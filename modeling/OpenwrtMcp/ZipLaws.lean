-- A ZIP file that passes the check: its directory tiles the bytes up to the last record, no two of
-- its entries overlap, and the entry that was asked for is the only one of its name.
import OpenwrtMcp.ZipRecords

open checked_bytes slices text

namespace openwrt_mcp_key_sources.archive

open openwrt_mcp_runtime.protection

variable {calm : Prop}

/-! ## One entry -/

/-- The entry that is asked for is a file of a size that the limits allow. -/
structure Selectable (limits : KeyLimits) (name : Str) (f : Fields) : Prop where
  file : is_directory name = false
  size : f.inflated ≤ limits.max_key_bytes
  ratio : f.inflated ≤ f.compressed * limits.max_expansion_ratio
  stored : f.method = 0 → f.inflated = f.compressed

/-- What the check makes sure of for an entry of the directory. -/
structure Entry (bytes : Bytes) (requested : Str) (limits : KeyLimits)
    (stop directory_start p : Nat) : Prop where
  signature : part bytes p 4 = CENTRAL
  next : next_at bytes p ≤ stop
  method : (fields_at bytes p).method = 0 ∨ (fields_at bytes p).method = 8
  text : from_utf8 (name_bytes_at bytes p) = some (name_at bytes p)
  name : entry_name (name_at bytes p) (is_directory (name_at bytes p)) = true
  extra : PlainExtra (extra_at bytes p)
  local_header : LocalAgrees bytes (name_bytes_at bytes p) (fields_at bytes p) directory_start
  selected : name_at bytes p = requested →
    Selectable limits (name_at bytes p) (fields_at bytes p)

theorem check_selected_spec (requested : Str) (limits : KeyLimits) (name : Str) (f : Fields) :
    Spec calm (check_selected requested limits name f)
      fun _ => name = requested → Selectable limits name f := by
  unfold check_selected
  by_cases hname : name ≠ requested
  · rw [if_pos hname]
    exact .ok fun h => absurd h hname
  · rw [if_neg hname]
    refine Spec.guard fun hfile => ?_
    refine Spec.guard fun hsizes => ?_
    simp only [not_or, not_lt, not_and, not_not, le_min_iff] at hsizes
    refine .ok fun _ => ⟨?_, hsizes.1, hsizes.2.1.1, hsizes.2.2⟩
    rw [is_directory, decide_eq_false_iff_not]
    exact hfile

/-- The state of the loop after a turn. -/
def visited (bytes : Bytes) (requested : Str) (index : Nat) (walk : Walk) : Walk where
  position := next_at bytes walk.position
  names := trim_slashes (name_at bytes walk.position) :: walk.names
  ranges := walk.ranges ++ [region bytes (fields_at bytes walk.position)]
  selected := if name_at bytes walk.position = requested then some index else walk.selected

theorem visit_entry_spec {bytes : Bytes} {requested : Str} {limits : KeyLimits}
    {stop directory_start index : Nat} {walk : Walk} (hcalm : calm → bytes.length < 2 ^ 62)
    (hposition : walk.position ≤ stop) (hstop : stop ≤ bytes.length) :
    Spec calm (visit_entry bytes requested limits stop directory_start index walk) fun w =>
      w = visited bytes requested index walk ∧
      Entry bytes requested limits stop directory_start walk.position ∧
      trim_slashes (name_at bytes walk.position) ∉ walk.names := by
  have hword : ∀ n, n ≤ 2 ^ 20 → calm → walk.position + n < 2 ^ 64 := by
    intro n hn hc
    have := hcalm hc
    omega
  unfold visit_entry
  refine (span_spec _ bytes walk.position 4).bind fun signature hsignature => ?_
  refine Spec.guard fun hsigned => ?_
  refine (add_spec (hword 46 (by decide))).bind fun header hheader => ?_
  refine Spec.guard fun _ => ?_
  refine (read_fields_spec bytes (hword 46 (by decide))).bind fun f hf => ?_
  refine (field16_spec bytes (hword 34 (by decide))).bind fun disk _ => ?_
  refine Spec.guard fun hsupported => ?_
  refine (span_spec _ bytes header f.name_len).bind fun name_bytes hname_bytes => ?_
  have hbytes : name_bytes = name_bytes_at bytes walk.position := by
    rw [hname_bytes.2, hheader, hf]
    rfl
  cases hutf8 : from_utf8 name_bytes with
  | none => exact .fail _
  | some name =>
    have hname : name_at bytes walk.position = name := by
      rw [name_at, ← hbytes, hutf8]
      rfl
    refine Spec.guard fun hvalid => ?_
    have hname_lt := u16_lt bytes (walk.position + 28)
    have hextra_lt := u16_lt bytes (walk.position + 30)
    have hcomment_lt := u16_lt bytes (walk.position + 32)
    have hlens : f.name_len < 65536 ∧ f.extra_len < 65536 ∧ f.comment_len < 65536 := by
      rw [hf]
      exact ⟨hname_lt, hextra_lt, hcomment_lt⟩
    refine (add_spec fun _ => by omega).bind fun named hnamed => ?_
    refine (add_spec fun _ => by omega).bind fun extended hextended => ?_
    refine (add_spec fun _ => by omega).bind fun size hsize => ?_
    refine (checked_add_spec _ _ _).bind fun next hnext => ?_
    refine Spec.guard fun hwithin => ?_
    have hnext_eq : next = next_at bytes walk.position := by
      rw [hnext, hsize, hextended, hnamed, hf]
      rfl
    refine (add_spec fun hc => ?_).bind fun extra_start hextra_start => ?_
    · have := hcalm hc
      omega
    refine (span_spec _ bytes extra_start f.extra_len).bind fun extra hextra => ?_
    refine (validate_extra_spec fun hc => ?_).bind fun _ hplain => ?_
    · have hlength := hcalm hc
      rw [hextra.2]
      unfold part
      rw [List.length_take, List.length_drop]
      omega
    refine (check_selected_spec requested limits name f).bind fun _ hselected => ?_
    have hlocal : f.local_start < 2 ^ 32 := by
      rw [hf]
      exact u32_lt bytes (walk.position + 42)
    have hcompressed : f.compressed < 2 ^ 32 := by
      rw [hf]
      exact u32_lt bytes (walk.position + 20)
    refine (validate_local_spec hcalm hlocal hcompressed).bind fun r hr => ?_
    simp only [invalid_name, not_or, Bool.not_eq_false] at hvalid
    simp only [unsupported, not_or, not_and, not_not] at hsupported
    refine .ok ⟨?_, ?_, ?_⟩
    · rw [hnext_eq, hr.1, hf, ← hname]
      rfl
    · constructor
      · rw [← hsignature.2]
        exact not_not.1 hsigned
      · rw [← hnext_eq]
        exact Nat.le_of_not_lt hwithin
      · rw [← hf]
        exact or_iff_not_imp_left.2 hsupported.2.1
      · rw [← hbytes, hutf8, hname]
      · rw [hname]
        exact hvalid.1
      · have heq : extra = extra_at bytes walk.position := by
          rw [hextra.2, hextra_start, hheader, hf]
          rfl
        rw [← heq]
        exact hplain
      · rw [← hbytes, ← hf]
        exact hr.2
      · rw [hname, ← hf]
        exact hselected
    · rw [hname]
      exact hvalid.2.1

/-! ## Names -/

/-- A name without the slash that a directory ends in. -/
def bare_name (name : Str) : Str := if is_directory name then name.dropLast else name

/-- A name that is accepted: it has no empty component, so it is relative, and none that leads
elsewhere. -/
theorem components_of_entry_name {name : Str} (h : entry_name name (is_directory name) = true) :
    ∀ c ∈ (bare_name name).splitOn '/', c ≠ [] ∧ c ≠ ".".toList ∧ c ≠ "..".toList := by
  unfold entry_name at h
  split at h
  · cases h
  · have hbare : (if is_directory name = true ∧ name.getLast? = some '/' then name.dropLast
        else name) = bare_name name := by
      unfold bare_name is_directory
      by_cases hlast : name.getLast? = some '/'
      · simp [hlast]
      · simp [hlast]
    simp only [hbare] at h
    rw [Bool.and_eq_true, List.all_eq_true] at h
    intro c hc
    have hcomponent := h.2 c hc
    simp only [Bool.and_eq_true, decide_eq_true_eq] at hcomponent
    exact ⟨hcomponent.1.1, hcomponent.1.2, hcomponent.2⟩

theorem bare_name_head {name : Str} (h : entry_name name (is_directory name) = true) :
    (bare_name name).head? ≠ some '/' := by
  intro hhead
  obtain ⟨rest, hrest⟩ := List.head?_eq_some_iff.1 hhead
  have hcomponents := components_of_entry_name h
  rw [hrest, ← List.nil_append ('/' :: rest), List.splitOn_append_cons_self] at hcomponents
  exact (hcomponents [] (by simp)).1 rfl

/-- A name that is accepted has at most one slash at its end. -/
theorem trim_slashes_eq {name : Str} (h : entry_name name (is_directory name) = true) :
    trim_slashes name = bare_name name := by
  have hlast : (bare_name name).getLast? ≠ some '/' := by
    intro hlast
    obtain ⟨init, hinit⟩ := List.getLast?_eq_some_iff.1 hlast
    have hcomponents := components_of_entry_name h
    rw [hinit, List.splitOn_append_cons_self] at hcomponents
    exact (hcomponents [] (by simp)).1 rfl
  have hself : trim_slashes (bare_name name) = bare_name name := by
    unfold trim_slashes
    rw [List.rdropWhile_eq_self_iff]
    intro hne heq
    exact hlast (by rw [List.getLast?_eq_some_getLast hne, of_decide_eq_true heq])
  by_cases hdirectory : name.getLast? = some '/'
  · obtain ⟨init, hinit⟩ := List.getLast?_eq_some_iff.1 hdirectory
    have hbare : bare_name name = init := by
      unfold bare_name is_directory
      rw [if_pos (decide_eq_true hdirectory), hinit, List.dropLast_concat]
    rw [hbare] at hself ⊢
    rw [hinit, ← hself]
    unfold trim_slashes
    rw [List.rdropWhile_concat_pos _ _ _ (by rfl)]
    exact congrArg _ hself
  · have hbare : bare_name name = name := by
      unfold bare_name is_directory
      rw [if_neg (by simpa using hdirectory)]
    rw [hbare] at hself ⊢
    exact hself

/-! ## The directory -/

/-- The entries stand one after another, from one place to another. -/
def Tiles (bytes : Bytes) : Nat → List Nat → Nat → Prop
  | start, [], stop => start = stop
  | start, p :: ps, stop => p = start ∧ Tiles bytes (next_at bytes p) ps stop

theorem Tiles.snoc {bytes : Bytes} {start stop : Nat} {ps : List Nat}
    (h : Tiles bytes start ps stop) :
    Tiles bytes start (ps ++ [stop]) (next_at bytes stop) := by
  induction ps generalizing start with
  | nil =>
    obtain rfl : start = stop := h
    exact ⟨rfl, rfl⟩
  | cons p ps ih => exact ⟨h.1, ih h.2⟩

/-- What the loop has seen after the entries at `ps`. -/
structure Walked (bytes : Bytes) (requested : Str) (limits : KeyLimits)
    (stop directory_start : Nat) (ps : List Nat) (walk : Walk) : Prop where
  tiles : Tiles bytes directory_start ps walk.position
  before : walk.position ≤ stop
  entries : ∀ p ∈ ps, Entry bytes requested limits stop directory_start p
  names : ∀ name, name ∈ walk.names ↔ ∃ p ∈ ps, trim_slashes (name_at bytes p) = name
  distinct : (ps.map fun p => trim_slashes (name_at bytes p)).Nodup
  ranges : walk.ranges = ps.map fun p => region bytes (fields_at bytes p)
  selected : ∀ i, walk.selected = some i ↔ ∃ p, ps[i]? = some p ∧ name_at bytes p = requested

section
variable {bytes : Bytes} {requested : Str} {limits : KeyLimits} {stop directory_start : Nat}
  {ps : List Nat} {walk : Walk}

theorem Walked.visited (h : Walked bytes requested limits stop directory_start ps walk)
    (hentry : Entry bytes requested limits stop directory_start walk.position)
    (hnew : trim_slashes (name_at bytes walk.position) ∉ walk.names) :
    Walked bytes requested limits stop directory_start (ps ++ [walk.position])
      (visited bytes requested ps.length walk) := by
  constructor
  · exact h.tiles.snoc
  · exact hentry.next
  · intro p hp
    rcases List.mem_append.1 hp with hp | hp
    · exact h.entries p hp
    · rw [List.mem_singleton.1 hp]
      exact hentry
  · intro name
    simp only [archive.visited, List.mem_cons, List.mem_append, List.not_mem_nil, or_false,
      h.names, eq_comm (a := name)]
    constructor
    · intro hname
      rcases hname with hname | ⟨p, hp, hname⟩
      · exact ⟨walk.position, .inr rfl, hname⟩
      · exact ⟨p, .inl hp, hname⟩
    · intro hname
      obtain ⟨p, hp | rfl, hname⟩ := hname
      · exact .inr ⟨p, hp, hname⟩
      · exact .inl hname
  · rw [List.map_append, List.map_singleton, List.nodup_append]
    refine ⟨h.distinct, List.nodup_singleton _, ?_⟩
    intro a ha b hb heq
    obtain ⟨p, hp, rfl⟩ := List.mem_map.1 ha
    rw [List.mem_singleton.1 hb] at heq
    exact hnew ((h.names _).2 ⟨p, hp, heq⟩)
  · rw [List.map_append, List.map_singleton, ← h.ranges]
    rfl
  · intro i
    -- an entry of this name was not there before, so none was selected
    have hfirst : name_at bytes walk.position = requested → ∀ (i p : Nat), ps[i]? = some p →
        name_at bytes p ≠ requested := by
      intro hname i p hp hother
      exact hnew ((h.names _).2 ⟨p, List.mem_of_getElem? hp, by rw [hother, hname]⟩)
    unfold archive.visited
    by_cases hname : name_at bytes walk.position = requested
    · rw [if_pos hname, Option.some.injEq]
      constructor
      · intro hi
        exact ⟨walk.position, by rw [← hi]; simp, hname⟩
      · intro hfound
        obtain ⟨p, hp, hrequested⟩ := hfound
        rw [List.getElem?_append] at hp
        split at hp
        · exact absurd hrequested (hfirst hname i p hp)
        · have hi := (List.getElem?_eq_some_iff.1 hp).1
          rw [List.length_singleton] at hi
          omega
    · rw [if_neg hname, h.selected i]
      constructor
      · intro hfound
        obtain ⟨p, hp, hrequested⟩ := hfound
        have hi := (List.getElem?_eq_some_iff.1 hp).1
        exact ⟨p, by rw [List.getElem?_append_left hi]; exact hp, hrequested⟩
      · intro hfound
        obtain ⟨p, hp, hrequested⟩ := hfound
        rw [List.getElem?_append] at hp
        split at hp
        · exact ⟨p, hp, hrequested⟩
        · have hlast : p = walk.position :=
            List.mem_singleton.1 (List.mem_of_getElem? hp)
          rw [hlast] at hrequested
          exact absurd hrequested hname

theorem visit_entries_spec (hcalm : calm → bytes.length < 2 ^ 62) (hstop : stop ≤ bytes.length)
    {todo : Nat} (h : Walked bytes requested limits stop directory_start ps walk) :
    Spec calm (visit_entries bytes requested limits stop directory_start todo ps.length walk)
      fun w => ∃ qs, qs.length = ps.length + todo ∧
        Walked bytes requested limits stop directory_start qs w := by
  induction todo generalizing ps walk with
  | zero => exact .ok ⟨ps, rfl, h⟩
  | succ todo ih =>
    refine (visit_entry_spec hcalm h.before hstop).bind fun w hw => ?_
    obtain ⟨rfl, hentry, hnew⟩ := hw
    have hnext := ih (h.visited hentry hnew)
    rw [List.length_append, List.length_singleton] at hnext
    refine hnext.conseq fun w hw => ?_
    obtain ⟨qs, hlength, hwalked⟩ := hw
    exact ⟨qs, by omega, hwalked⟩

end

/-! ## Regions -/

/-- Two regions of a file that share no byte. -/
def Apart (r s : Nat × Nat) : Prop := r.2 ≤ s.1 ∨ s.2 ≤ r.1

/-- Neighbours that do not overlap, in the order of their starts, are apart. -/
theorem pairwise_of_windows {rs : List (Nat × Nat)} (hvalid : ∀ r ∈ rs, r.1 ≤ r.2)
    (hneighbours : ∀ pair ∈ windows2 rs, pair.1.2 ≤ pair.2.1) :
    rs.Pairwise fun r s => r.2 ≤ s.1 := by
  induction rs with
  | nil => exact .nil
  | cons r rs ih =>
    cases rs with
    | nil => exact List.pairwise_singleton _ _
    | cons s rs =>
      have htail := ih (fun t ht => hvalid t (List.mem_cons_of_mem r ht)) fun pair hpair =>
        hneighbours pair (List.mem_cons_of_mem (r, s) hpair)
      have hnext : r.2 ≤ s.1 := hneighbours (r, s) List.mem_cons_self
      have hs := hvalid s (List.mem_cons_of_mem r List.mem_cons_self)
      refine List.pairwise_cons.2 ⟨?_, htail⟩
      intro t ht
      rcases List.mem_cons.1 ht with rfl | ht
      · exact hnext
      · have hlater := (List.pairwise_cons.1 htail).1 t ht
        omega

/-- The test of neighbours on the sorted regions finds two regions that overlap. -/
theorem apart_of_sorted {ranges : List (Nat × Nat)} (hvalid : ∀ r ∈ ranges, r.1 ≤ r.2)
    (h : ¬ ((windows2 (sort_by_key (fun r => toLex r) ranges)).any
      fun pair => decide (pair.1.2 > pair.2.1)) = true) : ranges.Pairwise Apart := by
  have hperm := sort_by_key_perm (fun r : Nat × Nat => toLex r) ranges
  have hsorted : (sort_by_key (fun r => toLex r) ranges).Pairwise Apart := by
    refine (pairwise_of_windows (fun r hr => hvalid r (hperm.mem_iff.1 hr)) ?_).imp .inl
    intro pair hpair
    by_contra hlt
    exact h (List.any_eq_true.2 ⟨pair, hpair, decide_eq_true (Nat.lt_of_not_le hlt)⟩)
  exact (hperm.pairwise_iff fun hapart => hapart.symm).1 hsorted

theorem region_valid (bytes : Bytes) (f : Fields) : (region bytes f).1 ≤ (region bytes f).2 := by
  unfold region descriptor_at data_end
  split
  · split
    · exact Nat.le_trans (by omega) (Nat.le_add_right _ 12)
    · exact Nat.le_trans (by omega) (Nat.le_add_right _ 12)
  · simp only
    omega

/-! ## The last record -/

/-- The record says where the directory is, and that it ends where the record starts. -/
structure EndRecord (bytes : Bytes) (limits : KeyLimits) (stop count directory_start : Nat) :
    Prop where
  total : u16 bytes (stop + 10) = count
  on_this_disk : u16 bytes (stop + 8) = count
  disks : u16 bytes (stop + 4) = 0 ∧ u16 bytes (stop + 6) = 0
  entries : count ≤ limits.max_entries
  start : u32 bytes (stop + 16) = directory_start
  size : u32 bytes (stop + 12) ≤ limits.max_directory_bytes
  tight : directory_start + u32 bytes (stop + 12) = stop

theorem end_record_spec {bytes : Bytes} {limits : KeyLimits} {stop : Nat}
    (h : calm → stop < 2 ^ 63) : Spec calm (end_record bytes limits stop)
      fun r => EndRecord bytes limits stop r.1 r.2 := by
  have hoffset : ∀ offset, offset ≤ 22 → calm → stop + offset < 2 ^ 64 := by
    intro offset hle hc
    have := h hc
    omega
  unfold end_record
  refine (field16_spec bytes (hoffset 10 (by decide))).bind fun count hcount => ?_
  refine (field32_spec bytes (hoffset 12 (by decide))).bind fun size hsize => ?_
  refine (field32_spec bytes (hoffset 16 (by decide))).bind fun start hstart => ?_
  refine (field16_spec bytes (hoffset 4 (by decide))).bind fun disk hdisk => ?_
  refine Spec.guard fun hone => ?_
  refine (field16_spec bytes (hoffset 6 (by decide))).bind fun directory_disk hdirectory => ?_
  refine Spec.guard fun htwo => ?_
  refine (field16_spec bytes (hoffset 8 (by decide))).bind fun disk_count hdisk_count => ?_
  refine Spec.guard fun hsupported => ?_
  refine Spec.guard fun hlimits => ?_
  refine (checked_add_spec start size _).bind fun directory_end hend => ?_
  refine Spec.guard fun htight => ?_
  rw [not_not] at hone htwo htight
  simp only [not_or, not_not, not_lt] at hsupported hlimits
  refine .ok ⟨hcount.2.symm, ?_, ⟨?_, ?_⟩, hlimits.1, hstart.2.symm, ?_, ?_⟩
  · rw [← hdisk_count.2]
    exact hsupported.1
  · rw [← hdisk.2]
    exact hone
  · rw [← hdirectory.2]
    exact htwo
  · rw [← hsize.2]
    exact hlimits.2
  · rw [← hsize.2, ← htight]
    exact hend.symm

/-- The signature of a last record stands here. -/
def SignatureAt (bytes : Bytes) (p : Nat) : Prop := part bytes p 4 = END

/-- A last record stands here whose comment goes to the end of the file. -/
structure EndsAt (bytes : Bytes) (p : Nat) : Prop where
  signature : SignatureAt bytes p
  comment : p + 22 + u16 bytes (p + 20) = bytes.length

/-- The record that the file ends with: no other one starts later. -/
structure LastEnd (bytes : Bytes) (p : Nat) : Prop extends EndsAt bytes p where
  last : ∀ q, p < q → ¬ EndsAt bytes q

theorem get_eq_end {bytes : Bytes} {p : Nat} :
    get bytes p (p + 4) = some END ↔ SignatureAt bytes p := by
  rw [get_eq_some, Nat.add_sub_cancel_left]
  constructor
  · intro h
    exact h.2.2.symm
  · intro h
    have hlength : (part bytes p 4).length = 4 := by
      rw [SignatureAt] at h
      rw [h]
      rfl
    unfold part at hlength
    rw [List.length_take, List.length_drop] at hlength
    exact ⟨by omega, by omega, h.symm⟩

instance (bytes : Bytes) (p : Nat) : Decidable (EndsAt bytes p) :=
  decidable_of_iff (part bytes p 4 = END ∧ p + 22 + u16 bytes (p + 20) = bytes.length)
    ⟨fun h => ⟨h.1, h.2⟩, fun h => ⟨h.1, h.2⟩⟩

theorem add_eq {a b : Nat} (h : a + b < 2 ^ 64) : (add a b : Outcome Nat) = .ok (a + b) := by
  unfold add
  rw [if_pos h]

/-- The search asks this of every place that it tries. -/
theorem is_end_eq {bytes : Bytes} {p : Nat} (h : p + 65557 < 2 ^ 64) :
    is_end bytes p = .ok (decide (EndsAt bytes p)) := by
  unfold is_end
  rw [add_eq (by omega), add_eq (by omega)]
  simp only [Bind.bind, Except.bind]
  by_cases hsignature : get bytes p (p + 4) ≠ some END
  · rw [if_pos hsignature, decide_eq_false]
    intro hends
    exact hsignature (get_eq_end.2 hends.signature)
  · rw [if_neg hsignature]
    rw [not_not, get_eq_end] at hsignature
    by_cases hroom : p + 22 ≤ bytes.length
    · have hget : get bytes (p + 20) (p + 20 + 2) = some (part bytes (p + 20) 2) :=
        get_eq_some.2 ⟨by omega, by omega, by rw [Nat.add_sub_cancel_left]⟩
      have hnumber : number16 bytes (p + 20) = .ok (u16 bytes (p + 20)) := by
        unfold number16 number checked_bytes.span checked_add
        rw [if_pos (by omega)]
        simp only [Bind.bind, Except.bind, hget]
        rfl
      have hlt := u16_lt bytes (p + 20)
      rw [hnumber]
      simp only
      rw [add_eq (by omega)]
      simp only
      rw [add_eq (by omega)]
      simp only
      congr 1
      rw [decide_eq_decide]
      exact ⟨fun heq => ⟨hsignature, heq⟩, fun hends => hends.comment⟩
    · have hnumber : ∃ e, number16 bytes (p + 20) = .error (.err e) := by
        have hspec : Spec True (number16 bytes (p + 20)) _ := number_spec 2 _ bytes (p + 20)
        cases hlength : number16 bytes (p + 20) with
        | ok length =>
          have hbound := (hspec.2 length hlength).1
          omega
        | error e =>
          cases e with
          | panic => exact absurd hlength (hspec.1 trivial)
          | err e => exact ⟨e, rfl⟩
      obtain ⟨e, he⟩ := hnumber
      rw [he, decide_eq_false]
      intro hends
      have hcomment := hends.comment
      omega

theorem is_end_spec {bytes : Bytes} {p : Nat} (h : p + 65557 < 2 ^ 64) :
    Spec calm (is_end bytes p) fun found => found = true ↔ EndsAt bytes p := by
  rw [is_end_eq h]
  exact .ok decide_eq_true_iff

theorem find_end_spec {bytes : Bytes} {start more : Nat} (h : start + more + 65557 < 2 ^ 64) :
    Spec calm (find_end bytes start more) fun r =>
      (∀ p, r = some p → p ≤ start + more ∧ EndsAt bytes p ∧
        ∀ q, p < q → q ≤ start + more → ¬ EndsAt bytes q) := by
  induction more with
  | zero =>
    refine (is_end_spec (by omega)).bind fun found hfound => ?_
    refine .ok ?_
    intro p hp
    split at hp
    · rename_i htrue
      cases hp
      exact ⟨Nat.le_refl _, hfound.1 htrue, fun q hlt hle => absurd hle (by omega)⟩
    · cases hp
  | succ more ih =>
    refine (is_end_spec (by omega)).bind fun found hfound => ?_
    by_cases htrue : found = true
    · rw [if_pos htrue]
      refine .ok ?_
      intro p hp
      cases hp
      exact ⟨Nat.le_refl _, hfound.1 htrue, fun q hlt hle => absurd hle (by omega)⟩
    · rw [if_neg htrue]
      refine (ih (by omega)).conseq fun r hr p hp => ?_
      obtain ⟨hle, hends, hlast⟩ := hr p hp
      refine ⟨by omega, hends, ?_⟩
      intro q hlt hbound hq
      by_cases heq : q = start + (more + 1)
      · rw [heq] at hq
        exact htrue (hfound.2 hq)
      · exact hlast q hlt (by omega) hq

/-- The record that is found is the last one, and its comment holds no signature of another. -/
theorem locate_spec {bytes : Bytes} (h : bytes.length < 2 ^ 63) :
    Spec calm (locate bytes) fun stop => LastEnd bytes stop ∧
      has_end (bytes.drop (stop + 22)) = false := by
  unfold locate
  refine Spec.guard fun hroom => ?_
  refine (find_end_spec (by omega)).bind fun r hr => ?_
  cases r with
  | none => exact .fail _
  | some stop =>
    obtain ⟨-, hends, hlast⟩ := hr stop rfl
    have hcomment := hends.comment
    refine (add_spec fun _ => by omega).bind fun offset hoffset => ?_
    rw [hoffset, slice_eq (by omega) (Nat.le_refl _), List.take_of_length_le (by simp)]
    refine Spec.guard fun hnone => ?_
    refine .ok ⟨⟨hends, ?_⟩, by simpa using hnone⟩
    intro q hlt hq
    have hbound := hq.comment
    exact hlast q hlt (by omega) hq

/-! ## The file -/

/-- The entries that the check has seen, and the one that it gives. -/
structure Checked (bytes : Bytes) (requested : Str) (limits : KeyLimits)
    (stop directory_start : Nat) (ps : List Nat) (i : Nat) : Prop where
  record : EndRecord bytes limits stop ps.length directory_start
  tiles : Tiles bytes directory_start ps stop
  entries : ∀ p ∈ ps, Entry bytes requested limits stop directory_start p
  names : (ps.map fun p => bare_name (name_at bytes p)).Nodup
  relative : ∀ p ∈ ps, (bare_name (name_at bytes p)).head? ≠ some '/' ∧
    ∀ c ∈ (bare_name (name_at bytes p)).splitOn '/', c ≠ [] ∧ c ≠ ".".toList ∧ c ≠ "..".toList
  regions : (ps.map fun p => region bytes (fields_at bytes p)).Pairwise Apart
  selected : ∃ p, ps[i]? = some p ∧ name_at bytes p = requested ∧
    Selectable limits requested (fields_at bytes p)
  only : ∀ j p, ps[j]? = some p → name_at bytes p = requested → j = i

theorem read_directory_spec {bytes : Bytes} {requested : Str} {limits : KeyLimits} {stop : Nat}
    (hcalm : calm → bytes.length < 2 ^ 62) (hstop : stop ≤ bytes.length) :
    Spec calm (read_directory bytes requested limits stop) fun i =>
      ∃ directory_start ps, Checked bytes requested limits stop directory_start ps i := by
  unfold read_directory
  refine (end_record_spec fun hc => ?_).bind fun r hr => ?_
  · have := hcalm hc
    omega
  obtain ⟨count, directory_start⟩ := r
  have htight := hr.tight
  have hstart : Walked bytes requested limits stop directory_start []
      ⟨directory_start, [], [], none⟩ :=
    ⟨rfl, by simp only at htight ⊢; omega, by simp, by simp, .nil, rfl, by simp⟩
  refine (visit_entries_spec hcalm hstop hstart).bind fun walk hwalk => ?_
  obtain ⟨ps, hlength, hwalked⟩ := hwalk
  have hcount : ps.length = count := by simpa using hlength
  refine Spec.guard fun hend => ?_
  refine Spec.guard fun hsorted => ?_
  have hvalid : ∀ r ∈ walk.ranges, r.1 ≤ r.2 := by
    intro r hr
    rw [hwalked.ranges] at hr
    obtain ⟨p, -, rfl⟩ := List.mem_map.1 hr
    exact region_valid bytes _
  have hregions := apart_of_sorted hvalid hsorted
  rw [hwalked.ranges] at hregions
  cases hselected : walk.selected with
  | none => exact .fail _
  | some i =>
    obtain ⟨p, hp, hname⟩ := (hwalked.selected i).1 hselected
    have hentry := hwalked.entries p (List.mem_of_getElem? hp)
    have hnames : (ps.map fun p => trim_slashes (name_at bytes p)) =
        ps.map fun p => bare_name (name_at bytes p) :=
      List.map_congr_left fun p hp => trim_slashes_eq (hwalked.entries p hp).name
    refine .ok ⟨directory_start, ps, ?_⟩
    constructor
    · rw [hcount]
      exact hr
    · rw [not_not] at hend
      rw [← hend]
      exact hwalked.tiles
    · exact hwalked.entries
    · rw [← hnames]
      exact hwalked.distinct
    · intro q hq
      have hentry := (hwalked.entries q hq).name
      exact ⟨bare_name_head hentry, components_of_entry_name hentry⟩
    · exact hregions
    · have hselectable := hentry.selected hname
      rw [hname] at hselectable
      exact ⟨p, hp, hname, hselectable⟩
    · intro j q hq hother
      have hj := (hwalked.selected j).2 ⟨q, hq, hother⟩
      rw [hselected] at hj
      exact (Option.some.inj hj).symm

theorem preflight_spec {bytes : Bytes} {requested : Str} {limits : KeyLimits}
    (h : bytes.length < 2 ^ 62) : Spec calm (preflight bytes requested limits) fun i =>
      ∃ stop directory_start ps, LastEnd bytes stop ∧
        Checked bytes requested limits stop directory_start ps i := by
  refine (locate_spec (by omega)).bind fun stop hstop => ?_
  have hcomment := hstop.1.comment
  refine (read_directory_spec (fun _ => h) (by omega)).conseq fun i hi => ?_
  obtain ⟨directory_start, ps, hchecked⟩ := hi
  exact ⟨stop, directory_start, ps, hstop.1, hchecked⟩

/-- Limits that are accepted stay below their caps. -/
theorem caps_of_validate {limits : KeyLimits} (h : limits.validate = .ok ()) :
    limits.max_container_bytes ≤ 16 * 1024 * 1024 ∧ limits.max_entries ≤ 4096 ∧
      limits.max_directory_bytes ≤ 1024 * 1024 := by
  unfold KeyLimits.validate at h
  dsimp only at h
  split at h
  · cases h
  · rename_i hfields
    simp only [List.any_cons, List.any_nil, Bool.or_eq_true, decide_eq_true_eq, not_or,
      not_lt] at hfields
    omega

/-- The check never panics. A file that passes is what its directory says: the entries fill the
bytes between the start of the directory and the last record, each agrees with its local header, no
two overlap, and the one that was asked for is the only one of its name. -/
theorem the_check_of_a_file_is_sound {bytes : Bytes} {requested : Str} {limits : KeyLimits}
    (hlimits : limits.validate = .ok ()) (hsize : bytes.length ≤ limits.max_container_bytes) :
    preflight bytes requested limits ≠ .error .panic ∧
      ∀ i, preflight bytes requested limits = .ok i → ∃ stop directory_start ps,
        LastEnd bytes stop ∧ Checked bytes requested limits stop directory_start ps i := by
  have hmax := (caps_of_validate hlimits).1
  have hspec : Spec True (preflight bytes requested limits) _ := preflight_spec (by omega)
  exact ⟨hspec.1 trivial, hspec.2⟩

/-- A file with two entries, up to the length of its comment: the stored byte `x` under the name
`k`, and the bytes `yz` under the name `m` with their numbers in a descriptor behind them. -/
def two_keys : Bytes :=
  LOCAL ++ [20, 0, 0, 0, 0, 0, 0, 0, 0, 0, 131, 22, 220, 140, 1, 0, 0, 0, 1, 0, 0, 0, 1, 0, 0, 0,
    107, 120] ++
  LOCAL ++ [20, 0, 8, 0, 0, 0, 0, 0, 0, 0, 0, 0, 0, 0, 0, 0, 0, 0, 0, 0, 0, 0, 1, 0, 0, 0, 109, 121,
    122, 80, 75, 7, 8, 98, 72, 244, 15, 2, 0, 0, 0, 2, 0, 0, 0] ++
  CENTRAL ++ [20, 0, 20, 0, 0, 0, 0, 0, 0, 0, 0, 0, 131, 22, 220, 140, 1, 0, 0, 0, 1, 0, 0, 0, 1, 0,
    0, 0, 0, 0, 0, 0, 0, 0, 0, 0, 0, 0, 0, 0, 0, 0, 107] ++
  CENTRAL ++
    [20, 0, 20, 0, 8, 0, 0, 0, 0, 0, 0, 0, 98, 72, 244, 15, 2, 0, 0, 0, 2, 0, 0, 0, 1, 0, 0,
    0, 0, 0, 0, 0, 0, 0, 0, 0, 0, 0, 32, 0, 0, 0, 109] ++
  END ++ [0, 0, 0, 0, 2, 0, 2, 0, 94, 0, 0, 0, 81, 0, 0, 0]

theorem the_check_of_two_keys_is_sound : ∃ stop directory_start ps,
    LastEnd (two_keys ++ [0, 0]) stop ∧
      Checked (two_keys ++ [0, 0]) "m".toList KeyLimits.default stop directory_start ps 1 := by
  have hpasses : (preflight (two_keys ++ [0, 0]) "m".toList KeyLimits.default).toOption =
      some 1 := by
    decide +kernel
  cases hok : preflight (two_keys ++ [0, 0]) "m".toList KeyLimits.default with
  | error e =>
    rw [hok] at hpasses
    cases hpasses
  | ok i =>
    rw [hok] at hpasses
    cases hpasses
    exact (the_check_of_a_file_is_sound rfl (by decide +kernel)).2 1 hok

end openwrt_mcp_key_sources.archive
