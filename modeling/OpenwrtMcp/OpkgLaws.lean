-- The loop over the status file accepts the language of the grammar, and makes a record of each
-- stanza.
import OpenwrtMcp.OpkgGrammar

open openwrt_mcp_core openwrt_mcp_core.packages programs slices text

namespace openwrt_mcp_device_codec.packages.opkg

variable {rows : List OpkgStatusRecord} {fields : List Field} {f : Field} {line : Str} {s : Reading}

/-! ## The state -/

/-- What the loop keeps after these records and the fields of the stanza so far. -/
def state (rows : List OpkgStatusRecord) (fields : List Field) : Reading where
  rows := rows
  fields := fields.map Field.key
  selected i := (fields.find? fun f => f.key = field_name i).map Field.value
  previous_selected := fields.getLast?.any fun f => (position f.key).isSome

@[simp] theorem state_rows : (state rows fields).rows = rows := rfl

theorem position_eq_some {name : Str} {i : Fin 4} : position name = some i ↔
    name = field_name i := by
  constructor
  · intro h
    have hfound := List.find?_some h
    exact (of_decide_eq_true hfound).symm
  · intro h
    have htable : ∀ i : Fin 4, position (field_name i) = some i := by decide
    rw [h]
    exact htable i

theorem position_eq_none {name : Str} : position name = none ↔ ∀ i, name ≠ field_name i := by
  rw [Option.eq_none_iff_forall_ne_some]
  exact forall_congr' fun i => not_congr position_eq_some

theorem find_key_none {name : Str} (h : name ∉ fields.map Field.key) :
    fields.find? (fun f => f.key = name) = none := by
  rw [List.find?_eq_none]
  intro f hf heq
  exact h (List.mem_map.2 ⟨f, hf, of_decide_eq_true heq⟩)

/-- A selected field more. -/
theorem state_selected {i : Fin 4} (hkey : f.key = field_name i)
    (hnew : f.key ∉ fields.map Field.key) : state rows (fields ++ [f]) =
      ⟨rows, (state rows fields).fields ++ [f.key],
        Function.update (state rows fields).selected i (some f.value), true⟩ := by
  unfold state
  congr 1
  · simp
  · funext j
    rw [List.find?_append]
    by_cases hj : j = i
    · subst hj
      rw [← hkey, find_key_none hnew]
      simp
    · have hother : f.key ≠ field_name j := by
        intro heq
        exact hj (Option.some.inj ((position_eq_some.2 heq).symm.trans (position_eq_some.2 hkey)))
      simp [Function.update_of_ne hj, hother]
  · simp [position_eq_some.2 hkey]

/-- Any other field more. -/
theorem state_unselected (hkey : position f.key = none) : state rows (fields ++ [f]) =
    ⟨rows, (state rows fields).fields ++ [f.key], (state rows fields).selected, false⟩ := by
  unfold state
  congr 1
  · simp
  · funext j
    rw [List.find?_append]
    simp [position_eq_none.1 hkey j]
  · simp [hkey]

/-- The lines that continue a field do not change what is kept. -/
theorem state_more (more : List Str) :
    state rows (fields ++ [{ f with more := more }]) = state rows (fields ++ [f]) := by
  have hkey : Field.key { f with more := more } = f.key := rfl
  have hvalue : Field.value { f with more := more } = f.value := rfl
  unfold state
  congr 1
  · simp [hkey]
  · funext j
    rw [List.find?_append, List.find?_append, Option.map_or, Option.map_or]
    simp only [List.find?_cons, List.find?_nil, hkey]
    split
    · rw [Option.map_some, Option.map_some, hvalue]
    · rfl
  · simp [hkey]

/-! ## A line -/

theorem field_value_ok {raw value : Str} : field_value raw = .ok value ↔
    (raw = [] ∨ raw.head? = some ' ') ∧ raw.drop 1 = value := by
  cases raw with
  | nil => simp [field_value]
  | cons c rest =>
    unfold field_value
    by_cases hc : c = ' '
    · simp [hc]
    · simp [hc]

theorem insert_field_ok {s' : Reading} {name : Str} : insert_field s name = .ok s' ↔
    name ∉ s.fields ∧ s' = { s with fields := s.fields ++ [name] } := by
  unfold insert_field
  by_cases hin : name ∈ s.fields
  · simp [hin]
  · simp [hin, eq_comm]

/-- A line of a field is read when it is one of a field that the stanza does not have. -/
theorem read_field_ok : read_field (state rows fields) line = .ok s ↔
    ∃ f : Field, f.Valid ∧ f.more = [] ∧ f.head = line ∧ fields.length < MAX_FIELDS ∧
      f.key ∉ fields.map Field.key ∧ s = state rows (fields ++ [f]) := by
  have hlength : (state rows fields).fields.length = fields.length := List.length_map _
  constructor
  · intro h
    unfold read_field at h
    split at h
    · cases h
    · rename_i name raw hsplit
      split at h
      · cases h
      · rename_i hname
        split at h
        · cases h
        · rename_i hcount
          obtain ⟨value, hvalue, h⟩ := except_bind_ok.1 h
          obtain ⟨hraw, rfl⟩ := field_value_ok.1 hvalue
          rw [hlength] at hcount
          rw [Bool.not_eq_false, valid_name_iff] at hname
          refine ⟨⟨name, raw, []⟩, ?_⟩
          cases hposition : position (to_ascii_lowercase name) with
          | none =>
            simp only [hposition] at h
            obtain ⟨hnew, rfl⟩ := insert_field_ok.1 h
            refine ⟨⟨hname, hraw, by simp, ?_⟩, rfl,
              (PackageCursor.split_once_ok hsplit).symm, by omega, hnew, ?_⟩
            · intro i hi
              exact absurd hi (position_eq_none.1 hposition i)
            · rw [@state_unselected rows fields ⟨name, raw, []⟩ hposition]
              rfl
          | some i =>
            simp only [hposition] at h
            split at h
            · cases h
            · rename_i hvalid
              rw [Bool.not_eq_false] at hvalid
              obtain ⟨hnew, rfl⟩ := insert_field_ok.1 h
              refine ⟨⟨hname, hraw, by simp, ?_⟩, rfl,
                (PackageCursor.split_once_ok hsplit).symm, by omega, hnew, ?_⟩
              · intro j hj
                have hij := position_eq_some.2 hj
                rw [Field.key, hposition] at hij
                cases hij
                exact ⟨rfl, hvalid⟩
              · rw [@state_selected rows fields ⟨name, raw, []⟩ i
                  (position_eq_some.1 hposition) hnew]
                rfl
  · intro h
    obtain ⟨⟨name, raw, more⟩, hvalid, rfl, rfl, hcount, hnew, rfl⟩ := h
    have hsplit : split_once ':' (Field.head ⟨name, raw, []⟩) = some (name, raw) :=
      PackageCursor.split_once_append hvalid.name.no_colon
    unfold read_field
    simp only [hsplit]
    rw [if_neg (by rw [valid_name_iff.2 hvalid.name]; simp), if_neg (by omega)]
    refine except_bind_ok.2 ⟨_, field_value_ok.2 ⟨hvalid.raw, rfl⟩, ?_⟩
    cases hposition : position (to_ascii_lowercase name) with
    | none =>
      rw [@state_unselected rows fields ⟨name, raw, []⟩ hposition]
      exact insert_field_ok.2 ⟨hnew, rfl⟩
    | some i =>
      have hkey := position_eq_some.1 hposition
      have htext := (hvalid.selected i hkey).2
      have htext : valid_text (raw.drop 1) (bound i) = true := htext
      simp only [htext, Bool.true_eq_false, if_false]
      rw [@state_selected rows fields ⟨name, raw, []⟩ i hkey hnew]
      exact insert_field_ok.2 ⟨hnew, rfl⟩

/-- A value that is kept is the one of the field with this name. -/
theorem selected_eq_some (h : (fields.map Field.key).Nodup) {i : Fin 4} {value : Str} :
    (state rows fields).selected i = some value ↔
      ∃ f ∈ fields, f.key = field_name i ∧ f.value = value := by
  show (fields.find? fun f => f.key = field_name i).map Field.value = some value ↔ _
  rw [Option.map_eq_some_iff]
  constructor
  · intro hfound
    obtain ⟨f, hf, hvalue⟩ := hfound
    have hkey := List.find?_some hf
    exact ⟨f, List.mem_of_find?_eq_some hf, of_decide_eq_true hkey, hvalue⟩
  · intro hfield
    obtain ⟨f, hf, hkey, hvalue⟩ := hfield
    cases hfound : fields.find? fun f => f.key = field_name i with
    | none =>
      rw [List.find?_eq_none] at hfound
      exact absurd (decide_eq_true hkey) (hfound f hf)
    | some g =>
      have hg := List.find?_some hfound
      have heq := List.inj_on_of_nodup_map h (List.mem_of_find?_eq_some hfound) hf
        ((of_decide_eq_true hg).trans hkey.symm)
      exact ⟨g, rfl, by rw [heq, hvalue]⟩

theorem says_iff (h : (fields.map Field.key).Nodup) {row : OpkgStatusRecord} :
    Says fields row ↔ ∀ i, (state rows fields).selected i = some (selected_text row i) :=
  forall_congr' fun _ => (selected_eq_some h).symm

/-- A blank line ends a stanza that has all the selected fields. -/
theorem end_stanza_ok (h : (fields.map Field.key).Nodup) :
    end_stanza (state rows fields) = .ok s ↔ (fields = [] ∧ s = state rows []) ∨
      (fields ≠ [] ∧ rows.length < MAX_PACKAGE_RECORDS ∧
        ∃ row, Says fields row ∧ s = state (rows ++ [row]) []) := by
  unfold end_stanza
  rw [state_rows]
  by_cases hnil : fields = []
  · rw [if_pos (by simp [state, hnil]), hnil]
    simp [eq_comm]
  · rw [if_neg (by simpa [state] using hnil)]
    simp only [ne_eq, hnil, false_and, false_or, not_false_iff, true_and]
    by_cases hcount : rows.length ≥ MAX_PACKAGE_RECORDS
    · rw [if_pos hcount]
      simp only [reduceCtorEq, false_iff, not_and]
      intro hlt
      omega
    · rw [if_neg hcount]
      constructor
      · intro hok
        split at hok
        · rename_i name version arch status h0 h1 h2 h3
          cases hok
          refine ⟨Nat.lt_of_not_le hcount, ⟨name, version, arch, status⟩,
            (@says_iff rows fields h _).2 ?_, rfl⟩
          intro i
          fin_cases i
          · exact h0
          · exact h1
          · exact h2
          · exact h3
        · cases hok
      · intro hrow
        obtain ⟨-, row, hmatch, rfl⟩ := hrow
        have hselected := (@says_iff rows fields h _).1 hmatch
        rw [hselected 0, hselected 1, hselected 2, hselected 3]
        rfl

theorem continuation_iff : is_continuation line = true ↔
    line.head? = some ' ' ∨ line.head? = some '\t' := by
  cases line with
  | nil => simp [is_continuation]
  | cons c rest => simp [is_continuation]

/-- A line that continues a field is skipped, unless the field is one of the selected. -/
theorem read_continuation (hlen : len line ≤ MAX_LINE_BYTES) (h : is_continuation line = true) :
    read_line (state rows (fields ++ [f])) line = .ok s ↔
      position f.key = none ∧ s = state rows (fields ++ [f]) := by
  have hne : line ≠ [] := by
    intro hnil
    rw [hnil] at h
    cases h
  have hfields : (state rows (fields ++ [f])).fields ≠ [] := by simp [state]
  have hprevious : (state rows (fields ++ [f])).previous_selected = (position f.key).isSome := by
    simp [state]
  unfold read_line
  rw [if_neg (Nat.not_lt_of_le hlen), if_neg hne, if_pos h, hprevious]
  cases position f.key with
  | none => simp [hfields, eq_comm]
  | some i => simp

/-! ## What is read so far -/

/-- Stanzas that are complete, and the fields of one that is not. -/
def Progress (lines : List Str) (s : Reading) : Prop :=
  ∃ stanzas done fields rows, lines = done ++ field_lines fields ∧ Layout stanzas done ∧
    (∀ fields ∈ stanzas, Fields fields) ∧ List.Forall₂ Says stanzas rows ∧
    rows.length ≤ MAX_PACKAGE_RECORDS ∧ Fields fields ∧ s = state rows fields

theorem Fields.nil : Fields [] := ⟨by simp, Nat.zero_le _, .nil⟩

theorem Fields.snoc (h : Fields fields) (hvalid : f.Valid) (hcount : fields.length < MAX_FIELDS)
    (hnew : f.key ∉ fields.map Field.key) : Fields (fields ++ [f]) := by
  constructor
  · intro g hg
    rcases List.mem_append.1 hg with hg | hg
    · exact h.valid g hg
    · rw [List.mem_singleton.1 hg]
      exact hvalid
  · rw [List.length_append, List.length_singleton]
    omega
  · rw [List.map_append, List.map_singleton]
    refine List.nodup_append.2 ⟨h.names, List.nodup_singleton _, ?_⟩
    intro key hkey key' hkey' heq
    rw [List.mem_singleton.1 hkey'] at heq
    exact hnew (heq ▸ hkey)

theorem progress_start : Progress [] (.start []) :=
  ⟨[], [], [], [], rfl, .nil, by simp, .nil, Nat.zero_le _, .nil, rfl⟩

/-- One line more. -/
theorem progress_line {lines : List Str} {s' : Reading} (h : Progress lines s)
    (hread : read_line s line = .ok s') : Progress (lines ++ [line]) s' ∧
      len line ≤ MAX_LINE_BYTES := by
  obtain ⟨stanzas, done, fields, rows, rfl, hlayout, hstanzas, hmatch, hcount, hfields, rfl⟩ := h
  by_cases hlen : len line > MAX_LINE_BYTES
  · unfold read_line at hread
    rw [if_pos hlen] at hread
    cases hread
  refine ⟨?_, Nat.le_of_not_lt hlen⟩
  by_cases hblank : line = []
  · unfold read_line at hread
    rw [if_neg hlen, if_pos hblank, end_stanza_ok hfields.names] at hread
    subst hblank
    rcases hread with ⟨rfl, rfl⟩ | ⟨hne, hmore, row, hrow, rfl⟩
    · exact ⟨stanzas, done ++ [[]], [], rows, by simp [field_lines], hlayout.blank, hstanzas,
        hmatch,
        hcount, hfields, rfl⟩
    · refine ⟨stanzas ++ [fields], done ++ (field_lines fields ++ [[]]), [], rows ++ [row],
        by simp [field_lines], hlayout.stanza hne, ?_, ?_, ?_, .nil, rfl⟩
      · intro stanza hstanza
        rcases List.mem_append.1 hstanza with hstanza | hstanza
        · exact hstanzas stanza hstanza
        · rw [List.mem_singleton.1 hstanza]
          exact hfields
      · exact List.rel_append hmatch (.cons hrow .nil)
      · rw [List.length_append, List.length_singleton]
        omega
  by_cases hcontinuation : is_continuation line = true
  · rcases List.eq_nil_or_concat fields with rfl | ⟨before, f, rfl⟩
    · unfold read_line at hread
      rw [if_neg hlen, if_neg hblank, if_pos hcontinuation, if_pos (.inl rfl)] at hread
      cases hread
    · rw [List.concat_eq_append] at hread hfields
      obtain ⟨hposition, rfl⟩ := (read_continuation (Nat.le_of_not_lt hlen) hcontinuation).1 hread
      -- the last field has one line more
      refine ⟨stanzas, done, before ++ [{ f with more := f.more ++ [line] }], rows, ?_, hlayout,
        hstanzas, hmatch, hcount, ?_, (state_more _).symm⟩
      · simp [field_lines, Field.lines, Field.head]
      · have hvalid := hfields.valid f (by simp)
        constructor
        · intro g hg
          rcases List.mem_append.1 hg with hg | hg
          · exact hfields.valid g (List.mem_append_left _ hg)
          · rw [List.mem_singleton.1 hg]
            refine ⟨hvalid.name, hvalid.raw, ?_, ?_⟩
            · intro other hother
              rcases List.mem_append.1 hother with hother | hother
              · exact hvalid.more other hother
              · rw [List.mem_singleton.1 hother]
                exact continuation_iff.1 hcontinuation
            · intro i hi
              exact absurd hi (position_eq_none.1 hposition i)
        · simpa using hfields.count
        · simpa [Field.key] using hfields.names
  · unfold read_line at hread
    rw [if_neg hlen, if_neg hblank, if_neg hcontinuation] at hread
    obtain ⟨f, hvalid, hmore, rfl, hroom, hnew, rfl⟩ := read_field_ok.1 hread
    refine ⟨stanzas, done, fields ++ [f], rows, ?_, hlayout, hstanzas, hmatch, hcount,
      hfields.snoc hvalid hroom hnew, rfl⟩
    simp [field_lines, Field.lines, hmore]

theorem progress_lines {lines more : List Str} {s' : Reading} (h : Progress lines s)
    (hread : read_lines s more = .ok s') : Progress (lines ++ more) s' ∧
      ∀ line ∈ more, len line ≤ MAX_LINE_BYTES := by
  induction more generalizing lines s with
  | nil =>
    cases hread
    rw [List.append_nil]
    exact ⟨h, by simp⟩
  | cons line more ih =>
    obtain ⟨next, hline, hread⟩ := except_bind_ok.1 hread
    obtain ⟨hnext, hlen⟩ := progress_line h hline
    obtain ⟨hlast, hall⟩ := ih hnext hread
    rw [List.append_assoc] at hlast
    exact ⟨hlast, List.forall_mem_cons.2 ⟨hlen, hall⟩⟩

/-! ## Every status file is read -/

theorem read_lines_append (s : Reading) (a b : List Str) :
    read_lines s (a ++ b) = read_lines s a >>= fun s => read_lines s b := by
  induction a generalizing s with
  | nil => rfl
  | cons line a ih =>
    rw [List.cons_append, read_lines, read_lines]
    cases read_line s line with
    | error e => rfl
    | ok next => exact ih next

theorem Fields.of_append {more : List Field} (h : Fields (fields ++ more)) : Fields fields := by
  have hnames := h.names
  have hcount := h.count
  rw [List.map_append] at hnames
  rw [List.length_append] at hcount
  exact ⟨fun f hf => h.valid f (List.mem_append_left _ hf), by omega,
    (List.nodup_append.1 hnames).1⟩

theorem Field.Valid.head_line (h : f.Valid) : f.head ≠ [] ∧ is_continuation f.head = false := by
  obtain ⟨first, rest, hname, hfirst, -⟩ := h.name
  rw [Field.head, hname, List.cons_append]
  refine ⟨by simp, ?_⟩
  rw [← Bool.not_eq_true, continuation_iff]
  intro hcontinuation
  rcases hcontinuation with hc | hc
  · rw [Option.some.inj hc] at hfirst
    exact absurd hfirst (by decide)
  · rw [Option.some.inj hc] at hfirst
    exact absurd hfirst (by decide)

/-- The lines that continue a field leave the state as it is. -/
theorem read_more (h : f.Valid) {more : List Str} (hmore : ∀ line ∈ more, line ∈ f.more)
    (hlen : ∀ line ∈ more, len line ≤ MAX_LINE_BYTES) :
    read_lines (state rows (fields ++ [f])) more = .ok (state rows (fields ++ [f])) := by
  induction more with
  | nil => rfl
  | cons line more ih =>
    rw [List.forall_mem_cons] at hmore hlen
    have hposition : position f.key = none := by
      rw [position_eq_none]
      intro i hi
      have hin := hmore.1
      rw [(h.selected i hi).1] at hin
      cases hin
    refine except_bind_ok.2 ⟨_, (read_continuation hlen.1 ?_).2 ⟨hposition, rfl⟩, ih hmore.2 hlen.2⟩
    exact continuation_iff.2 (h.more line hmore.1)

theorem read_fields {more : List Field} (h : Fields (fields ++ more))
    (hlen : ∀ line ∈ field_lines more, len line ≤ MAX_LINE_BYTES) :
    read_lines (state rows fields) (field_lines more) = .ok (state rows (fields ++ more)) := by
  induction more generalizing fields with
  | nil =>
    rw [List.append_nil]
    rfl
  | cons f more ih =>
    have hsplit : fields ++ f :: more = (fields ++ [f]) ++ more := by simp
    have hlines : field_lines (f :: more) = f.head :: (f.more ++ field_lines more) := by
      simp [field_lines, Field.lines]
    rw [hsplit] at h ⊢
    rw [hlines, List.forall_mem_cons, List.forall_mem_append] at hlen
    have hfields := h.of_append
    have hvalid := hfields.valid f (by simp)
    have hbare : Field.Valid { f with more := [] } :=
      ⟨hvalid.name, hvalid.raw, by simp, fun i hi => ⟨rfl, (hvalid.selected i hi).2⟩⟩
    have hcount := hfields.count
    have hnames := hfields.names
    rw [List.length_append, List.length_singleton] at hcount
    rw [List.map_append, List.map_singleton] at hnames
    have hnew : f.key ∉ fields.map Field.key := fun hin =>
      (List.nodup_append.1 hnames).2.2 f.key hin f.key (by simp) rfl
    have hhead : read_line (state rows fields) f.head = .ok (state rows (fields ++ [f])) := by
      obtain ⟨hne, hcontinuation⟩ := hvalid.head_line
      unfold read_line
      rw [if_neg (Nat.not_lt_of_le hlen.1), if_neg hne, if_neg (by simp [hcontinuation])]
      exact read_field_ok.2 ⟨{ f with more := [] }, hbare, rfl, rfl, by omega, hnew,
        (state_more _).symm⟩
    rw [hlines]
    refine except_bind_ok.2 ⟨_, hhead, ?_⟩
    rw [read_lines_append]
    exact except_bind_ok.2 ⟨_, read_more hvalid (fun _ hin => hin) hlen.2.1, ih h hlen.2.2⟩

theorem forall₂_snoc {α β : Type} {R : α → β → Prop} {xs : List α} {x : α} {ys : List β}
    (h : List.Forall₂ R (xs ++ [x]) ys) :
    ∃ before last, ys = before ++ [last] ∧ List.Forall₂ R xs before ∧ R x last := by
  induction xs generalizing ys with
  | nil =>
    cases h with
    | cons hx hnil =>
      cases hnil
      exact ⟨[], _, rfl, .nil, hx⟩
  | cons y xs ih =>
    cases h with
    | cons hy hrest =>
      obtain ⟨before, last, rfl, hbefore, hlast⟩ := ih hrest
      exact ⟨_ :: before, last, rfl, .cons hy hbefore, hlast⟩

theorem read_layout {stanzas : List (List Field)} {lines : List Str} (h : Layout stanzas lines)
    (hstanzas : ∀ fields ∈ stanzas, Fields fields) (hmatch : List.Forall₂ Says stanzas rows)
    (hcount : rows.length ≤ MAX_PACKAGE_RECORDS)
    (hlen : ∀ line ∈ lines, len line ≤ MAX_LINE_BYTES) :
    read_lines (.start []) lines = .ok (state rows []) := by
  have hblank : ∀ (rows : List OpkgStatusRecord) (fields : List Field),
      read_line (state rows fields) [] = end_stanza (state rows fields) := by
    intro rows fields
    unfold read_line
    rw [if_neg (by decide), if_pos rfl]
  induction h generalizing rows with
  | nil =>
    cases hmatch
    rfl
  | @blank stanzas lines hlayout ih =>
    rw [List.forall_mem_append] at hlen
    rw [read_lines_append]
    refine except_bind_ok.2 ⟨_, ih hstanzas hmatch hcount hlen.1, ?_⟩
    refine except_bind_ok.2 ⟨state rows [], ?_, rfl⟩
    rw [hblank]
    exact (end_stanza_ok Fields.nil.names).2 (.inl ⟨rfl, rfl⟩)
  | @stanza stanzas lines fields hlayout hne ih =>
    rw [List.forall_mem_append] at hlen hstanzas
    rw [List.forall_mem_append] at hlen
    obtain ⟨before, last, rfl, hbefore, hlast⟩ := forall₂_snoc hmatch
    rw [List.length_append, List.length_singleton] at hcount
    have hfields := hstanzas.2 fields (by simp)
    rw [read_lines_append]
    refine except_bind_ok.2 ⟨_, ih hstanzas.1 hbefore (by omega) hlen.1, ?_⟩
    rw [read_lines_append]
    refine except_bind_ok.2 ⟨_, @read_fields _ [] _ hfields hlen.2.1, ?_⟩
    refine except_bind_ok.2 ⟨state (before ++ [last]) [], ?_, rfl⟩
    rw [List.nil_append, hblank]
    exact (end_stanza_ok hfields.names).2 (.inr ⟨hne, by omega, last, hlast, rfl⟩)

/-! ## The file -/

/-- The last line of a text that ends with two newlines is blank. -/
theorem last_line_blank {lines : List Str} {line : Str} (hline : '\n' ∉ line)
    (h : "\n\n".toList <:+ joined (lines ++ [line])) : line = [] := by
  have hjoined : joined (lines ++ [line]) = joined lines ++ line ++ ['\n'] := by
    simp [joined]
  obtain ⟨before, heq⟩ := h
  rw [hjoined] at heq
  have hsplit : before ++ "\n\n".toList = (before ++ ['\n']) ++ ['\n'] := by
    rw [List.append_assoc]
    rfl
  rw [hsplit] at heq
  have hlast := (List.append_inj' heq rfl).1
  rcases List.eq_nil_or_concat line with hnil | ⟨init, c, rfl⟩
  · exact hnil
  · rw [List.concat_eq_append, ← List.append_assoc] at hlast
    have hc := (List.append_inj' hlast rfl).2
    rw [List.concat_eq_append] at hline
    exact absurd (by rw [← List.singleton_inj.1 hc]; simp) hline

theorem Field.Valid.lines_ne (h : f.Valid) {line : Str} (hin : line ∈ f.lines) : line ≠ [] := by
  rcases List.mem_cons.1 hin with rfl | hin
  · exact h.head_line.1
  · intro hnil
    rw [hnil] at hin
    rcases h.more [] hin with hc | hc
    · cases hc
    · cases hc

/-- Behind a blank line no stanza is open. -/
theorem no_fields_of_blank {done : List Str} (h : Fields fields) {lines : List Str}
    (heq : lines ++ [[]] = done ++ field_lines fields) : fields = [] := by
  rcases List.eq_nil_or_concat fields with hnil | ⟨before, f, rfl⟩
  · exact hnil
  · rw [List.concat_eq_append] at h heq
    have hvalid := h.valid f (by simp)
    obtain ⟨init, last, hlines⟩ : ∃ init last, f.lines = init ++ [last] := by
      rcases List.eq_nil_or_concat f.lines with hnone | ⟨init, last, hlines⟩
      · cases hnone
      · exact ⟨init, last, by rw [hlines, List.concat_eq_append]⟩
    have hlast : field_lines (before ++ [f]) = field_lines before ++ init ++ [last] := by
      simp [field_lines, hlines]
    rw [hlast, ← List.append_assoc] at heq
    have hblank := List.singleton_inj.1 (List.append_inj' heq rfl).2
    exact absurd hblank.symm (hvalid.lines_ne (by rw [hlines]; simp))

/-- Each of the texts of a record passed its check. -/
theorem says_valid {row : OpkgStatusRecord} (h : Fields fields) (hline : Says fields row) :
    Valid OpkgStatusRecord.texts (fun _ => true) row := by
  have htext : ∀ i, valid_text (selected_text row i) (bound i) = true := by
    intro i
    obtain ⟨f, hf, hkey, hvalue⟩ := hline i
    rw [← hvalue]
    exact ((h.valid f hf).selected i hkey).2
  refine ⟨?_, rfl⟩
  intro t ht
  simp only [OpkgStatusRecord.texts, List.mem_cons, List.not_mem_nil, or_false] at ht
  rcases ht with rfl | rfl | rfl | rfl
  · exact htext 0
  · exact htext 1
  · exact htext 2
  · exact htext 3

/-- The loop over the lines of a text. -/
theorem read_text {text : Str} (hend : text = [] ∨ "\n\n".toList <:+ text) :
    read_lines (.start []) (split_terminator '\n' text) = .ok s ↔
      ∃ rows, Document text rows ∧ rows.length ≤ MAX_PACKAGE_RECORDS ∧ s = state rows [] := by
  constructor
  · intro h
    have hjoined : joined (split_terminator '\n' text) = text := by
      refine joined_split_terminator (hend.imp_right fun hsuffix => ?_)
      obtain ⟨before, rfl⟩ := hsuffix
      rw [List.getLast?_append]
      rfl
    obtain ⟨hprogress, hlen⟩ := progress_lines progress_start h
    rw [List.nil_append] at hprogress
    obtain ⟨stanzas, done, fields, rows, hlines, hlayout, hstanzas, hline, hcount, hfields, rfl⟩ :=
      hprogress
    obtain rfl : fields = [] := by
      rcases List.eq_nil_or_concat (split_terminator '\n' text) with hnil | ⟨lines, line, hconcat⟩
      · rw [hnil] at hlines
        have hnone := (List.append_eq_nil_iff.1 hlines.symm).2
        cases fields with
        | nil => rfl
        | cons f rest => cases hnone
      · rw [List.concat_eq_append] at hconcat
        have hline : '\n' ∉ line := split_terminator_lines (by rw [hconcat]; simp)
        rw [hconcat] at hlines hjoined
        rcases hend with rfl | hsuffix
        · exact absurd hconcat (by simp [split_terminator])
        · rw [← hjoined] at hsuffix
          obtain rfl := last_line_blank hline hsuffix
          exact no_fields_of_blank hfields hlines
    refine ⟨rows, ⟨stanzas, split_terminator '\n' text, hjoined.symm, ?_, ?_, hstanzas, hline⟩,
      hcount,
      rfl⟩
    · intro line hline
      exact ⟨split_terminator_lines hline, hlen line hline⟩
    · rw [hlines]
      simpa [field_lines] using hlayout
  · intro h
    obtain ⟨rows, ⟨stanzas, lines, rfl, hlines, hlayout, hstanzas, hline⟩, hcount, rfl⟩ := h
    rw [split_terminator_joined fun line hline => (hlines line hline).1]
    exact read_layout hlayout hstanzas hline hcount fun line hline => (hlines line hline).2

/-- A status file that is accepted, and the records of its stanzas. -/
structure Status (source : List UInt8) (maximum : Nat) (rows : List OpkgStatusRecord) : Prop where
  size : source.length ≤ min maximum MAX_PACKAGE_SOURCE_BYTES
  text : ∃ text, source = bytes text ∧ (text = [] ∨ "\n\n".toList <:+ text) ∧
    (∀ c ∈ text, is_control c = true → c = '\n' ∨ c = '\t') ∧ Document text rows
  count : rows.length ≤ MAX_PACKAGE_RECORDS
  names : (rows.map OpkgStatusRecord.name).Nodup
  retained : rows_size OpkgStatusRecord.texts rows ≤ MAX_PACKAGE_RETAINED_BYTES

theorem valid_source_iff {text : Str} : valid_source text = true ↔
    (text = [] ∨ "\n\n".toList <:+ text) ∧
      ∀ c ∈ text, is_control c = true → c = '\n' ∨ c = '\t' := by
  unfold valid_source
  simp only [Bool.and_eq_true, Bool.or_eq_true, decide_eq_true_eq, List.isSuffixOf_iff_suffix,
    Bool.not_eq_true', List.any_eq_false, not_and, not_not, or_iff_not_imp_left]
  simp

/-- The records are kept in the order of their names, which differ. -/
theorem new_opkg_status_ok {observation : PackageObservation}
    (h : ∀ row ∈ rows, Valid OpkgStatusRecord.texts (fun _ => true) row) :
    (PackageObservation.new_opkg_status rows).mapError from_core = .ok observation ↔
      rows.length ≤ MAX_PACKAGE_RECORDS ∧
      rows_size OpkgStatusRecord.texts rows ≤ MAX_PACKAGE_RETAINED_BYTES ∧
      (rows.map OpkgStatusRecord.name).Nodup ∧ ∃ sorted : List OpkgStatusRecord,
        sorted.Perm rows ∧ sorted.Pairwise (fun a b => a.name < b.name) ∧
        observation = ⟨.Opkg sorted⟩ := by
  have hmap : (PackageObservation.new_opkg_status rows).mapError from_core = .ok observation ↔
      PackageObservation.new_opkg_status rows = .ok observation := by
    cases PackageObservation.new_opkg_status rows with
    | error e => simp [Except.mapError]
    | ok o => simp [Except.mapError]
  rw [hmap, PackageObservation.new_opkg_status, except_bind_ok]
  constructor
  · intro hok
    obtain ⟨sorted, hobserve, heq⟩ := hok
    cases heq
    obtain ⟨hcount, -, hsize, hnames, rfl⟩ := observe_ok.1 hobserve
    have hsorted := sorted_of_nodup hnames
    rw [List.pairwise_map] at hsorted
    exact ⟨hcount, hsize, hnames, _, sort_by_key_perm _ _, hsorted, rfl⟩
  · intro hrows
    obtain ⟨hcount, hsize, hnames, sorted, hperm, hpairwise, rfl⟩ := hrows
    have hsorted := sorted_of_nodup hnames
    rw [List.pairwise_map] at hsorted
    have heq : sorted = sort_by_key OpkgStatusRecord.key rows :=
      (hperm.trans (sort_by_key_perm _ rows).symm).eq_of_pairwise
        (fun a b _ _ hab hba => absurd (hab.trans hba) (lt_irrefl a.name)) hpairwise hsorted
    exact ⟨sorted, observe_ok.2 ⟨hcount, h, hsize, hnames, heq⟩, rfl⟩

theorem document_valid {text : Str} (h : Document text rows) :
    ∀ row ∈ rows, Valid OpkgStatusRecord.texts (fun _ => true) row := by
  obtain ⟨stanzas, -, -, -, -, hstanzas, hline⟩ := h
  induction hline with
  | nil => simp
  | @cons fields row stanzas rows hrow _ ih =>
    rw [List.forall_mem_cons] at hstanzas ⊢
    exact ⟨says_valid hstanzas.1 hrow, ih hstanzas.2⟩

/-- The parser accepts the status files and no other bytes, and gives the records of the stanzas in
the order of their names. -/
theorem a_status_file_is_read_as_its_stanzas (source : List UInt8) (maximum : Nat)
    (observation : PackageObservation) :
    parse_opkg_status source maximum = .ok observation ↔
      ∃ rows sorted : List OpkgStatusRecord, Status source maximum rows ∧ sorted.Perm rows ∧
        sorted.Pairwise (fun a b => a.name < b.name) ∧ observation = ⟨.Opkg sorted⟩ := by
  unfold parse_opkg_status
  constructor
  · intro h
    split at h
    · cases h
    · rename_i hsize
      split at h
      · cases h
      · rename_i text hutf8
        split at h
        · cases h
        · rename_i hvalid
          rw [Bool.not_eq_false, valid_source_iff] at hvalid
          obtain ⟨s, hread, hstatus⟩ := except_bind_ok.1 h
          obtain ⟨rows, hdocument, -, rfl⟩ := (read_text hvalid.1).1 hread
          obtain ⟨hcount, hretained, hnames, sorted, hperm, hsorted, rfl⟩ :=
            (new_opkg_status_ok (document_valid hdocument)).1 hstatus
          exact ⟨rows, sorted, ⟨Nat.le_of_not_lt hsize,
            ⟨text, from_utf8_eq_some.1 hutf8, hvalid.1, hvalid.2, hdocument⟩, hcount, hnames,
            hretained⟩, hperm, hsorted, rfl⟩
  · intro h
    obtain ⟨rows, sorted, hstatus, hperm, hsorted, rfl⟩ := h
    obtain ⟨text, rfl, hends, hplain, hdocument⟩ := hstatus.text
    rw [if_neg (Nat.not_lt_of_le hstatus.size), from_utf8_eq_some.2 rfl]
    simp only
    rw [if_neg (by rw [valid_source_iff.2 ⟨hends, hplain⟩]; simp)]
    refine except_bind_ok.2 ⟨_, (read_text hends).2 ⟨rows, hdocument, hstatus.count, rfl⟩, ?_⟩
    exact (new_opkg_status_ok (document_valid hdocument)).2
      ⟨hstatus.count, hstatus.retained, hstatus.names, sorted, hperm, hsorted, rfl⟩

/-- Two stanzas, the second of a package whose name comes first, with a field that is not read. -/
def two_stanzas : List UInt8 :=
  ascii "Package: opkg" ++ [10] ++ ascii "Version: 2" ++ [10] ++ ascii
    "Architecture: all" ++ [10] ++
    ascii "Status: install ok installed" ++ [10, 10] ++
    ascii "Package: dnsmasq" ++ [10] ++ ascii "Version: 1" ++ [10] ++ ascii
      "Depends: libc" ++ [10] ++
    ascii "Architecture: all" ++ [10] ++ ascii "Status: hold ok installed" ++ [10, 10]

def opkg_row : OpkgStatusRecord :=
  ⟨"opkg".toList, "2".toList, "all".toList, "install ok installed".toList⟩

def dnsmasq_row : OpkgStatusRecord :=
  ⟨"dnsmasq".toList, "1".toList, "all".toList, "hold ok installed".toList⟩

theorem two_stanzas_are_read : ∃ rows, Status two_stanzas 4096 rows ∧
    [dnsmasq_row, opkg_row].Perm rows := by
  have hrun : (match parse_opkg_status two_stanzas 4096 with
      | .ok ⟨.Opkg rows⟩ => rows
      | .ok ⟨.Apk _⟩ => []
      | .error _ => []) = [dnsmasq_row, opkg_row] := by decide +kernel
  cases hok : parse_opkg_status two_stanzas 4096 with
  | error e =>
    rw [hok] at hrun
    cases hrun
  | ok observation =>
    obtain ⟨rows, sorted, hstatus, hperm, -, rfl⟩ :=
      (a_status_file_is_read_as_its_stanzas two_stanzas 4096 observation).1 hok
    rw [hok] at hrun
    have hsorted : sorted = [dnsmasq_row, opkg_row] := hrun
    exact ⟨rows, hstatus, hsorted ▸ hperm⟩

end openwrt_mcp_device_codec.packages.opkg
