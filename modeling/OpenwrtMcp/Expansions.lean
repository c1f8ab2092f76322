-- The paths that a source file may mean by a path, with the aliases of its imports, and the check
-- of all of them against the paths that a crate must not use. The aliases may go round in circles.
import OpenwrtMcp.BoundedSearch
import OpenwrtMcp.Maps
import OpenwrtMcp.Text

open bounded_search maps text

namespace xtask.source

abbrev BTreeSet (K : Type) [LinearOrder K] := BTreeMap K Unit

abbrev Aliases := BTreeMap Str (BTreeSet Str)

/-- `path.split_once("::")` -/
def split_once_colons : Str → Option (Str × Str)
  | [] => none
  | c :: rest =>
    if c = ':' ∧ rest.head? = some ':' then some ([], rest.tail)
    else
      match split_once_colons rest with
      | none => none
      | some (head, tail) => some (c :: head, tail)

/-- The first segment, and the rest with the colons in front. -/
def head_and_tail (path : Str) : Str × Str :=
  match split_once_colons path with
  | none => (path, [])
  | some (head, tail) => (head, "::".toList ++ tail)

theorem colons_infix_cons {c : Char} {s : Str} : "::".toList <:+: c :: s ↔
    (c = ':' ∧ s.head? = some ':') ∨ "::".toList <:+: s := by
  rw [List.infix_cons_iff]
  refine or_congr ?_ Iff.rfl
  cases s with
  | nil => simp
  | cons d s => simp [eq_comm]

theorem split_once_colons_some {s head tail : Str} (h : split_once_colons s = some (head, tail)) :
    s = head ++ "::".toList ++ tail ∧ ¬ "::".toList <:+: head := by
  induction s generalizing head with
  | nil => cases h
  | cons c rest ih =>
    unfold split_once_colons at h
    split at h
    · rename_i hcolons
      cases h
      obtain ⟨rfl, hhead⟩ := hcolons
      cases rest with
      | nil => cases hhead
      | cons d rest =>
        cases hhead
        exact ⟨rfl, by simp⟩
    · rename_i hcolons
      split at h
      · cases h
      · rename_i first second hsplit
        cases h
        obtain ⟨rfl, hno⟩ := ih hsplit
        refine ⟨rfl, ?_⟩
        rw [colons_infix_cons]
        rintro (⟨rfl, hhead⟩ | hin)
        · refine hcolons ⟨rfl, ?_⟩
          cases first with
          | nil => cases hhead
          | cons d first => exact hhead
        · exact hno hin

theorem split_once_colons_none {s : Str} (h : split_once_colons s = none) :
    ¬ "::".toList <:+: s := by
  induction s with
  | nil => simp
  | cons c rest ih =>
    unfold split_once_colons at h
    split at h
    · cases h
    · rename_i hcolons
      split at h
      · rename_i hsplit
        rw [colons_infix_cons]
        rintro (hhead | hin)
        · exact hcolons hhead
        · exact ih hsplit hin
      · cases h

/-- The two are the path, and the first one is one segment. -/
theorem head_and_tail_spec (path : Str) :
    (head_and_tail path).1 ++ (head_and_tail path).2 = path ∧
      ¬ "::".toList <:+: (head_and_tail path).1 := by
  unfold head_and_tail
  cases hsplit : split_once_colons path with
  | none => exact ⟨List.append_nil _, split_once_colons_none hsplit⟩
  | some parts =>
    obtain ⟨hpath, hno⟩ := split_once_colons_some hsplit
    refine ⟨?_, hno⟩
    rw [hpath, List.append_assoc]

/-- The loop over the targets of a head, with so many paths seen. -/
def push_targets (head tail : Str) (seen : Nat) : List Str → List Str → List Str
  | [], pending => pending
  | target :: rest, pending =>
    if target ≠ head then
      let candidate := target ++ tail
      -- Recursive aliases are invalid Rust; bound expansion before compilation.
      if len candidate ≤ 1024 ∧ seen < 1024 then
        push_targets head tail seen rest (candidate :: pending)
      else push_targets head tail seen rest pending
    else push_targets head tail seen rest pending

/-- What is pending after a path that was new. -/
def push (aliases : Aliases) (path : Str) (seen : Nat) (pending : List Str) : List Str :=
  let (head, tail) := head_and_tail path
  match aliases.get head with
  | none => pending
  | some targets => push_targets head tail seen targets.keys pending

/-- The last path that is pending is the first of the list. -/
structure Work where
  seen : BTreeSet Str
  pending : List Str

/-- A turn of the loop, if there is one. -/
def turn (aliases : Aliases) (w : Work) : Option Work :=
  match w.pending with
  | [] => none
  | path :: pending =>
    if w.seen.contains_key path then some ⟨w.seen, pending⟩
    else
      let seen := w.seen.insert path ()
      some ⟨seen, push aliases path seen.len pending⟩

/-! ## The loop ends -/

theorem length_insert_entry {key : Str} {entries : List (Str × Unit)}
    (h : key ∉ entries.map Prod.fst) :
    (BTreeMap.insert_entry key () entries).length = entries.length + 1 := by
  induction entries with
  | nil => rfl
  | cons e rest ih =>
    simp only [List.map_cons, List.mem_cons, not_or] at h
    unfold BTreeMap.insert_entry
    split
    · rfl
    rw [if_neg h.1, List.length_cons, ih h.2, List.length_cons]

/-- A path that was not seen. -/
theorem len_insert {seen : BTreeSet Str} {path : Str} (h : ¬ seen.contains_key path = true) :
    (seen.insert path ()).len = seen.len + 1 :=
  length_insert_entry fun hmem => h (BTreeMap.contains_key_iff.2 hmem)

/-- Nothing is pushed when enough is seen. -/
theorem push_targets_full {head tail : Str} {seen : Nat} (h : ¬ seen < 1024)
    (targets pending : List Str) : push_targets head tail seen targets pending = pending := by
  induction targets with
  | nil => rfl
  | cons target rest ih => simp [push_targets, h, ih]

theorem push_full {path : Str} {seen : Nat} (h : ¬ seen < 1024) (aliases : Aliases)
    (pending : List Str) : push aliases path seen pending = pending := by
  unfold push
  simp only
  split
  · rfl
  · exact push_targets_full h _ _

/-- The two kinds of a turn. -/
theorem turn_cases {aliases : Aliases} {w w' : Work} (h : turn aliases w = some w') :
    ∃ path pending, w.pending = path :: pending ∧
      ((path ∈ w.seen.keys ∧ w' = ⟨w.seen, pending⟩) ∨
        (path ∉ w.seen.keys ∧ w' = ⟨w.seen.insert path (),
          push aliases path (w.seen.len + 1) pending⟩)) := by
  unfold turn at h
  cases hpending : w.pending with
  | nil => simp [hpending] at h
  | cons path pending =>
    refine ⟨path, pending, rfl, ?_⟩
    simp only [hpending] at h
    by_cases hseen : w.seen.contains_key path = true
    · rw [if_pos hseen, Option.some.injEq] at h
      exact .inl ⟨BTreeMap.contains_key_iff.1 hseen, h.symm⟩
    · rw [if_neg hseen, len_insert hseen, Option.some.injEq] at h
      exact .inr ⟨fun hmem => hseen (BTreeMap.contains_key_iff.2 hmem), h.symm⟩

/-- What gets smaller in every turn: how many paths may still be seen, then what is pending. -/
def Work.rank (w : Work) : Nat × Nat := (1024 - w.seen.len, w.pending.length)

theorem turn_decreases {aliases : Aliases} {w w' : Work} (h : turn aliases w = some w') :
    Prod.Lex (· < ·) (· < ·) w'.rank w.rank := by
  obtain ⟨path, pending, hpending, ⟨-, rfl⟩ | ⟨hnew, rfl⟩⟩ := turn_cases h
  · refine .right' _ (Nat.le_refl _) ?_
    rw [hpending]
    exact Nat.lt_succ_self _
  have hlen : (w.seen.insert path ()).len = w.seen.len + 1 :=
    len_insert fun hseen => hnew (BTreeMap.contains_key_iff.1 hseen)
  by_cases hroom : w.seen.len < 1024
  · refine .left _ _ ?_
    show 1024 - (w.seen.insert path ()).len < 1024 - w.seen.len
    omega
  · refine .right' _ ?_ ?_
    · show 1024 - (w.seen.insert path ()).len ≤ 1024 - w.seen.len
      omega
    · rw [push_full (by omega), hpending]
      exact Nat.lt_succ_self _

/-- The loop. -/
def expands_loop (aliases : Aliases) (w : Work) : BTreeSet Str :=
  match _h : turn aliases w with
  | none => w.seen
  | some w' => expands_loop aliases w'
termination_by w.rank
decreasing_by exact turn_decreases _h

def expands (path : Str) (aliases : Aliases) : BTreeSet Str :=
  expands_loop aliases ⟨BTreeMap.empty, [path]⟩

/-- So many turns, or as many as there are. -/
def turns (aliases : Aliases) : Nat → Work → Work
  | 0, w => w
  | count + 1, w =>
    match turn aliases w with
    | none => w
    | some w' => turns aliases count w'

/-- After so many turns there is no more, and the loop has that result. -/
theorem loop_ends (aliases : Aliases) (w : Work) :
    ∃ count, turn aliases (turns aliases count w) = none ∧
      expands_loop aliases w = (turns aliases count w).seen := by
  fun_induction expands_loop aliases w with
  | case1 w hturn => exact ⟨0, hturn, rfl⟩
  | case2 w w' hturn ih =>
    obtain ⟨count, hnone, heq⟩ := ih
    refine ⟨count + 1, ?_, ?_⟩
    · simpa [turns, hturn] using hnone
    · simpa [turns, hturn] using heq

/-! ## What the loop finds -/

variable {aliases : Aliases} {p q path : Str}

/-- The head of a path is replaced by one of its aliases. -/
def Respells (aliases : Aliases) (p q : Str) : Prop :=
  ∃ targets, aliases.get (head_and_tail p).1 = some targets ∧
    ∃ target ∈ targets.keys, target ≠ (head_and_tail p).1 ∧ q = target ++ (head_and_tail p).2 ∧
      len q ≤ 1024

theorem mem_push_targets {head tail : Str} {seen : Nat} {targets pending : List Str} :
    q ∈ push_targets head tail seen targets pending ↔ q ∈ pending ∨
      seen < 1024 ∧ ∃ target ∈ targets, target ≠ head ∧ q = target ++ tail ∧ len q ≤ 1024 := by
  induction targets generalizing pending with
  | nil => simp [push_targets]
  | cons target rest ih =>
    unfold push_targets
    simp only [List.mem_cons, exists_eq_or_imp]
    split
    · rename_i hne
      split
      · rename_i hroom
        rw [ih, List.mem_cons]
        have hq : q = target ++ tail → len q ≤ 1024 := fun hq => hq ▸ hroom.1
        have hseen := hroom.2
        tauto
      · rename_i hroom
        rw [ih]
        have hq : q = target ++ tail → len q ≤ 1024 → ¬ seen < 1024 := fun hq hlen hseen =>
          hroom ⟨hq ▸ hlen, hseen⟩
        tauto
    · rename_i heq
      rw [ih]
      tauto

theorem mem_push {seen : Nat} {pending : List Str} :
    q ∈ push aliases p seen pending ↔ q ∈ pending ∨ seen < 1024 ∧ Respells aliases p q := by
  unfold push Respells
  simp only
  cases hget : aliases.get (head_and_tail p).1 with
  | none => simp
  | some targets => simp [mem_push_targets]

/-- The paths of the loop are spellings of the path, and each is seen once. -/
def Spelled (aliases : Aliases) (path : Str) (w : Work) : Prop :=
  Searched (Respells aliases) path w.pending w.seen.keys

/-- No spelling is lost. -/
def Whole (aliases : Aliases) (w : Work) : Prop :=
  Closed (Respells aliases) w.pending w.seen.keys

theorem keys_insert (seen : BTreeSet Str) (p q : Str) :
    q ∈ (seen.insert p ()).keys ↔ q = p ∨ q ∈ seen.keys := BTreeMap.mem_keys_insert_entry

theorem turn_spelled {w w' : Work} (hw : Spelled aliases path w)
    (h : turn aliases w = some w') : Spelled aliases path w' := by
  unfold Spelled at hw
  obtain ⟨p, pending, hpending, ⟨hseen, rfl⟩ | ⟨-, rfl⟩⟩ := turn_cases h
  · rw [hpending] at hw
    exact hw.skip hseen
  · rw [hpending] at hw
    exact hw.visit (keys_insert _ _) (BTreeMap.nodup_keys _)
      (fun q hq => (mem_push.1 hq).imp id And.right) fun q hq => mem_push.2 (.inl hq)

/-- A turn loses nothing when there are no more spellings than may be seen. -/
theorem turn_whole {w w' : Work} (hw : Spelled aliases path w) (hwhole : Whole aliases w)
    (hmost : {q | Reach (Respells aliases) path q}.encard ≤ 1024)
    (h : turn aliases w = some w') : Whole aliases w' := by
  have hw' := turn_spelled hw h
  unfold Whole at hwhole
  obtain ⟨p, pending, hpending, ⟨hseen, rfl⟩ | ⟨hnew, rfl⟩⟩ := turn_cases h
  · rw [hpending] at hwhole
    exact hwhole.skip hseen
  rw [hpending] at hwhole
  refine hwhole.visit (keys_insert _ _) (fun q hq => mem_push.2 (.inl hq)) fun q hq => ?_
  by_cases hroom : w.seen.len + 1 < 1024
  · exact .inl (mem_push.2 (.inr ⟨hroom, hq⟩))
  -- enough is seen, so all spellings are
  have hlen : (w.seen.insert p ()).keys.length = w.seen.len + 1 := by
    rw [BTreeMap.keys, List.length_map]
    exact len_insert fun hseen => hnew (BTreeMap.contains_key_iff.1 hseen)
  have hp : Reach (Respells aliases) path p :=
    hw.reach p (.inl (hpending ▸ List.mem_cons_self))
  exact .inr (hw'.all_done 1024 hmost (by rw [hlen]; omega) (worklist.Reachable.step hp hq))

theorem turn_none {w : Work} (h : turn aliases w = none) : w.pending = [] := by
  unfold turn at h
  split at h
  · assumption
  · split at h <;> simp at h

/-- What is found is a spelling of the path. -/
theorem loop_sound {w : Work} (hw : Spelled aliases path w) :
    Searched (Respells aliases) path [] (expands_loop aliases w).keys := by
  fun_induction expands_loop aliases w with
  | case1 w hturn => exact turn_none hturn ▸ hw
  | case2 w w' hturn ih => exact ih (turn_spelled hw hturn)

theorem loop_whole {w : Work} (hw : Spelled aliases path w) (hwhole : Whole aliases w)
    (hmost : {q | Reach (Respells aliases) path q}.encard ≤ 1024) :
    Closed (Respells aliases) [] (expands_loop aliases w).keys := by
  fun_induction expands_loop aliases w with
  | case1 w hturn => exact turn_none hturn ▸ hwhole
  | case2 w w' hturn ih => exact ih (turn_spelled hw hturn) (turn_whole hw hwhole hmost hturn)

theorem expands_sound (aliases : Aliases) (path : Str) :
    Searched (Respells aliases) path [] (expands path aliases).keys := loop_sound searched_init

/-- With no more spellings than may be seen, all of them are found. -/
theorem mem_expands (hmost : {q | Reach (Respells aliases) path q}.encard ≤ 1024) :
    q ∈ (expands path aliases).keys ↔ Reach (Respells aliases) path q := by
  have hwhole : Whole aliases ⟨BTreeMap.empty, [path]⟩ := by
    simp [Whole, Closed, BTreeMap.empty, BTreeMap.keys]
  exact (expands_sound aliases path).mem_done_iff (loop_whole searched_init hwhole hmost) q

/-! ## The check of a path -/

/-- `prefix(path, boundary)` -/
def within (path boundary : Str) : Bool :=
  path = boundary ||
    (boundary.isPrefixOf path && "::".toList.isPrefixOf (path.drop boundary.length))

theorem within_iff {path boundary : Str} : within path boundary = true ↔
    path = boundary ∨ ∃ rest, path = boundary ++ "::".toList ++ rest := by
  unfold within
  rw [Bool.or_eq_true, decide_eq_true_eq, Bool.and_eq_true, List.isPrefixOf_iff_prefix,
    List.isPrefixOf_iff_prefix]
  refine or_congr Iff.rfl ?_
  constructor
  · rintro ⟨⟨behind, rfl⟩, rest, hrest⟩
    rw [List.drop_left] at hrest
    exact ⟨rest, by rw [List.append_assoc, hrest]⟩
  · rintro ⟨rest, rfl⟩
    rw [List.append_assoc]
    refine ⟨List.prefix_append _ _, ?_⟩
    rw [List.drop_left]
    exact List.prefix_append _ _

structure CrateRule where
  forbidden_paths : List Str

structure Checker where
  rule : CrateRule
  aliases : Aliases
  development : Bool
  errors : BTreeSet Str

def forbidden_api (expanded : Str) : Str := "forbidden API ".toList ++ expanded

/-- The loop over the paths that are forbidden. -/
def check_forbidden (expanded : Str) (glob : Bool) : List Str → BTreeSet Str → BTreeSet Str
  | [], errors => errors
  | forbidden :: rest, errors =>
    if within expanded forbidden || (glob && within forbidden expanded) then
      check_forbidden expanded glob rest (errors.insert (forbidden_api expanded) ())
    else check_forbidden expanded glob rest errors

/-- The loop over the spellings. -/
def check_expanded (forbidden_paths : List Str) (glob : Bool) :
    List Str → BTreeSet Str → BTreeSet Str
  | [], errors => errors
  | expanded :: rest, errors =>
    check_expanded forbidden_paths glob rest
      (check_forbidden expanded glob forbidden_paths errors)

def Checker.check_path (c : Checker) (path : Str) (glob : Bool) : Checker :=
  if c.development then c
  else
    let expanded := (expands path c.aliases).keys
    { c with errors := check_expanded c.rule.forbidden_paths glob expanded c.errors }

/-- A spelling that the rule forbids. -/
def Forbidden (forbidden_paths : List Str) (glob : Bool) (expanded : Str) : Prop :=
  ∃ forbidden ∈ forbidden_paths,
    within expanded forbidden = true ∨ (glob = true ∧ within forbidden expanded = true)

theorem mem_check_forbidden {expanded e : Str} {glob : Bool} {forbidden_paths : List Str}
    {errors : BTreeSet Str} :
    e ∈ (check_forbidden expanded glob forbidden_paths errors).keys ↔ e ∈ errors.keys ∨
      (e = forbidden_api expanded ∧ Forbidden forbidden_paths glob expanded) := by
  unfold Forbidden
  induction forbidden_paths generalizing errors with
  | nil => simp [check_forbidden]
  | cons forbidden rest ih =>
    unfold check_forbidden
    simp only [List.mem_cons, exists_eq_or_imp]
    split
    · rename_i hforbidden
      rw [Bool.or_eq_true, Bool.and_eq_true] at hforbidden
      rw [ih, keys_insert]
      tauto
    · rename_i hfine
      rw [Bool.or_eq_true, Bool.and_eq_true] at hfine
      simp only [ih, hfine, false_or]

theorem mem_check_expanded {e : Str} {glob : Bool} {forbidden_paths paths : List Str}
    {errors : BTreeSet Str} :
    e ∈ (check_expanded forbidden_paths glob paths errors).keys ↔ e ∈ errors.keys ∨
      ∃ expanded ∈ paths, e = forbidden_api expanded ∧ Forbidden forbidden_paths glob expanded := by
  induction paths generalizing errors with
  | nil => simp [check_expanded]
  | cons expanded rest ih =>
    unfold check_expanded
    rw [ih, mem_check_forbidden]
    simp only [List.mem_cons, exists_eq_or_imp]
    tauto

/-- The expansion ends for all aliases, and gives only spellings of the path, the path itself among
them. When there are no more than 1024 spellings it gives them all, so the check of the path
reports each one that is forbidden. -/
theorem the_expansion_hides_no_spelling (aliases : Aliases) (path : Str) :
    (∃ count, turn aliases (turns aliases count ⟨BTreeMap.empty, [path]⟩) = none ∧
      expands path aliases = (turns aliases count ⟨BTreeMap.empty, [path]⟩).seen) ∧
    (path ∈ (expands path aliases).keys ∧
      ∀ q ∈ (expands path aliases).keys, Reach (Respells aliases) path q) ∧
    ({q | Reach (Respells aliases) path q}.encard ≤ 1024 →
      {q | q ∈ (expands path aliases).keys} = {q | Reach (Respells aliases) path q} ∧
      ∀ (c : Checker) (glob : Bool), c.aliases = aliases → c.development = false → ∀ e : Str,
        e ∈ (c.check_path path glob).errors.keys ↔ e ∈ c.errors.keys ∨
          ∃ q, Reach (Respells aliases) path q ∧ e = forbidden_api q ∧
            Forbidden c.rule.forbidden_paths glob q) := by
  have hsound := expands_sound aliases path
  refine ⟨loop_ends aliases _,
    ⟨by simpa using hsound.started, fun q hq => hsound.reach q (.inr hq)⟩,
    fun hmost => ⟨Set.ext fun q => mem_expands hmost, fun c glob haliases hdevelopment e => ?_⟩⟩
  simp [Checker.check_path, hdevelopment, mem_check_expanded, haliases, mem_expands hmost]

/-- A file that imports `std::io`. -/
def imports_io : Aliases :=
  BTreeMap.empty.insert "io".toList (BTreeMap.empty.insert "std::io".toList ())

theorem spellings_of_a_read {q : Str} (h : Reach (Respells imports_io) "io::Read".toList q) :
    q ∈ ["io::Read".toList, "std::io::Read".toList] := by
  obtain ⟨start, rfl, hreach⟩ := h
  induction hreach with
  | refl => exact List.mem_cons_self
  | tail _ hstep ih =>
    obtain ⟨targets, hget, target, htarget, -, rfl, -⟩ := hstep
    simp only [List.mem_cons, List.not_mem_nil, or_false] at ih
    obtain rfl | rfl := ih
    · have hfound : imports_io.get (head_and_tail "io::Read".toList).1 =
          some (BTreeMap.empty.insert "std::io".toList ()) := rfl
      rw [hfound] at hget
      cases hget
      have hkeys : (BTreeMap.empty.insert "std::io".toList () : BTreeSet Str).keys =
          ["std::io".toList] := by decide +kernel
      rw [hkeys, List.mem_singleton] at htarget
      rw [htarget]
      decide +kernel
    · have hfound : imports_io.get (head_and_tail "std::io::Read".toList).1 = none := by
        decide +kernel
      rw [hfound] at hget
      cases hget

theorem the_spellings_of_a_read_are_found :
    {q | q ∈ (expands "io::Read".toList imports_io).keys} =
      {q | Reach (Respells imports_io) "io::Read".toList q} := by
  obtain ⟨-, -, hall⟩ := the_expansion_hides_no_spelling imports_io "io::Read".toList
  refine (hall ?_).1
  have hsub : {q | Reach (Respells imports_io) "io::Read".toList q} ⊆
      {"io::Read".toList, "std::io::Read".toList} := fun q hq => by
    simpa using spellings_of_a_read hq
  calc {q | Reach (Respells imports_io) "io::Read".toList q}.encard
      ≤ ({"io::Read".toList, "std::io::Read".toList} : Set Str).encard := Set.encard_le_encard hsub
    _ ≤ ({"std::io::Read".toList} : Set Str).encard + 1 := Set.encard_insert_le _ _
    _ ≤ 1024 := by
      rw [Set.encard_singleton]
      norm_num

end xtask.source
