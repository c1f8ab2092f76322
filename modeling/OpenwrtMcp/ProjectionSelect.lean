-- The two selections of a collection. The run that selects one row makes the charges of the run
-- that returns all rows, less those of the other rows, and has the same outcome for each row.
import OpenwrtMcp.ProjectionPlans

open json programs programs.Prog text

namespace openwrt_mcp_core.projection

open RecordCheck RecordShape RecordSpec

/-! ## All rows, and one of them -/

section
variable {R : Type} [RecordShape R]

/-- The loop over rows that are each checked first. -/
def checked_rows (record : R) (selector : Option Str) :
    List (Except CoreError IdentifiedRow) → Rows → Charge Rows
  | [], acc => Pure.pure acc
  | check :: rest, acc => do
    let row ← lift check
    let acc ← identified_row .normalized record selector true row.identity row.key row.value acc
    checked_rows record selector rest acc

/-- The checks of the items of an object array. -/
def array_checks (source : Str) (max : Nat) :
    List Value → List Str → List (Except CoreError IdentifiedRow)
  | [], _ => []
  | value :: rest, seen =>
    match lookup value source with
    | .error e => [.error e]
    | .ok found =>
      match found.bind as_str with
      | none => [.error .InvalidOutput]
      | some identity =>
        if !valid_identity identity max || identity ∈ seen then [.error .InvalidOutput]
        else .ok ⟨identity, none, value⟩ :: array_checks source max rest (identity :: seen)

/-- The checks of the entries of a map. -/
def entry_checks (key : TextIdentity) (entries : Map) : List (Except CoreError IdentifiedRow) :=
  entries.map fun entry =>
    if !valid_identity entry.1 key.max_bytes then .error .InvalidOutput
    else .ok ⟨entry.1, some (key, entry.1), entry.2⟩

theorem object_array_checked (record : R) (selector : Option Str) (source : Str) (max : Nat)
    (items : List Value) (seen : List Str) (acc : Rows) :
    object_array .normalized record selector true source max items seen acc =
      checked_rows record selector (array_checks source max items seen) acc := by
  induction items generalizing seen acc with
  | nil => simp [object_array, array_checks, checked_rows]
  | cons value rest ih =>
    unfold object_array array_checks
    cases lookup value source with
    | error e => rfl
    | ok found =>
      simp only [lift_ok_bind]
      cases found.bind as_str with
      | none => rfl
      | some identity =>
        simp only [ok_or_some_bind]
        split
        · rfl
        · simp only [checked_rows, lift_ok_bind, ih]

theorem object_entries_checked (record : R) (selector : Option Str) (key : TextIdentity)
    (entries : Map) (acc : Rows) :
    object_entries .normalized record selector true key entries acc =
      checked_rows record selector (entry_checks key entries) acc := by
  induction entries generalizing acc with
  | nil => simp [object_entries, entry_checks, checked_rows]
  | cons entry rest ih =>
    unfold object_entries
    rw [entry_checks, List.map_cons, checked_rows]
    split
    · rfl
    · simp only [lift_ok_bind, ih]
      rfl

theorem array_checks_error {source : Str} {max : Nat} {items : List Value} {seen : List Str}
    {e : CoreError} (h : .error e ∈ array_checks source max items seen) :
    e ≠ .SelectionNotObserved := by
  induction items generalizing seen with
  | nil => simp [array_checks] at h
  | cons value rest ih =>
    unfold array_checks at h
    split at h
    · rename_i e' hlookup
      have heq : e = e' := by simpa using h
      rw [heq]
      exact lookup_segments_error hlookup
    · split at h
      · simp_all
      · split at h
        · simp_all
        · exact ih (by simpa using h)

theorem entry_checks_error {key : TextIdentity} {entries : Map} {e : CoreError}
    (h : .error e ∈ entry_checks key entries) : e ≠ .SelectionNotObserved := by
  obtain ⟨entry, -, heq⟩ := List.mem_map.1 h
  split at heq
  · cases heq
    decide
  · cases heq

/-- The rows with their results, all of them in the array. -/
def all_rows (acc : Rows) (results : List (IdentifiedRow × Value)) : Rows :=
  results.foldl (fun acc p => { acc with observed := true, rows := acc.rows ++ [p.2] }) acc

/-- The rows with their results, when one identity is selected. -/
def select_rows (t : Str) (acc : Rows) (results : List (IdentifiedRow × Value)) : Rows :=
  results.foldl (fun acc p =>
    if t = p.1.identity then { acc with observed := true, selected := some p.2 } else acc) acc

/-- One row, when all are returned. -/
theorem identified_row_all {record : R} {row : IdentifiedRow} {ops : List Op}
    {r : Except CoreError Value}
    (h : project_record .normalized record row.value row.key true =
      (run_ops ops >>= fun _ => lift (r.map some))) (acc : Rows) :
    identified_row .normalized record none true row.identity row.key row.value acc =
      (run_ops (.emit :: .bytes (!acc.rows.isEmpty).toNat :: ops) >>= fun _ =>
        lift (r.map fun v => all_rows acc [(row, v)])) := by
  unfold identified_row
  simp only [Option.all_none, Bool.and_self, Option.isNone_none, h, Prog.when, if_true, run_ops,
    bind_assoc, Op.run]
  cases r with
  | error e => rfl
  | ok v =>
    simp [Except.map, all_rows]
    rfl

/-- One row that is selected. -/
theorem identified_row_selected {record : R} {row : IdentifiedRow} {ops : List Op}
    {r : Except CoreError Value}
    (h : project_record .normalized record row.value row.key true =
      (run_ops ops >>= fun _ => lift (r.map some))) (acc : Rows) :
    identified_row .normalized record (some row.identity) true row.identity row.key row.value acc =
      (run_ops (.emit :: ops) >>= fun _ =>
        lift (r.map fun v => select_rows row.identity acc [(row, v)])) := by
  unfold identified_row
  simp only [Option.all_some, decide_true, Bool.and_self, Option.isNone_some, h, Prog.when, if_true,
    Bool.false_eq_true, if_false, run_ops, bind_assoc, pure_bind, Op.run]
  cases r with
  | error e => rfl
  | ok v =>
    simp [Except.map, select_rows]
    rfl

/-- One row that is not. -/
theorem identified_row_skipped {record : R} {row : IdentifiedRow} {ops : List Op} {t : Str}
    {r : Except CoreError Value} (ht : t ≠ row.identity)
    (h : project_record .normalized record row.value row.key false =
      (run_ops ops >>= fun _ => lift (r.map fun _ => none))) (acc : Rows) :
    identified_row .normalized record (some t) true row.identity row.key row.value acc =
      (run_ops ops >>= fun _ => lift (r.map fun v => select_rows t acc [(row, v)])) := by
  unfold identified_row
  simp only [Option.all_some, ht, decide_false, Bool.and_false, h, Prog.when, Bool.false_eq_true,
    if_false, bind_assoc, pure_bind]
  cases r with
  | error e => rfl
  | ok v =>
    simp [Except.map, select_rows, ht]
    rfl

variable [PlannedRecord R]

/-- The plan of a record: its charges, and its value or its error. -/
theorem record_plan (record : R) (source : Value) (key : Option (TextIdentity × Str)) :
    ∃ (ops : List Op) (r : Except CoreError Value),
      project_record .normalized record source key true =
        (run_ops ops >>= fun _ => lift (r.map some)) ∧
      project_record .normalized record source key false =
        (run_ops (ops.filter Op.is_scan) >>= fun _ => lift (r.map fun _ => none)) ∧
      ∀ e, r = .error e → e ≠ .SelectionNotObserved := by
  obtain ⟨ops, r, hx, hy, hok, herr⟩ := PlannedRecord.project_record_planned record source key
  cases r with
  | error e => exact ⟨ops, .error e, hx, hy, by simpa using herr⟩
  | ok p =>
    obtain ⟨hsome, hnone⟩ := hok p rfl
    obtain ⟨v, hv⟩ := Option.isSome_iff_exists.1 hsome
    refine ⟨ops, .ok v, ?_, ?_, by simp⟩
    · rw [hx, Except.map, hv]
      rfl
    · rw [hy, Except.map, hnone]
      rfl

/-- The run over all rows and the run that selects one have the same outcome for each row, and
the second makes some of the charges of the first. -/
theorem checked_rows_plan (record : R) (t : Str) (checks : List (Except CoreError IdentifiedRow))
    (hchecks : ∀ e, .error e ∈ checks → e ≠ .SelectionNotObserved) (acc acc' : Rows) :
    ∃ (ops ops' : List Op) (r : Except CoreError (List (IdentifiedRow × Value))), Trimmed ops ops' ∧
      (∀ e, r = .error e → e ≠ .SelectionNotObserved) ∧
      (∀ results, r = .ok results → checks = results.map fun p => .ok p.1) ∧
      checked_rows record none checks acc = (run_ops ops >>= fun _ => lift (r.map (all_rows acc))) ∧
      checked_rows record (some t) checks acc' =
        (run_ops ops' >>= fun _ => lift (r.map (select_rows t acc'))) := by
  induction checks generalizing acc acc' with
  | nil => exact ⟨[], [], .ok [], .nil, by simp, by simp, rfl, rfl⟩
  | cons check rest ih =>
    cases check with
    | error e =>
      refine ⟨[], [], .error e, .nil, ?_, by simp, rfl, rfl⟩
      intro e' he'
      cases he'
      exact hchecks e (by simp)
    | ok row =>
      obtain ⟨ops₁, r₁, hemit, hquiet, herr⟩ := record_plan record row.value row.key
      have hall := identified_row_all hemit acc
      -- the charges of the row under the selector are some of those it has otherwise
      have hselect : ∃ ops₁', Trimmed (.emit :: .bytes (!acc.rows.isEmpty).toNat :: ops₁) ops₁' ∧
          identified_row .normalized record (some t) true row.identity row.key row.value acc' =
            (run_ops ops₁' >>= fun _ => lift (r₁.map fun v => select_rows t acc' [(row, v)])) := by
        by_cases ht : t = row.identity
        · subst ht
          exact ⟨_, .keep (.drop rfl (Trimmed.refl ops₁)), identified_row_selected hemit acc'⟩
        · refine ⟨_, .drop rfl (.drop rfl (Trimmed.scans ops₁)), ?_⟩
          exact identified_row_skipped ht hquiet acc'
      obtain ⟨ops₁', htrim, hselect⟩ := hselect
      simp only [checked_rows, lift_ok_bind, hall, hselect]
      cases r₁ with
      | error e =>
        refine ⟨_, ops₁', .error e, htrim, by simpa using herr, by simp, ?_, ?_⟩
        · rw [bind_assoc]
          rfl
        · rw [bind_assoc]
          rfl
      | ok v =>
        obtain ⟨ops₂, ops₂', r₂, htrim₂, herr₂, hok₂, hrest, hrest'⟩ :=
          ih (fun e he => hchecks e (List.mem_cons_of_mem _ he)) (all_rows acc [(row, v)])
            (select_rows t acc' [(row, v)])
        refine ⟨_, _, r₂.map ((row, v) :: ·), htrim.append htrim₂, ?_, ?_, ?_, ?_⟩
        · intro e he
          cases r₂ with
          | error e' => exact herr₂ e (by simpa [Except.map] using he)
          | ok results => cases he
        · intro results hresults
          cases r₂ with
          | error e' => cases hresults
          | ok results₂ =>
            cases hresults
            rw [List.map_cons, ← hok₂ results₂ rfl]
        · rw [run_ops_append, bind_assoc, bind_assoc]
          simp only [Except.map, lift_ok_bind, hrest]
          cases r₂ <;> rfl
        · rw [run_ops_append, bind_assoc, bind_assoc]
          simp only [Except.map, lift_ok_bind, hrest']
          cases r₂ <;> rfl

end

/-! ## The rows of a collection -/

/-- The rows that a value has for a collection, with their identities accepted. -/
def Collection.RowsOf {R : Type} [RecordShape R] (c : Collection R) (source : Value)
    (rows : List IdentifiedRow) : Prop :=
  match c with
  | .ObjectArray _ _ identity record => ∃ items field max ids, source = .Array items ∧
    (fields record).find? (·.name = identity) = some field ∧ c.identity_limit = some max ∧
    Identified field.source max items [] ids ∧ rows = array_rows items ids
  | .ObjectEntries _ _ key _ => ∃ entries : Map, source = .Object entries ∧
    (∀ entry ∈ entries, valid_identity entry.1 key.max_bytes) ∧ rows = entry_rows key entries
  | .TextOption .. | .RowArray .. | .ScalarArray .. => False

/-- The identity of a row, as it stands in the result. -/
def Collection.HasIdentity {R : Type} (c : Collection R) (row : Value) (t : Str) : Prop :=
  match c with
  | .ObjectArray _ _ identity _ => HasText identity row t
  | .ObjectEntries _ _ key _ => HasText key.name row t
  | .TextOption .. | .RowArray .. | .ScalarArray .. => False

theorem array_checks_ok {source : Str} {max : Nat} {items : List Value} {seen : List Str}
    {rows : List IdentifiedRow} (h : array_checks source max items seen = rows.map .ok) :
    ∃ ids, Identified source max items seen ids ∧ rows = array_rows items ids := by
  induction items generalizing seen rows with
  | nil =>
    cases rows with
    | nil => exact ⟨[], .nil, rfl⟩
    | cons row rest => cases h
  | cons value rest ih =>
    unfold array_checks at h
    split at h
    · cases rows <;> cases h
    · rename_i found hlookup
      split at h
      · cases rows <;> cases h
      · rename_i identity hidentity
        split at h
        · cases rows <;> cases h
        · rename_i hnew
          cases rows with
          | nil => cases h
          | cons row rows =>
            rw [List.map_cons, List.cons.injEq] at h
            obtain ⟨hrow, h⟩ := h
            cases hrow
            obtain ⟨ids, hids, rfl⟩ := ih h
            obtain ⟨x, rfl, hx⟩ := Option.bind_eq_some_iff.1 hidentity
            simp only [Bool.or_eq_true, Bool.not_eq_true', decide_eq_true_eq, not_or,
              Bool.not_eq_false] at hnew
            exact ⟨identity :: ids, .cons hlookup hx hnew.1 hnew.2 hids, rfl⟩

theorem entry_checks_ok {key : TextIdentity} {entries : Map} {rows : List IdentifiedRow}
    (h : entry_checks key entries = rows.map .ok) :
    (∀ entry ∈ entries, valid_identity entry.1 key.max_bytes) ∧ rows = entry_rows key entries := by
  induction entries generalizing rows with
  | nil =>
    cases rows with
    | nil => exact ⟨by simp, rfl⟩
    | cons row rest => cases h
  | cons entry rest ih =>
    cases rows with
    | nil => cases h
    | cons row rows =>
      rw [entry_checks, List.map_cons, List.map_cons, List.cons.injEq] at h
      obtain ⟨hrow, h⟩ := h
      obtain ⟨hvalid, rfl⟩ := ih h
      split at hrow
      · cases hrow
      · rename_i hfirst
        cases hrow
        exact ⟨List.forall_mem_cons.2 ⟨by simpa using hfirst, hvalid⟩, rfl⟩

def no_rows : Rows := ⟨[], none, false⟩

/-- The rows of a collection as two plans: all of them, and the selected one. -/
theorem Collection.project_rows_plan {R : Type} [RecordShape R] [PlannedRecord R]
    {c : Collection R} (hc : c.identity_limit.isSome) (source : Value) (t : Str) :
    ∃ (ops ops' : List Op) (r : Except CoreError (List (IdentifiedRow × Value))), Trimmed ops ops' ∧
      (∀ e, r = .error e → e ≠ .SelectionNotObserved) ∧
      (∀ results, r = .ok results → c.RowsOf source (results.map Prod.fst)) ∧
      c.project_rows .normalized source none true =
        (run_ops ops >>= fun _ => lift (r.map (all_rows no_rows))) ∧
      c.project_rows .normalized source (some t) true =
        (run_ops ops' >>= fun _ => lift (r.map (select_rows t no_rows))) := by
  cases c with
  | TextOption pointer max_items max_bytes => cases hc
  | RowArray pointer max_items record => cases hc
  | ScalarArray pointer max_items name kind unique => cases hc
  | ObjectArray pointer max_items identity record =>
    obtain ⟨max, hmax⟩ := Option.isSome_iff_exists.1 hc
    cases hitems : as_array source with
    | none =>
      refine ⟨[], [], .error .InvalidOutput, .nil, by simp, by simp, ?_, ?_⟩
      · simp only [Collection.project_rows, hitems]
        rfl
      · simp only [Collection.project_rows, hitems]
        rfl
    | some items =>
      cases hfield : (fields record).find? (·.name = identity) with
      | none =>
        refine ⟨[.scan items.length max_items], [.scan items.length max_items],
          .error .InvalidDefinition, Trimmed.refl _, by simp, by simp, ?_, ?_⟩
        · simp only [Collection.project_rows, hitems, hfield, ok_or_some_bind, run_ops_one]
          rfl
        · simp only [Collection.project_rows, hitems, hfield, ok_or_some_bind, run_ops_one]
          rfl
      | some field =>
        obtain ⟨ops, ops', r, htrim, herr, hok, hall, hselect⟩ := checked_rows_plan record t
          (array_checks field.source max items []) (fun e he => array_checks_error he) no_rows
            no_rows
        refine ⟨.scan items.length max_items :: ops, .scan items.length max_items :: ops', r,
          .keep htrim, herr, fun results hresults => ?_, ?_, ?_⟩
        · have hchecks := hok results hresults
          obtain ⟨ids, hids, hrows⟩ := array_checks_ok (hchecks.trans (List.map_map ..).symm)
          exact ⟨items, field, max, ids, as_array_eq_some.1 hitems, hfield, hmax, hids, hrows⟩
        · simp only [Collection.project_rows, hitems, hfield, hmax, ok_or_some_bind,
            object_array_checked, run_ops, Prog.bind_assoc, ← hall]
          rfl
        · simp only [Collection.project_rows, hitems, hfield, hmax, ok_or_some_bind,
            object_array_checked, run_ops, Prog.bind_assoc, ← hselect]
          rfl
  | ObjectEntries pointer max_items key record =>
    cases hentries : as_object source with
    | none =>
      refine ⟨[], [], .error .InvalidOutput, .nil, by simp, by simp, ?_, ?_⟩
      · simp only [Collection.project_rows, hentries]
        rfl
      · simp only [Collection.project_rows, hentries]
        rfl
    | some entries =>
      obtain ⟨ops, ops', r, htrim, herr, hok, hall, hselect⟩ := checked_rows_plan record t
        (entry_checks key entries) (fun e he => entry_checks_error he) no_rows no_rows
      refine ⟨.scan (List.length entries) max_items :: ops,
        .scan (List.length entries) max_items :: ops',
        r, .keep htrim, herr, fun results hresults => ?_, ?_, ?_⟩
      · have hchecks := hok results hresults
        obtain ⟨hvalid, hrows⟩ := entry_checks_ok (hchecks.trans (List.map_map ..).symm)
        exact ⟨entries, as_object_eq_some.1 hentries, hvalid, hrows⟩
      · simp only [Collection.project_rows, hentries, ok_or_some_bind, object_entries_checked,
          run_ops,
          Prog.bind_assoc, ← hall]
        rfl
      · simp only [Collection.project_rows, hentries, ok_or_some_bind, object_entries_checked,
          run_ops,
          Prog.bind_assoc, ← hselect]
        rfl

/-! ## The two selections -/

theorem select_rows_none {t : Str} {results : List (IdentifiedRow × Value)} (acc : Rows)
    (h : ∀ p ∈ results, t ≠ p.1.identity) : select_rows t acc results = acc := by
  induction results with
  | nil => rfl
  | cons p rest ih =>
    rw [List.forall_mem_cons] at h
    rw [select_rows, List.foldl_cons, if_neg h.1]
    exact ih h.2

theorem select_rows_one {p : IdentifiedRow × Value} {results : List (IdentifiedRow × Value)}
    (acc : Rows) (hp : p ∈ results) (hnodup : (results.map fun p => p.1.identity).Nodup) :
    select_rows p.1.identity acc results = { acc with observed := true, selected := some p.2 } := by
  induction results generalizing acc with
  | nil => cases hp
  | cons q rest ih =>
    rw [List.map_cons, List.nodup_cons] at hnodup
    rw [select_rows, List.foldl_cons]
    rcases List.mem_cons.1 hp with rfl | hp
    · rw [if_pos rfl]
      refine select_rows_none _ fun q hq heq => ?_
      exact hnodup.1 (heq ▸ List.mem_map_of_mem hq)
    · have hne : p.1.identity ≠ q.1.identity := by
        intro heq
        exact hnodup.1 (heq ▸ List.mem_map_of_mem hp)
      rw [if_neg hne]
      exact ih acc hp hnodup.2

theorem select_rows_mem {t : Str} {results : List (IdentifiedRow × Value)} {acc : Rows} {v : Value}
    (h : (select_rows t acc results).selected = some v) :
    acc.selected = some v ∨ v ∈ results.map Prod.snd := by
  induction results generalizing acc with
  | nil => exact .inl h
  | cons p rest ih =>
    rw [select_rows, List.foldl_cons] at h
    rcases ih h with h | h
    · split at h
      · exact .inr (by simpa using .inl (Option.some.inj h).symm)
      · exact .inl h
    · exact .inr (List.mem_cons_of_mem _ h)

theorem all_rows_rows (acc : Rows) (results : List (IdentifiedRow × Value)) :
    (all_rows acc results).rows = acc.rows ++ results.map Prod.snd := by
  induction results generalizing acc with
  | nil => simp [all_rows]
  | cons p rest ih =>
    rw [all_rows, List.foldl_cons]
    exact (ih _).trans (by simp)

/-- The result over all rows. -/
def items_of (results : List (IdentifiedRow × Value)) : Value :=
  .Object [("items".toList, .Array (results.map Prod.snd))]

/-- The result for one identity. -/
def selected_of (t : Str) (results : List (IdentifiedRow × Value)) : Except CoreError Value :=
  let acc := select_rows t no_rows results
  if !acc.observed then .error .SelectionNotObserved
  else match acc.selected with
    | none => .error .InvalidOutput
    | some v => .ok v

theorem check_guards_error {source : Value} {guards : List Str} {e : CoreError}
    (h : check_guards source guards = .error e) : e ≠ .SelectionNotObserved := by
  induction guards with
  | nil => cases h
  | cons pointer rest ih =>
    unfold check_guards at h
    cases hlookup : lookup source pointer with
    | error e' =>
      rw [hlookup] at h
      cases h
      exact lookup_segments_error hlookup
    | ok found =>
      rw [hlookup] at h
      cases found with
      | none => exact ih h
      | some x =>
        cases h
        decide

theorem Collection.project_at_all {R : Type} [RecordShape R] {c : Collection R}
    (hc : c.identity_limit.isSome) (source : Value) :
    c.project_at .normalized source none true = (do
      budget.bytes .normalized 2
      let acc ← c.project_rows .normalized source none true
      Pure.pure (some (.Array acc.rows))) := by
  cases c with
  | TextOption pointer max_items max_bytes => cases hc
  | _ => rfl

theorem Collection.project_at_one {R : Type} [RecordShape R] {c : Collection R}
    (hc : c.identity_limit.isSome) (source : Value) (t : Str) :
    c.project_at .normalized source (some t) true = (do
      let acc ← c.project_rows .normalized source (some t) true
      if !acc.observed then Prog.stop .SelectionNotObserved else Pure.pure acc.selected) := by
  cases c with
  | TextOption pointer max_items max_bytes => cases hc
  | _ => rfl

section
variable {c : Collection InnerRecord} {guards : List Str} {parameter : Str} {source x : Value}

theorem evaluate_all (hc : c.identity_limit.isSome) (hguards : check_guards source guards = .ok ())
    (hlookup : lookup source c.source = .ok (some x)) :
    evaluate .normalized (.Collection guards c .All) none source = (do
      budget.bytes .normalized 2
      budget.bytes .normalized (text_cost "items".toList)
      budget.bytes .normalized 1
      budget.bytes .normalized 2
      let acc ← c.project_rows .normalized x none true
      Pure.pure (.Object [("items".toList, .Array acc.rows)])) := by
  have hkey : budget.key .normalized "items".toList false = (do
      budget.bytes .normalized (text_cost "items".toList)
      budget.bytes .normalized 1) := by
    rw [budget.key, budget.text_eq]
    rfl
  simp only [evaluate, project_definition, TypedProjection.reject_if_present, hguards, hlookup,
    lift_ok_bind, ok_or_some_bind, is_exact_one, Option.isSome_none, ne_eq, not_true, if_false,
    Prog.when, Option.isNone_none, if_true, hkey, Prog.bind_assoc, Collection.project_at_all hc,
    Bool.false_eq_true]
  rfl

theorem evaluate_one (hc : c.identity_limit.isSome) (hguards : check_guards source guards = .ok ())
    (hlookup : lookup source c.source = .ok (some x)) (t : Str) :
    evaluate .normalized (.Collection guards c (.ExactOne parameter)) (some t) source = (do
      let acc ← c.project_rows .normalized x (some t) true
      if !acc.observed then Prog.stop .SelectionNotObserved
      else Prog.ok_or acc.selected .InvalidOutput) := by
  simp only [evaluate, project_definition, TypedProjection.reject_if_present, hguards, hlookup,
    lift_ok_bind, ok_or_some_bind, is_exact_one, Option.isSome_some, ne_eq, not_true, if_false,
    Prog.when, Option.isNone_some, if_true, Prog.bind_assoc, Collection.project_at_one hc,
    Bool.false_eq_true, pure_bind]
  congr 1
  funext acc
  split <;> rfl

/-- The two selections as plans. -/
theorem selection_plan (hc : c.identity_limit.isSome) (guards : List Str) (parameter : Str)
    (source : Value) (t : Str) :
    ∃ (ops ops' : List Op) (r : Except CoreError (List (IdentifiedRow × Value))), Trimmed ops ops' ∧
      (∀ e, r = .error e → e ≠ .SelectionNotObserved) ∧
      (∀ results, r = .ok results → ∃ x, lookup source c.source = .ok (some x) ∧
        c.RowsOf x (results.map Prod.fst)) ∧
      evaluate .normalized (.Collection guards c .All) none source =
        (run_ops ops >>= fun _ => lift (r.map items_of)) ∧
      evaluate .normalized (.Collection guards c (.ExactOne parameter)) (some t) source =
        (run_ops ops' >>= fun _ => lift (r >>= selected_of t)) := by
  cases hguards : check_guards source guards with
  | error e =>
    refine ⟨[], [], .error e, .nil, ?_, by simp, ?_, ?_⟩
    · intro e' he'
      cases he'
      exact check_guards_error hguards
    · simp only [evaluate, TypedProjection.reject_if_present, hguards]
      rfl
    · simp only [evaluate, TypedProjection.reject_if_present, hguards]
      rfl
  | ok _ =>
    cases hlookup : lookup source c.source with
    | error e =>
      refine ⟨[], [], .error e, .nil, ?_, by simp, ?_, ?_⟩
      · intro e' he'
        cases he'
        exact lookup_segments_error hlookup
      · simp [evaluate, project_definition, TypedProjection.reject_if_present, hguards, hlookup,
          is_exact_one, stop_bind]
        rfl
      · simp [evaluate, project_definition, TypedProjection.reject_if_present, hguards, hlookup,
          is_exact_one, stop_bind]
        rfl
    | ok found =>
      cases found with
      | none =>
        refine ⟨[], [], .error .InvalidOutput, .nil, by simp, by simp, ?_, ?_⟩
        · simp [evaluate, project_definition, TypedProjection.reject_if_present, hguards, hlookup,
            is_exact_one, stop_bind]
          rfl
        · simp [evaluate, project_definition, TypedProjection.reject_if_present, hguards, hlookup,
            is_exact_one, stop_bind]
          rfl
      | some x =>
        obtain ⟨ops, ops', r, htrim, herr, hok, hall, hone⟩ := c.project_rows_plan hc x t
        refine ⟨.bytes 2 :: .bytes (text_cost "items".toList) :: .bytes 1 :: .bytes 2 :: ops,
          ops', r,
          .drop rfl (.drop rfl (.drop rfl (.drop rfl htrim))), herr,
          fun results hresults => ⟨x, rfl, hok results hresults⟩, ?_, ?_⟩
        · simp only [evaluate_all hc hguards hlookup, hall, run_ops, Op.run, Prog.bind_assoc]
          cases r with
          | error e => rfl
          | ok results =>
            simp only [Except.map, lift_ok_bind, all_rows_rows]
            rfl
        · simp only [evaluate_one hc hguards hlookup, hone, Prog.bind_assoc]
          cases r with
          | error e => rfl
          | ok results =>
            simp only [Except.map, lift_ok_bind]
            congr 1
            funext _
            show _ = lift (selected_of t results)
            unfold selected_of
            simp only
            split
            · rfl
            · cases (select_rows t no_rows results).selected <;> rfl

end

theorem HasText.unique {name : Str} {row : Value} {t t' : Str} (h : HasText name row t)
    (h' : HasText name row t') : t = t' := by
  obtain ⟨result, rfl, hget⟩ := h
  obtain ⟨result', hrow, hget'⟩ := h'
  cases hrow
  rw [hget] at hget'
  simpa using hget'

theorem Collection.HasIdentity.unique {R : Type} {c : Collection R} {row : Value} {t t' : Str}
    (h : c.HasIdentity row t) (h' : c.HasIdentity row t') : t = t' := by
  cases c with
  | ObjectArray pointer max_items identity record => exact HasText.unique h h'
  | ObjectEntries pointer max_items key record => exact HasText.unique h h'
  | _ => cases h

section
variable {R : Type} [RecordSpec R] [LawfulCheck R] [LawfulRecord R]

/-- The rows that are returned carry the identities that were found. -/
theorem Collection.rows_identities {c : Collection R} {source : Value} {rows : List IdentifiedRow}
    {limit : ByteLimit} {b b' : Budget} {acc : Rows} (haccepted : c.Accepted)
    (hsource : Sorted source) (hrows : c.RowsOf source rows)
    (h : c.project_rows limit source none true b = (.ok acc, b')) :
    List.Forall₂ c.HasIdentity acc.rows (rows.map IdentifiedRow.identity) ∧
      (rows.map IdentifiedRow.identity).Nodup := by
  have hparts := Collection.accepted_spec haccepted
  cases c with
  | TextOption pointer max_items max_bytes => cases hrows
  | RowArray pointer max_items record => cases hrows
  | ScalarArray pointer max_items name kind unique => cases hrows
  | ObjectArray pointer max_items identity record =>
    obtain ⟨items, field, max, ids, rfl, hfield, hmax, hids, rfl⟩ := hrows
    simp only [Collection.project_rows, hfield, hmax, ok_or_some_bind, json.as_array] at h
    obtain ⟨_, m, -, h⟩ := bind_ok.1 h
    rw [object_array_eq hids] at h
    have hrecord : ∀ row ∈ array_rows items ids,
        projection.Accepted record (row.key.map Prod.fst) := by
      intro row hrow
      rw [(hids.row hrow).key]
      exact hparts.2
    obtain ⟨new, hnew, hconforms, -⟩ := identified_rows_all h hrecord
    rw [List.nil_append] at hnew
    rw [hids.identities, hnew]
    exact ⟨(array_rows_conform hmax hfield hparts.2 hids hconforms).2.1, hids.fresh.1⟩
  | ObjectEntries pointer max_items key record =>
    obtain ⟨entries, rfl, hvalid, rfl⟩ := hrows
    simp only [Collection.project_rows, ok_or_some_bind, json.as_object] at h
    obtain ⟨_, m, -, h⟩ := bind_ok.1 h
    rw [object_entries_eq hvalid] at h
    have hrecord : ∀ row ∈ entry_rows key entries,
        projection.Accepted record (row.key.map Prod.fst) := by
      intro row hrow
      obtain ⟨entry, -, rfl⟩ := List.mem_map.1 hrow
      exact hparts
    obtain ⟨new, hnew, hconforms, -⟩ := identified_rows_all h hrecord
    rw [List.nil_append] at hnew
    have hkeys : (entry_rows key entries).map IdentifiedRow.identity = Map.keys entries := by
      simp [entry_rows, Map.keys, Function.comp_def]
    rw [hkeys, hnew]
    refine ⟨?_, hsource.keys_nodup⟩
    rw [Map.keys, List.forall₂_map_right_iff]
    exact ((entry_rows_conform hconforms).imp fun _ _ h => h.2).flip

end

/-- What `project` gives for all rows. -/
def items_object (rows : List Value) : Value := .Object [("items".toList, .Array rows)]

theorem selected_of_mem {t : Str} {results : List (IdentifiedRow × Value)} {v : Value}
    (h : selected_of t results = .ok v) : v ∈ results.map Prod.snd := by
  unfold selected_of at h
  simp only at h
  split at h
  · cases h
  · split at h
    · cases h
    · rename_i w hw
      cases h
      rcases select_rows_mem hw with hw | hw
      · cases hw
      · exact hw

/-- The identities of the rows that are returned. -/
theorem all_rows_identities {c : Collection InnerRecord} {guards : List Str} {source : Value}
    {results : List (IdentifiedRow × Value)} {b b' : Budget} (haccepted : c.Accepted)
    (hc : c.identity_limit.isSome) (hsource : Sorted source)
    (hrows : ∃ x, lookup source c.source = .ok (some x) ∧ c.RowsOf x (results.map Prod.fst))
    (h : evaluate .normalized (.Collection guards c .All) none source b =
      (.ok (items_of results), b')) :
    (∀ p ∈ results, c.HasIdentity p.2 p.1.identity) ∧
      (results.map fun p => p.1.identity).Nodup := by
  obtain ⟨x, hlookup, hrows⟩ := hrows
  have hguards : check_guards source guards = .ok () := by
    obtain ⟨_, hguards, -⟩ := lift_bind_ok.1 h
    exact hguards
  rw [evaluate_all hc hguards hlookup] at h
  obtain ⟨_, m₁, -, h⟩ := bind_ok.1 h
  obtain ⟨_, m₂, -, h⟩ := bind_ok.1 h
  obtain ⟨_, m₃, -, h⟩ := bind_ok.1 h
  obtain ⟨_, m₄, -, h⟩ := bind_ok.1 h
  obtain ⟨acc, m₅, hproject, h⟩ := bind_ok.1 h
  have hsame : acc.rows = results.map Prod.snd := by
    simpa [items_of] using (pure_ok.1 h).1
  obtain ⟨hids, hnodup⟩ :=
    c.rows_identities haccepted (lookup_segments_sorted hsource hlookup) hrows hproject
  rw [List.map_map] at hids hnodup
  rw [hsame, List.forall₂_map_left_iff, List.forall₂_map_right_iff, List.forall₂_same] at hids
  exact ⟨hids, hnodup⟩

/-- All rows and the one with an identity: when all rows are returned, the selection returns the
one row that has the identity, or says that there is none; and when the selection does either,
all rows are returned, or they are too long. -/
theorem one_row_is_selected_from_all (c : Collection InnerRecord) (guards : List Str)
    (parameter : Str) (parameters parameters' : Parameters) (source : Document) (t : Str)
    (hall : (TypedProjection.Collection guards c .All).validate parameters = .ok ())
    (hone : (TypedProjection.Collection guards c (.ExactOne parameter)).validate parameters' =
      .ok ()) :
    (∀ v, project (.Collection guards c .All) none source.1 = .ok v → ∃ rows,
      v = items_object rows ∧
      ((∃ x ∈ rows, c.HasIdentity x t ∧ (∀ y ∈ rows, c.HasIdentity y t → y = x) ∧
          project (.Collection guards c (.ExactOne parameter)) (some t) source.1 = .ok x) ∨
        (∀ x ∈ rows, ¬ c.HasIdentity x t) ∧
          project (.Collection guards c (.ExactOne parameter)) (some t) source.1 =
            .error .SelectionNotObserved)) ∧
    (∀ x, project (.Collection guards c (.ExactOne parameter)) (some t) source.1 = .ok x →
      (∃ rows, project (.Collection guards c .All) none source.1 = .ok (items_object rows) ∧
        x ∈ rows) ∨
      project (.Collection guards c .All) none source.1 = .error .OutputLimit) ∧
    (project (.Collection guards c (.ExactOne parameter)) (some t) source.1 =
        .error .SelectionNotObserved →
      (∃ rows, project (.Collection guards c .All) none source.1 = .ok (items_object rows)) ∨
      project (.Collection guards c .All) none source.1 = .error .OutputLimit) := by
  have hc := TypedProjection.validate_exact_one hone
  have haccepted : c.Accepted := TypedProjection.validate_spec hall
  obtain ⟨ops, ops', r, htrim, herr, hrows, hplan, hplan'⟩ :=
    selection_plan hc guards parameter source.1 t
  have hrun : project (.Collection guards c .All) none source.1 =
      ((run_ops ops >>= fun _ => lift (r.map items_of)) .default).1 := by
    rw [project, project_within, hplan]
  have hrun' : project (.Collection guards c (.ExactOne parameter)) (some t) source.1 =
      ((run_ops ops' >>= fun _ => lift (r >>= selected_of t)) .default).1 := by
    rw [project, project_within, hplan']
  have hall_or : ∀ results, r = .ok results →
      project (.Collection guards c .All) none source.1 = .ok (items_of results) ∨
      project (.Collection guards c .All) none source.1 = .error .OutputLimit := by
    intro results hresults
    rcases run_plan ops (r.map items_of) .default with ⟨m, -, hend⟩ | hend
    · left
      rw [hrun, hend, hresults]
      rfl
    · exact .inr (hrun.trans hend)
  refine ⟨fun v hv => ?_, fun x hx => ?_, fun hnone => ?_⟩
  · rcases run_plan ops (r.map items_of) .default with ⟨m, hops, hend⟩ | hend
    case inr =>
      rw [hrun, hend] at hv
      cases hv
    cases hr : r with
    | error e =>
      rw [hrun, hend, hr] at hv
      cases hv
    | ok results =>
      rw [hrun, hend, hr] at hv
      cases hv
      have hevaluate : ∃ b', evaluate .normalized (.Collection guards c .All) none source.1
        .default =
          (.ok (items_of results), b') := by
        refine ⟨_, Prod.ext ?_ rfl⟩
        rw [hplan, hend, hr]
        rfl
      obtain ⟨b', hevaluate⟩ := hevaluate
      obtain ⟨hids, hnodup⟩ := all_rows_identities haccepted hc source.2 (hrows results hr)
        hevaluate
      -- the selection makes fewer charges, so it comes to its outcome too
      obtain ⟨m', hops'⟩ := htrim.run ⟨rfl, Nat.le_refl _, Nat.le_refl _⟩ hops
      have hone' : project (.Collection guards c (.ExactOne parameter)) (some t) source.1 =
          selected_of t results := by
        rw [hrun', run_plan_ok hops', hr]
        rfl
      refine ⟨results.map Prod.snd, rfl, ?_⟩
      by_cases ht : ∃ p ∈ results, p.1.identity = t
      · left
        obtain ⟨p, hp, rfl⟩ := ht
        refine ⟨p.2, List.mem_map_of_mem hp, hids p hp, fun y hy hyid => ?_, ?_⟩
        · obtain ⟨q, hq, rfl⟩ := List.mem_map.1 hy
          have hsame := Collection.HasIdentity.unique (hids q hq) hyid
          rw [List.inj_on_of_nodup_map hnodup hq hp hsame]
        · rw [hone', selected_of, select_rows_one no_rows hp hnodup]
          rfl
      · right
        refine ⟨fun x hx hid => ?_, ?_⟩
        · obtain ⟨q, hq, rfl⟩ := List.mem_map.1 hx
          exact ht ⟨q, hq, Collection.HasIdentity.unique (hids q hq) hid⟩
        · have hskip : ∀ p ∈ results, t ≠ p.1.identity := fun p hp heq => ht ⟨p, hp, heq.symm⟩
          rw [hone', selected_of, select_rows_none no_rows hskip]
          rfl
  · rcases run_plan ops' (r >>= selected_of t) .default with ⟨m, -, hend⟩ | hend
    case inr =>
      rw [hrun', hend] at hx
      cases hx
    rw [hrun', hend] at hx
    obtain ⟨results, hresults, hselected⟩ := except_bind_ok.1 hx
    rcases hall_or results hresults with hitems | hlimit
    · exact .inl ⟨_, hitems, selected_of_mem hselected⟩
    · exact .inr hlimit
  · rcases run_plan ops' (r >>= selected_of t) .default with ⟨m, -, hend⟩ | hend
    case inr =>
      rw [hrun', hend] at hnone
      cases hnone
    rw [hrun', hend] at hnone
    cases hr : r with
    | error e =>
      rw [hr] at hnone
      cases hnone
      exact absurd rfl (herr _ hr)
    | ok results =>
      rcases hall_or results hr with hitems | hlimit
      · exact .inl ⟨_, hitems⟩
      · exact .inr hlimit

theorem the_second_row_is_selected : ∃ rows, ∃ x ∈ rows,
    project (named_rows .All) none two_rows.1 = .ok (items_object rows) ∧
      HasText "name".toList x "b".toList ∧
      project (named_rows (.ExactOne "row".toList)) (some "b".toList) two_rows.1 = .ok x := by
  have hlaw := one_row_is_selected_from_all
    (.ObjectArray "/rows".toList 4 "name".toList
      ⟨[⟨"name".toList, "/name".toList, .Required, .Text 8⟩,
        ⟨"speed".toList, "/link/speed".toList, .Optional, .SafeInteger 0 1000⟩], []⟩)
    ["/error".toList] "row".toList [] [("row".toList, ⟨.String, true, []⟩)] two_rows "b".toList
    (by decide +kernel) (by decide +kernel)
  have hall : (project (named_rows .All) none two_rows.1).isOk = true := by decide +kernel
  have hone : (project (named_rows (.ExactOne "row".toList)) (some "b".toList) two_rows.1).isOk =
    true := by decide +kernel
  cases hv : project (named_rows .All) none two_rows.1 with
  | error e =>
    rw [hv] at hall
    cases hall
  | ok v =>
    obtain ⟨rows, rfl, ⟨x, hx, hname, -, hrun⟩ | ⟨-, hrun⟩⟩ := hlaw.1 v hv
    · exact ⟨rows, x, hx, rfl, hname, hrun⟩
    · rw [show project (named_rows (.ExactOne "row".toList)) (some "b".toList) two_rows.1 = _
        from hrun] at hone
      cases hone

end openwrt_mcp_core.projection
