-- Which charges a run makes does not depend on the budget, so a run is a list of charges and an
-- outcome; with nothing emitted the same run makes only its scans.
import OpenwrtMcp.ProjectionBytes

open json programs programs.Prog text

namespace openwrt_mcp_core.projection

open RecordCheck RecordShape RecordSpec

/-! ## Charges -/

inductive Op
  | scan (count max : Nat)
  | bytes (count : Nat)
  | emit

def Op.run : Op → Charge Unit
  | .scan count max => budget.scan count max
  | .bytes count => budget.bytes .normalized count
  | .emit => budget.emit

def Op.is_scan : Op → Bool
  | .scan _ _ => true
  | _ => false

def run_ops : List Op → Charge Unit
  | [] => Pure.pure ()
  | op :: rest => do
    op.run
    run_ops rest

theorem run_ops_append (ops ops' : List Op) :
    run_ops (ops ++ ops') = (run_ops ops >>= fun _ => run_ops ops') := by
  induction ops with
  | nil => rfl
  | cons op rest ih =>
    rw [List.cons_append, run_ops, run_ops, ih, bind_assoc]

theorem run_ops_one (op : Op) : run_ops [op] = op.run := bind_pure _

/-- A charge succeeds or stops with `OutputLimit`. -/
theorem Op.run_or_limit (op : Op) (b : Budget) :
    (op.run b).1 = .ok () ∨ (op.run b).1 = .error .OutputLimit := by
  cases op with
  | scan count max =>
    simp only [Op.run, budget.scan]
    split
    · exact .inr rfl
    · split
      · exact .inl rfl
      · exact .inr rfl
  | bytes count =>
    simp only [Op.run, budget.bytes]
    split
    · exact .inl rfl
    · exact .inr rfl
  | emit =>
    simp only [Op.run, budget.emit]
    split
    · exact .inr rfl
    · exact .inl rfl

theorem run_ops_or_limit (ops : List Op) (b : Budget) :
    (∃ c, run_ops ops b = (.ok (), c)) ∨ ∃ c, run_ops ops b = (.error .OutputLimit, c) := by
  induction ops generalizing b with
  | nil => exact .inl ⟨b, rfl⟩
  | cons op rest ih =>
    rcases Op.run_or_limit op b with hop | hop
    · have hstep : run_ops (op :: rest) b = run_ops rest (op.run b).2 := by
        show Prog.bind op.run (fun _ => run_ops rest) b = _
        rw [Prog.bind, show op.run b = (.ok (), (op.run b).2) from Prod.ext hop rfl]
      rw [hstep]
      exact ih _
    · right
      refine ⟨(op.run b).2, ?_⟩
      show Prog.bind op.run (fun _ => run_ops rest) b = _
      rw [Prog.bind, show op.run b = (.error .OutputLimit, (op.run b).2) from Prod.ext hop rfl]

/-- A plan whose charges succeed ends in its outcome. -/
theorem run_plan_ok {α : Type} {ops : List Op} {b c : Budget} (h : run_ops ops b = (.ok (), c))
    (r : Except CoreError α) : ((run_ops ops >>= fun _ => lift r) b).1 = r := by
  have hbind : (run_ops ops >>= fun _ => lift r) b =
      Prog.bind (run_ops ops) (fun _ => lift r) b := rfl
  rw [hbind, Prog.bind, h]
  cases r <;> rfl

/-- A plan ends in its outcome, or a charge stops it. -/
theorem run_plan {α : Type} (ops : List Op) (r : Except CoreError α) (b : Budget) :
    (∃ c, run_ops ops b = (.ok (), c) ∧ ((run_ops ops >>= fun _ => lift r) b).1 = r) ∨
      ((run_ops ops >>= fun _ => lift r) b).1 = .error .OutputLimit := by
  rcases run_ops_or_limit ops b with ⟨c, hrun⟩ | ⟨c, hrun⟩
  · exact .inl ⟨c, hrun, run_plan_ok hrun r⟩
  · have hbind : (run_ops ops >>= fun _ => lift r) b =
        Prog.bind (run_ops ops) (fun _ => lift r) b := rfl
    right
    rw [hbind, Prog.bind, hrun]

/-- `ops'` is `ops` with some charges left out, but no scan. -/
inductive Trimmed : List Op → List Op → Prop
  | nil : Trimmed [] []
  | keep {op ops ops'} : Trimmed ops ops' → Trimmed (op :: ops) (op :: ops')
  | drop {op ops ops'} : op.is_scan = false → Trimmed ops ops' → Trimmed (op :: ops) ops'

theorem Trimmed.refl (ops : List Op) : Trimmed ops ops := by
  induction ops with
  | nil => exact .nil
  | cons op rest ih => exact .keep ih

theorem Trimmed.append {ops₁ ops₁' ops₂ ops₂' : List Op} (h₁ : Trimmed ops₁ ops₁')
    (h₂ : Trimmed ops₂ ops₂') : Trimmed (ops₁ ++ ops₂) (ops₁' ++ ops₂') := by
  induction h₁ with
  | nil => exact h₂
  | keep _ ih => exact .keep ih
  | drop hop _ ih => exact .drop hop ih

theorem Trimmed.scans (ops : List Op) : Trimmed ops (ops.filter Op.is_scan) := by
  induction ops with
  | nil => exact .nil
  | cons op rest ih =>
    cases hop : op.is_scan with
    | true =>
      rw [List.filter_cons_of_pos hop]
      exact .keep ih
    | false =>
      rw [List.filter_cons_of_neg (by simp [hop])]
      exact .drop hop ih

/-- `b'` has scanned what `b` has, and has charged no more. -/
structure Below (b b' : Budget) : Prop where
  scanned : b'.scanned = b.scanned
  bytes : b'.bytes ≤ b.bytes
  emitted : b'.emitted ≤ b.emitted

/-- A charge that succeeds still does with less on the budget. -/
theorem Op.run_below {op : Op} {b b' c : Budget} (h : Below b b') (hrun : op.run b = (.ok (), c)) :
    ∃ c', op.run b' = (.ok (), c') ∧ Below c c' := by
  obtain ⟨hscanned, hbytes, hemitted⟩ := h
  cases op with
  | scan count max =>
    simp only [Op.run, budget.scan] at hrun ⊢
    split at hrun
    · cases hrun
    · rename_i hmax
      split at hrun
      · rename_i hfits
        cases hrun
        rw [if_neg hmax, hscanned, if_pos hfits]
        exact ⟨_, rfl, rfl, hbytes, hemitted⟩
      · cases hrun
  | bytes count =>
    simp only [Op.run, budget.bytes] at hrun ⊢
    split at hrun
    · rename_i hfits
      cases hrun
      rw [allows_normalized] at hfits
      rw [if_pos (allows_normalized.2 (by omega))]
      exact ⟨_, rfl, hscanned, Nat.add_le_add_right hbytes _, hemitted⟩
    · cases hrun
  | emit =>
    simp only [Op.run, budget.emit] at hrun ⊢
    split at hrun
    · cases hrun
    · rename_i hfits
      cases hrun
      rw [if_neg (by omega)]
      exact ⟨_, rfl, hscanned, hbytes, Nat.add_le_add_right hemitted _⟩

/-- A charge that is no scan only adds. -/
theorem Op.run_adds {op : Op} {b b' c : Budget} (hop : op.is_scan = false) (h : Below b b')
    (hrun : op.run b = (.ok (), c)) : Below c b' := by
  obtain ⟨hscanned, hbytes, hemitted⟩ := h
  cases op with
  | scan count max => cases hop
  | bytes count =>
    simp only [Op.run, budget.bytes] at hrun
    split at hrun
    · cases hrun
      exact ⟨hscanned, Nat.le_trans hbytes (Nat.le_add_right _ _), hemitted⟩
    · cases hrun
  | emit =>
    simp only [Op.run, budget.emit] at hrun
    split at hrun
    · cases hrun
    · cases hrun
      exact ⟨hscanned, hbytes, Nat.le_trans hemitted (Nat.le_add_right _ _)⟩

theorem Trimmed.run {ops ops' : List Op} (h : Trimmed ops ops') {b b' c : Budget}
    (hbelow : Below b b') (hrun : run_ops ops b = (.ok (), c)) :
    ∃ c', run_ops ops' b' = (.ok (), c') := by
  induction h generalizing b b' with
  | nil => exact ⟨b', rfl⟩
  | keep _ ih =>
    obtain ⟨_, m, hop, hrun⟩ := bind_ok.1 hrun
    obtain ⟨m', hop', hbelow'⟩ := Op.run_below hbelow hop
    obtain ⟨c', hrest⟩ := ih hbelow' hrun
    exact ⟨c', bind_ok.2 ⟨(), m', hop', hrest⟩⟩
  | drop hno _ ih =>
    obtain ⟨_, m, hop, hrun⟩ := bind_ok.1 hrun
    exact ih (Op.run_adds hno hbelow hop) hrun

/-! ## Plans -/

/-- `x` and `y` are a list of charges and an outcome; `y` makes only the scans of them. -/
def Planned {α β : Type} (V : α → β → Prop) (x : Charge α) (y : Charge β) : Prop :=
  ∃ (ops : List Op) (r : Except CoreError (α × β)),
    x = (run_ops ops >>= fun _ => lift (r.map Prod.fst)) ∧
    y = (run_ops (ops.filter Op.is_scan) >>= fun _ => lift (r.map Prod.snd)) ∧
    (∀ p, r = .ok p → V p.1 p.2) ∧ ∀ e, r = .error e → e ≠ .SelectionNotObserved

namespace Planned

variable {α β γ δ : Type} {V : α → β → Prop} {W : γ → δ → Prop}

theorem pure {a : α} {c : β} (h : V a c) : Planned V (Pure.pure a) (Pure.pure c) :=
  ⟨[], .ok (a, c), rfl, rfl, by simp [h], by simp⟩

theorem stop {e : CoreError} (he : e ≠ .SelectionNotObserved) :
    Planned V (Prog.stop e) (Prog.stop e) := ⟨[], .error e, rfl, rfl, by simp, by simp [he]⟩

theorem scan (count max : Nat) :
    Planned (fun _ _ => True) (budget.scan count max) (budget.scan count max) := by
  have hone : budget.scan count max = (run_ops [.scan count max] >>= fun _ => lift (.ok ())) := by
    rw [run_ops_one]
    exact (bind_pure _).symm
  exact ⟨[.scan count max], .ok ((), ()), hone, hone, by simp, by simp⟩

/-- A charge that a run with nothing emitted does not make. -/
theorem charge {op : Op} (hop : op.is_scan = false) :
    Planned (fun _ _ => True) op.run (Pure.pure () : Charge Unit) := by
  refine ⟨[op], .ok ((), ()), ?_, ?_, by simp, by simp⟩
  · rw [run_ops_one]
    exact (bind_pure _).symm
  · rw [List.filter_cons_of_neg (by simp [hop])]
    rfl

theorem bind {x : Charge α} {y : Charge β} {f : α → Charge γ} {g : β → Charge δ}
    (h : Planned V x y) (hf : ∀ a c, V a c → Planned W (f a) (g c)) :
    Planned W (x >>= f) (y >>= g) := by
  obtain ⟨ops, r, rfl, rfl, hok, herr⟩ := h
  cases r with
  | error e =>
    refine ⟨ops, .error e, ?_, ?_, by simp, by simpa using herr⟩
    · rw [bind_assoc]
      rfl
    · rw [bind_assoc]
      rfl
  | ok p =>
    obtain ⟨ops', r', hx, hy, hok', herr'⟩ := hf p.1 p.2 (hok p rfl)
    refine ⟨ops ++ ops', r', ?_, ?_, hok', herr'⟩
    · rw [bind_assoc, run_ops_append, bind_assoc, ← hx]
      rfl
    · rw [bind_assoc, List.filter_append, run_ops_append, bind_assoc, ← hy]
      rfl

theorem imp {V' : α → β → Prop} {x : Charge α} {y : Charge β} (h : Planned V x y)
    (himp : ∀ a c, V a c → V' a c) : Planned V' x y := by
  obtain ⟨ops, r, hx, hy, hok, herr⟩ := h
  exact ⟨ops, r, hx, hy, fun p hp => himp _ _ (hok p hp), herr⟩

theorem ite {p : Prop} [Decidable p] {x x' : Charge α} {y y' : Charge β} (hx : Planned V x y)
    (hy : Planned V x' y') : Planned V (if p then x else x') (if p then y else y') := by
  split
  · exact hx
  · exact hy

theorem lift {r : Except CoreError α} (hr : ∀ e, r = .error e → e ≠ .SelectionNotObserved)
    {f : α → Charge γ} {g : α → Charge δ} (h : ∀ a, r = .ok a → Planned W (f a) (g a)) :
    Planned W (Prog.lift r >>= f) (Prog.lift r >>= g) := by
  cases r with
  | error e => exact stop (hr e rfl)
  | ok a => exact h a rfl

theorem ok_or {o : Option α} {e : CoreError} (he : e ≠ .SelectionNotObserved)
    {f : α → Charge γ} {g : α → Charge δ} (h : ∀ a, o = some a → Planned W (f a) (g a)) :
    Planned W (Prog.ok_or o e >>= f) (Prog.ok_or o e >>= g) := by
  cases o with
  | none => exact stop he
  | some a => exact h a rfl

end Planned

/-! ## Records -/

theorem budget.text_eq (value : Str) :
    budget.text .normalized value = budget.bytes .normalized (text_cost value) := by
  unfold budget.text
  rw [text_bytes_normalized]
  split
  · rfl
  · rename_i hlong
    funext b
    have hallows : ¬ ByteLimit.normalized.allows (b.bytes + text_cost value) = true := by
      rw [allows_normalized]
      omega
    rw [budget.bytes, if_neg hallows]
    rfl

namespace Planned

/-- What comes after charges that a run with nothing emitted does not make. -/
theorem after {α γ δ : Type} {W : γ → δ → Prop} {x : Charge α} {f : α → Charge γ} {y : Charge δ}
    (h : Planned (fun _ _ => True) x (Pure.pure () : Charge Unit)) (hf : ∀ a, Planned W (f a) y) :
    Planned W (x >>= f) y := h.bind fun a _ _ => hf a

theorem bytes (count : Nat) : Planned (fun _ _ => True) (budget.bytes .normalized count)
    (Pure.pure () : Charge Unit) := charge (show (Op.bytes count).is_scan = false from rfl)

theorem emit : Planned (fun _ _ => True) budget.emit (Pure.pure () : Charge Unit) :=
  charge (show Op.emit.is_scan = false from rfl)

theorem text (value : Str) : Planned (fun _ _ => True) (budget.text .normalized value)
    (Pure.pure () : Charge Unit) := by
  rw [budget.text_eq]
  exact bytes _

theorem key (value : Str) (previous : Bool) : Planned (fun _ _ => True)
    (budget.key .normalized value previous) (Pure.pure () : Charge Unit) :=
  (text value).after fun _ => bytes _

theorem to_value (scalar : Scalar) : Planned (fun _ _ => True) (scalar.to_value .normalized)
    (Pure.pure () : Charge Unit) := by
  refine after ?_ fun _ => pure trivial
  cases scalar with
  | Boolean value => exact bytes _
  | Text value => exact text value
  | Integer value => exact bytes _
  | Counter value => exact text _

end Planned

theorem lookup_segments_error {source : Value} {path : List Str} {e : CoreError}
    (h : lookup_segments source path = .error e) : e ≠ .SelectionNotObserved := by
  induction path generalizing source with
  | nil => simp [lookup_segments] at h
  | cons key rest ih =>
    cases source with
    | Object fields =>
      simp only [lookup_segments] at h
      split at h
      · cases h
      · exact ih h
    | Array items =>
      simp only [lookup_segments] at h
      split at h
      · cases h
        decide
      · split at h
        · cases h
        · exact ih h
    | _ =>
      cases h
      decide

theorem Scalar.read_error {kind : ScalarKind} {x : Value} {e : CoreError}
    (h : Scalar.read kind x = .error e) : e ≠ .SelectionNotObserved := by
  have hinvalid : e = .InvalidOutput := by
    cases kind with
    | Boolean =>
      simp only [read] at h
      split at h <;> cases h
      rfl
    | Text max_bytes =>
      simp only [read, read_text] at h
      split at h
      · cases h
        rfl
      · split at h <;> cases h
        rfl
    | TextEnum max_bytes values =>
      simp only [read] at h
      split at h
      · cases h
        rfl
      · split at h <;> cases h
        rfl
    | SafeInteger min max =>
      simp only [read, read_integer] at h
      split at h
      · cases h
        rfl
      · split at h <;> cases h
        rfl
    | FalseOrSafeInteger min max =>
      simp only [read, read_integer] at h
      split at h
      · cases h
      · split at h
        · cases h
          rfl
        · split at h <;> cases h
          rfl
    | DecimalCounter source =>
      cases source with
      | JsonInteger =>
        simp only [read, read_counter] at h
        split at h <;> cases h
        rfl
      | DecimalText =>
        simp only [read, read_counter] at h
        split at h
        · cases h
          rfl
        · split at h
          · cases h
            rfl
          · split at h <;> cases h
            rfl
  rw [hinvalid]
  decide

theorem emit_field_planned (result result' : Map) (name : Str) (scalar : Scalar) :
    Planned (fun _ _ => True) (emit_field .normalized true result name scalar)
      (emit_field .normalized false result' name scalar) := by
  refine Planned.after (Planned.key name _) fun _ => ?_
  exact Planned.after (Planned.to_value scalar) fun _ => Planned.pure trivial

theorem key_field_planned (key : Option (TextIdentity × Str)) :
    Planned (fun _ _ => True) (key_field .normalized key true)
      (key_field .normalized key false) := by
  cases key with
  | none => exact Planned.pure trivial
  | some key => exact Planned.ite (Planned.stop (by decide)) (emit_field_planned _ _ _ _)

theorem scalar_fields_planned (source : Value) (fields : List ScalarField) (result result' : Map) :
    Planned (fun _ _ => True) (scalar_fields .normalized source true fields result)
      (scalar_fields .normalized source false fields result') := by
  induction fields generalizing result result' with
  | nil => exact Planned.pure trivial
  | cons field rest ih =>
    refine Planned.lift (fun _ h => lookup_segments_error h) fun found _ => ?_
    cases found with
    | none => exact Planned.ite (Planned.stop (by decide)) (ih _ _)
    | some value =>
      refine Planned.lift (fun _ h => Scalar.read_error h) fun scalar _ => ?_
      exact (emit_field_planned _ _ _ _).bind fun _ _ _ => ih _ _

theorem record_fields_planned (fields : List ScalarField) (source : Value)
    (key : Option (TextIdentity × Str)) :
    Planned (fun _ _ => True) (record_fields .normalized fields source key true)
      (record_fields .normalized fields source key false) := by
  refine Planned.ite (Planned.stop (by decide)) ?_
  refine Planned.after (Planned.bytes 2) fun _ => ?_
  exact (key_field_planned key).bind fun _ _ _ => scalar_fields_planned _ _ _ _

/-- A value, and nothing when nothing is emitted. -/
def Emitted (o o' : Option Value) : Prop := o.isSome ∧ o' = none

/-- The runs of a kind of records are plans. -/
class PlannedRecord (R : Type) [RecordShape R] : Prop where
  project_record_planned : ∀ (record : R) (source : Value) (key : Option (TextIdentity × Str)),
    Planned Emitted (project_record .normalized record source key true)
      (project_record .normalized record source key false)

instance : PlannedRecord LeafRecord where
  project_record_planned record source key :=
    (record_fields_planned record.fields source key).bind fun _ _ _ => Planned.pure ⟨rfl, rfl⟩

/-! ## Collections -/

theorem text_values_planned (max_bytes : Nat) (items projected projected' : List Value) :
    Planned (fun _ _ => True) (text_values .normalized max_bytes true items projected)
      (text_values .normalized max_bytes false items projected') := by
  induction items generalizing projected projected' with
  | nil => exact Planned.pure trivial
  | cons value rest ih =>
    refine Planned.lift (fun _ h => Scalar.read_error h) fun scalar _ => ?_
    refine Planned.bind (V := fun _ _ => True) ?_ fun _ _ _ => ih _ _
    refine Planned.after Planned.emit fun _ => Planned.after (Planned.bytes _) fun _ => ?_
    exact Planned.after (Planned.to_value scalar) fun _ => Planned.pure trivial

theorem project_text_option_planned (source : Value) (max_items max_bytes : Nat) :
    Planned Emitted (project_text_option .normalized source max_items max_bytes true)
      (project_text_option .normalized source max_items max_bytes false) := by
  refine Planned.ok_or (by decide) fun found _ => ?_
  refine (Planned.scan _ _).bind fun _ _ _ => ?_
  refine Planned.after ?_ fun _ => ?_
  · refine Planned.after (Planned.bytes 2) fun _ => Planned.after (Planned.key _ _) fun _ => ?_
    refine Planned.after (Planned.text _) fun _ => Planned.after (Planned.key _ _) fun _ => ?_
    exact Planned.bytes 2
  · exact (text_values_planned max_bytes found.2 [] []).bind fun _ _ _ => Planned.pure ⟨rfl, rfl⟩

section
variable {R : Type} [RecordShape R] [PlannedRecord R]

open PlannedRecord

theorem row_array_planned (record : R) (items : List Value) (acc acc' : Rows) :
    Planned (fun _ _ => True) (row_array .normalized record true items acc)
      (row_array .normalized record false items acc') := by
  induction items generalizing acc acc' with
  | nil => exact Planned.pure trivial
  | cons value rest ih =>
    refine Planned.after ?_ fun _ => ?_
    · exact Planned.after Planned.emit fun _ => Planned.bytes _
    · exact (project_record_planned record value none).bind fun _ _ _ => ih _ _

theorem identified_row_planned (record : R) (identity : Str) (key : Option (TextIdentity × Str))
    (value : Value) (acc acc' : Rows) :
    Planned (fun _ _ => True) (identified_row .normalized record none true identity key value acc)
      (identified_row .normalized record none false identity key value acc') := by
  refine Planned.after ?_ fun _ => ?_
  · exact Planned.after Planned.emit fun _ => Planned.bytes _
  · exact (project_record_planned record value key).bind fun _ _ _ => Planned.pure trivial

theorem object_array_planned (record : R) (source : Str) (max : Nat) (items : List Value)
    (identities : List Str) (acc acc' : Rows) :
    Planned (fun _ _ => True)
      (object_array .normalized record none true source max items identities acc)
      (object_array .normalized record none false source max items identities acc') := by
  induction items generalizing identities acc acc' with
  | nil => exact Planned.pure trivial
  | cons value rest ih =>
    refine Planned.lift (fun _ h => lookup_segments_error h) fun found _ => ?_
    refine Planned.ok_or (by decide) fun identity _ => ?_
    refine Planned.ite (Planned.stop (by decide)) ?_
    exact (identified_row_planned record identity none value acc acc').bind fun _ _ _ => ih _ _ _

theorem object_entries_planned (record : R) (key : TextIdentity) (entries : Map) (acc acc' : Rows) :
    Planned (fun _ _ => True) (object_entries .normalized record none true key entries acc)
      (object_entries .normalized record none false key entries acc') := by
  induction entries generalizing acc acc' with
  | nil => exact Planned.pure trivial
  | cons entry rest ih =>
    refine Planned.ite (Planned.stop (by decide)) ?_
    exact (identified_row_planned record entry.1 (some (key, entry.1)) entry.2 acc acc').bind
      fun _ _ _ => ih _ _

theorem scalar_array_planned (name : Str) (kind : ScalarKind) (unique : Bool) (items : List Value)
    (identities : List Scalar) (acc acc' : Rows) :
    Planned (fun _ _ => True)
      (scalar_array .normalized name kind unique true items identities acc)
      (scalar_array .normalized name kind unique false items identities acc') := by
  induction items generalizing identities acc acc' with
  | nil => exact Planned.pure trivial
  | cons value rest ih =>
    refine Planned.lift (fun _ h => Scalar.read_error h) fun scalar _ => ?_
    refine Planned.ite (Planned.stop (by decide)) ?_
    refine Planned.bind (V := fun _ _ => True) ?_ fun _ _ _ =>
      Planned.ite (Planned.stop (by decide)) (ih _ _ _)
    refine Planned.after Planned.emit fun _ => Planned.after (Planned.bytes _) fun _ => ?_
    refine Planned.after (Planned.key _ _) fun _ => ?_
    exact Planned.after (Planned.to_value scalar) fun _ => Planned.pure trivial

theorem Collection.project_at_planned (c : Collection R) (source : Value) :
    Planned Emitted (c.project_at .normalized source none true)
      (c.project_at .normalized source none false) := by
  have hrows : Planned (fun _ _ => True) (c.project_rows .normalized source none true)
      (c.project_rows .normalized source none false) := by
    cases c with
    | TextOption pointer max_items max_bytes => exact Planned.stop (by decide)
    | RowArray pointer max_items record =>
      refine Planned.ok_or (by decide) fun items _ => ?_
      exact (Planned.scan _ _).bind fun _ _ _ => row_array_planned _ _ _ _
    | ObjectArray pointer max_items identity record =>
      refine Planned.ok_or (by decide) fun items _ => ?_
      refine (Planned.scan _ _).bind fun _ _ _ => ?_
      refine Planned.ok_or (by decide) fun field _ => Planned.ok_or (by decide) fun max _ => ?_
      exact object_array_planned _ _ _ _ _ _ _
    | ObjectEntries pointer max_items key record =>
      refine Planned.ok_or (by decide) fun items _ => ?_
      exact (Planned.scan _ _).bind fun _ _ _ => object_entries_planned _ _ _ _ _
    | ScalarArray pointer max_items name kind unique =>
      refine Planned.ok_or (by decide) fun items _ => ?_
      exact (Planned.scan _ _).bind fun _ _ _ => scalar_array_planned _ _ _ _ _ _ _
  cases c with
  | TextOption pointer max_items max_bytes => exact project_text_option_planned _ _ _
  | _ =>
    exact Planned.after (Planned.bytes 2) fun _ => hrows.bind fun _ _ _ => Planned.pure ⟨rfl, rfl⟩

theorem collection_fields_planned (source : Value) (fields : List (CollectionField (Collection R)))
    (result result' : Map) :
    Planned (fun _ _ => True) (collection_fields .normalized source true fields result)
      (collection_fields .normalized source false fields result') := by
  induction fields generalizing result result' with
  | nil => exact Planned.pure trivial
  | cons field rest ih =>
    refine Planned.lift (fun _ h => lookup_segments_error h) fun found _ => ?_
    cases found with
    | none => exact Planned.ite (Planned.stop (by decide)) (ih _ _)
    | some value =>
      refine Planned.after (Planned.key _ _) fun _ => ?_
      exact (field.collection.project_at_planned value).bind fun _ _ _ => ih _ _

instance : PlannedRecord (Record (Collection R)) where
  project_record_planned record source key := by
    refine (record_fields_planned record.fields source key).bind fun _ _ _ => ?_
    exact (collection_fields_planned source record.collections _ _).bind fun _ _ _ =>
      Planned.pure ⟨rfl, rfl⟩

end

end openwrt_mcp_core.projection
