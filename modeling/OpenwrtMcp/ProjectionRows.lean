-- The loops over the rows of a collection: what each pass adds to the rows, and to the text of
-- the array that they are returned in.
import OpenwrtMcp.ProjectionRuns

open json programs programs.Prog text

namespace openwrt_mcp_core.projection

open RecordCheck RecordShape RecordSpec

variable {limit : ByteLimit} {b b' m : Budget}

/-! ## Rows that are added -/

section
variable {α : Type} {Good : α → Value → Prop} {count : Value → Nat} {emit : Bool}

/-- From `rows` to `rows'` there is a new row for each item, in their order, and what the text
of the array grows by is charged; or nothing, when nothing is emitted. -/
def AddsRows (emit : Bool) (b b' : Budget) (Good : α → Value → Prop) (count : Value → Nat)
    (items : List α) (rows rows' : List Value) : Prop :=
  if emit then ∃ new, rows' = rows ++ new ∧ List.Forall₂ Good items new ∧
    ∃ n, Spends b b' n (new.map fun row => 1 + count row).sum ∧
      size (.Array rows') = size (.Array rows) + n
  else rows' = rows ∧ Spends b b' 0 0

theorem AddsRows.nil (b : Budget) (rows : List Value) :
    AddsRows emit b b Good count [] rows rows := by
  cases emit with
  | false => exact ⟨rfl, Spends.refl b⟩
  | true => exact ⟨[], by simp, .nil, 0, Spends.refl b, rfl⟩

theorem AddsRows.one {item : α} {row : Value} {rows : List Value} (hgood : Good item row)
    (hspends : Spends b b' ((!rows.isEmpty).toNat + size row) (1 + count row)) :
    AddsRows true b b' Good count [item] rows (rows ++ [row]) :=
  ⟨[row], rfl, .cons hgood .nil, _, hspends.cast rfl (by simp), size_array_snoc rows row⟩

theorem AddsRows.cons {item : α} {items : List α} {rows₁ rows₂ rows₃ : List Value}
    (hfirst : AddsRows emit b m Good count [item] rows₁ rows₂)
    (hrest : AddsRows emit m b' Good count items rows₂ rows₃) :
    AddsRows emit b b' Good count (item :: items) rows₁ rows₃ := by
  cases emit with
  | false => exact ⟨hrest.1.trans hfirst.1, (hfirst.2.trans hrest.2)⟩
  | true =>
    obtain ⟨new₁, rfl, hgood₁, n₁, hspends₁, hsize₁⟩ := hfirst
    obtain ⟨new₂, rfl, hgood₂, n₂, hspends₂, hsize₂⟩ := hrest
    refine ⟨new₁ ++ new₂, by simp, List.rel_append hgood₁ hgood₂, n₁ + n₂, ?_, by omega⟩
    exact (hspends₁.trans hspends₂).cast rfl (by simp)

end

/-! ## Texts and scalars -/

theorem text_values_spec {max_bytes : Nat} {emit : Bool} {items rows rows' : List Value}
    (h : text_values limit max_bytes emit items rows b = (.ok rows', b')) :
    AddsRows emit b b' (fun x v => v = x) (fun _ => 0) items rows rows' ∧
      ∀ x ∈ items, (ScalarKind.Text max_bytes).Holds x := by
  induction items generalizing rows b with
  | nil =>
    obtain ⟨rfl, rfl⟩ := pure_ok.1 h
    exact ⟨AddsRows.nil _ _, by simp⟩
  | cons x rest ih =>
    obtain ⟨scalar, hread, h⟩ := lift_bind_ok.1 h
    obtain ⟨s, rfl, rfl, hs⟩ := Scalar.read_text_spec hread
    obtain ⟨middle, m, hstep, h⟩ := bind_ok.1 h
    obtain ⟨hrest, hall⟩ := ih h
    refine ⟨AddsRows.cons ?_ hrest, List.forall_mem_cons.2 ⟨⟨s, rfl, hs⟩, hall⟩⟩
    cases emit with
    | false =>
      obtain ⟨rfl, rfl⟩ := pure_ok.1 hstep
      exact ⟨rfl, Spends.refl _⟩
    | true =>
      obtain ⟨_, m₁, hemit, hstep⟩ := bind_ok.1 hstep
      obtain ⟨_, m₂, hcomma, hstep⟩ := bind_ok.1 hstep
      obtain ⟨v, m₃, hvalue, hstep⟩ := bind_ok.1 hstep
      obtain ⟨rfl, rfl⟩ := pure_ok.1 hstep
      obtain ⟨rfl, hspends⟩ := Scalar.to_value_spec hvalue
      refine AddsRows.one rfl ?_
      exact ((budget.emit_spec hemit).trans ((budget.bytes_spec hcomma).trans hspends)).cast
        (by simp) rfl

theorem size_single (name : Str) (v : Value) :
    size (.Object [(name, v)]) = 2 + (text_cost name + 1) + size v := by
  rw [size_object]
  simp [field_size]
  omega

/-- A row of a scalar array. -/
def ScalarRow (name : Str) (kind : ScalarKind) (x row : Value) : Prop :=
  ∃ scalar, Scalar.read kind x = .ok scalar ∧ row = .Object [(name, scalar.value)]

theorem scalar_array_spec {name : Str} {kind : ScalarKind} {unique emit : Bool} {items : List Value}
    {identities : List Scalar} {acc acc' : Rows}
    (h : scalar_array limit name kind unique emit items identities acc b = (.ok acc', b')) :
    AddsRows emit b b' (ScalarRow name kind) (fun _ => 0) items acc.rows acc'.rows := by
  induction items generalizing identities acc b with
  | nil =>
    obtain ⟨rfl, rfl⟩ := pure_ok.1 h
    exact AddsRows.nil _ _
  | cons x rest ih =>
    obtain ⟨scalar, hread, h⟩ := lift_bind_ok.1 h
    split at h
    · simp at h
    obtain ⟨middle, m, hstep, h⟩ := bind_ok.1 h
    split at h
    · simp at h
    refine AddsRows.cons ?_ (ih h)
    cases emit with
    | false =>
      obtain ⟨rfl, rfl⟩ := pure_ok.1 hstep
      exact ⟨rfl, Spends.refl _⟩
    | true =>
      obtain ⟨_, m₁, hemit, hstep⟩ := bind_ok.1 hstep
      obtain ⟨_, m₂, hopen, hstep⟩ := bind_ok.1 hstep
      obtain ⟨_, m₃, hkey, hstep⟩ := bind_ok.1 hstep
      obtain ⟨v, m₄, hvalue, hstep⟩ := bind_ok.1 hstep
      obtain ⟨rfl, rfl⟩ := pure_ok.1 hstep
      obtain ⟨rfl, hspends⟩ := Scalar.to_value_spec hvalue
      refine AddsRows.one ⟨scalar, hread, rfl⟩ ?_
      refine ((budget.emit_spec hemit).trans ((budget.bytes_spec hopen).trans
        ((budget.key_spec hkey).trans hspends))).cast ?_ rfl
      rw [size_single, Bool.toNat_false]
      omega

/-- The scalars of an array, which are all different in a unique one. -/
theorem scalar_array_reads {name : Str} {kind : ScalarKind} {unique emit : Bool}
    {items : List Value} {identities : List Scalar} {acc acc' : Rows}
    (h : scalar_array limit name kind unique emit items identities acc b = (.ok acc', b')) :
    ∃ scalars, List.Forall₂ (fun x scalar => Scalar.read kind x = .ok scalar) items scalars ∧
      (unique → scalars.Nodup ∧ ∀ scalar ∈ scalars, scalar ∉ identities) := by
  induction items generalizing identities acc b with
  | nil => exact ⟨[], .nil, by simp⟩
  | cons x rest ih =>
    obtain ⟨scalar, hread, h⟩ := lift_bind_ok.1 h
    split at h
    · simp at h
    obtain ⟨middle, m, hstep, h⟩ := bind_ok.1 h
    split at h
    · simp at h
    · rename_i hfresh
      obtain ⟨scalars, hreads, hunique⟩ := ih h
      refine ⟨scalar :: scalars, .cons hread hreads, ?_⟩
      intro hu
      obtain ⟨hnodup, hnew⟩ := hunique hu
      have hself : scalar ∉ scalars := fun hmem => hnew _ hmem (List.mem_cons_self ..)
      refine ⟨List.nodup_cons.2 ⟨hself, hnodup⟩, List.forall_mem_cons.2 ⟨?_, ?_⟩⟩
      · simpa [hu] using hfresh
      · intro other hother hmem
        exact hnew other hother (List.mem_cons_of_mem _ hmem)

/-- Two scalars of a kind are returned as two values. -/
theorem Scalar.value_injective_on {kind : ScalarKind} {x y : Value} {s t : Scalar}
    (hs : read kind x = .ok s) (ht : read kind y = .ok t) (h : s.value = t.value) : s = t := by
  have hsform := read_form hs
  have htform := read_form ht
  have hnumber : ∀ n value, from_i64 n ≠ .Bool value := by
    intro n value
    unfold from_i64
    split <;> simp
  cases s with
  | Boolean v =>
    cases t with
    | Boolean w => simpa [value] using h
    | Text w => cases kind <;> simp [ScalarKind.form] at hsform htform
    | Integer w => exact absurd h.symm (hnumber w v)
    | Counter w => cases kind <;> simp [ScalarKind.form] at hsform htform
  | Text v =>
    cases t with
    | Text w => simpa [value] using h
    | Boolean w => cases kind <;> simp [ScalarKind.form] at hsform htform
    | Integer w => cases kind <;> simp [ScalarKind.form] at hsform htform
    | Counter w => cases kind <;> simp [ScalarKind.form] at hsform htform
  | Integer v =>
    cases t with
    | Integer w => rw [from_i64_injective h]
    | Boolean w => exact absurd h (hnumber v w)
    | Text w => cases kind <;> simp [ScalarKind.form] at hsform htform
    | Counter w => cases kind <;> simp [ScalarKind.form] at hsform htform
  | Counter v =>
    cases t with
    | Counter w =>
      have hdecimal : decimal v.toNat = decimal w.toNat := by simpa [value] using h
      rw [UInt64.toNat_inj.1 (decimal_injective hdecimal)]
    | Boolean w => cases kind <;> simp [ScalarKind.form] at hsform htform
    | Text w => cases kind <;> simp [ScalarKind.form] at hsform htform
    | Integer w => cases kind <;> simp [ScalarKind.form] at hsform htform

/-! ## Records -/

section
variable {R : Type} [RecordSpec R] [LawfulRecord R] {record : R} {emit : Bool}

/-- One row: the comma before it and what its record takes. -/
theorem emitted_row_spec {key : Option (TextIdentity × Str)} {value : Value} {rows : List Value}
    {o : Option Value}
    (hopen : when emit (do
      budget.emit
      budget.bytes limit (!rows.isEmpty).toNat) b = (.ok (), m))
    (hrow : project_record limit record value key emit m = (.ok o, b'))
    (haccepted : Accepted record (key.map Prod.fst)) :
    AddsRows emit b b' (Conforms record key) (RecordSpec.rows record) [value] rows
      (rows ++ o.toList) := by
  have hyields := LawfulRecord.project_record_spec haccepted hrow
  have hopen := when_ok.1 hopen
  cases emit with
  | false =>
    obtain ⟨rfl, hspends⟩ := hyields
    simp only [Bool.false_eq_true, if_false] at hopen
    rw [hopen]
    exact ⟨by simp, hspends⟩
  | true =>
    obtain ⟨v, rfl, hconforms, hspends⟩ := hyields
    obtain ⟨_, m₁, hemit, hcomma⟩ := bind_ok.1 hopen
    refine AddsRows.one hconforms ?_
    exact ((budget.emit_spec hemit).trans ((budget.bytes_spec hcomma).trans hspends)).cast
      (by simp) (by simp)

theorem row_array_spec {items : List Value} {acc acc' : Rows}
    (h : row_array limit record emit items acc b = (.ok acc', b'))
    (haccepted : Accepted record none) :
    AddsRows emit b b' (Conforms record none) (RecordSpec.rows record) items acc.rows
      acc'.rows := by
  induction items generalizing acc b with
  | nil =>
    obtain ⟨rfl, rfl⟩ := pure_ok.1 h
    exact AddsRows.nil _ _
  | cons value rest ih =>
    obtain ⟨_, m₁, hopen, h⟩ := bind_ok.1 h
    obtain ⟨o, m₂, hrow, h⟩ := bind_ok.1 h
    exact AddsRows.cons (emitted_row_spec hopen hrow haccepted) (ih h)

end

/-! ## Rows with an identity -/

/-- A row with the identity that it was found to have. -/
structure IdentifiedRow where
  identity : Str
  key : Option (TextIdentity × Str)
  value : Value

/-- The loop over rows whose identities are accepted. -/
def identified_rows {R : Type} [RecordShape R] (limit : ByteLimit) (record : R)
    (selector : Option Str) (emit : Bool) : List IdentifiedRow → Rows → Charge Rows
  | [], acc => Pure.pure acc
  | row :: rest, acc => do
    let acc ← identified_row limit record selector emit row.identity row.key row.value acc
    identified_rows limit record selector emit rest acc

/-- The identities of the items are accepted: they are texts that were not seen before. -/
inductive Identified (source : Str) (max : Nat) : List Value → List Str → List Str → Prop
  | nil {seen} : Identified source max [] seen []
  | cons {value x rest seen identity ids} : lookup value source = .ok (some x) →
      as_str x = some identity → valid_identity identity max → identity ∉ seen →
      Identified source max rest (identity :: seen) ids →
      Identified source max (value :: rest) seen (identity :: ids)

theorem Identified.fresh {source : Str} {max : Nat} {items : List Value} {seen ids : List Str}
    (h : Identified source max items seen ids) : ids.Nodup ∧ ∀ identity ∈ ids, identity ∉ seen := by
  induction h with
  | nil => simp
  | cons _ _ _ hnew _ ih =>
    refine ⟨List.nodup_cons.2 ⟨fun hmem => ih.2 _ hmem (List.mem_cons_self ..), ih.1⟩, ?_⟩
    refine List.forall_mem_cons.2 ⟨hnew, fun other hother hmem => ?_⟩
    exact ih.2 other hother (List.mem_cons_of_mem _ hmem)

/-- The rows of an object array, once the identities are known. -/
def array_rows (items : List Value) (ids : List Str) : List IdentifiedRow :=
  items.zipWith (fun value identity => ⟨identity, none, value⟩) ids

/-- What is known of a row of an object array. -/
structure ArrayRow (source : Str) (max : Nat) (items : List Value) (row : IdentifiedRow) :
    Prop where
  mem : row.value ∈ items
  key : row.key = none
  found : ∃ x, lookup row.value source = .ok (some x) ∧ as_str x = some row.identity ∧
    valid_identity row.identity max

theorem Identified.identities {source : Str} {max : Nat} {items : List Value} {seen ids : List Str}
    (h : Identified source max items seen ids) :
    (array_rows items ids).map IdentifiedRow.identity = ids := by
  induction h with
  | nil => rfl
  | cons _ _ _ _ _ ih =>
    rw [array_rows, List.zipWith_cons_cons, List.map_cons]
    exact congrArg _ ih

theorem Identified.row {source : Str} {max : Nat} {items : List Value} {seen ids : List Str}
    (h : Identified source max items seen ids) {row : IdentifiedRow}
    (hrow : row ∈ array_rows items ids) : ArrayRow source max items row := by
  induction h with
  | nil => cases hrow
  | cons hlookup hx hvalid _ _ ih =>
    rw [array_rows, List.zipWith_cons_cons, List.mem_cons] at hrow
    rcases hrow with rfl | hrow
    · exact ⟨by simp, rfl, _, hlookup, hx, hvalid⟩
    · exact { ih hrow with mem := List.mem_cons_of_mem _ (ih hrow).mem }

/-- The rows of a map of entries. -/
def entry_rows (key : TextIdentity) (entries : Map) : List IdentifiedRow :=
  entries.map fun entry => ⟨entry.1, some (key, entry.1), entry.2⟩

section
variable {R : Type} [RecordShape R] {record : R} {selector : Option Str} {emit : Bool}

theorem object_array_identified {source : Str} {max : Nat} {items : List Value} {seen : List Str}
    {acc acc' : Rows}
    (h : object_array limit record selector emit source max items seen acc b = (.ok acc', b')) :
    ∃ ids, Identified source max items seen ids := by
  induction items generalizing seen acc b with
  | nil => exact ⟨[], .nil⟩
  | cons value rest ih =>
    obtain ⟨found, hlookup, h⟩ := lift_bind_ok.1 h
    obtain ⟨identity, hidentity, h⟩ := ok_or_bind_ok.1 h
    obtain ⟨x, hfound, hx⟩ := Option.bind_eq_some_iff.1 hidentity
    rw [hfound] at hlookup
    split at h
    · simp at h
    · rename_i hnew
      simp only [Bool.or_eq_true, Bool.not_eq_true', decide_eq_true_eq, not_or,
        Bool.not_eq_false] at hnew
      obtain ⟨middle, m₁, -, h⟩ := bind_ok.1 h
      obtain ⟨ids, hids⟩ := ih h
      exact ⟨identity :: ids, .cons hlookup hx hnew.1 hnew.2 hids⟩

theorem object_array_eq {source : Str} {max : Nat} {items : List Value} {seen ids : List Str}
    (h : Identified source max items seen ids) (acc : Rows) :
    object_array limit record selector emit source max items seen acc =
      identified_rows limit record selector emit (array_rows items ids) acc := by
  induction h generalizing acc with
  | nil => rfl
  | cons hlookup hx hvalid hnew _ ih =>
    unfold object_array array_rows
    rw [List.zipWith_cons_cons, identified_rows, hlookup]
    simp only [lift_ok_bind, Option.bind_some, hx, ok_or_some_bind, hvalid, hnew, decide_false,
      Bool.not_true, Bool.or_false, Bool.false_eq_true, if_false]
    congr 1
    funext acc
    exact ih acc

theorem object_entries_valid {key : TextIdentity} {entries : Map} {acc acc' : Rows}
    (h : object_entries limit record selector emit key entries acc b = (.ok acc', b')) :
    ∀ entry ∈ entries, valid_identity entry.1 key.max_bytes := by
  induction entries generalizing acc b with
  | nil => simp
  | cons entry rest ih =>
    unfold object_entries at h
    split at h
    · simp at h
    · rename_i hvalid
      obtain ⟨middle, m₁, -, h⟩ := bind_ok.1 h
      exact List.forall_mem_cons.2 ⟨by simpa using hvalid, ih h⟩

theorem object_entries_eq {key : TextIdentity} {entries : Map}
    (h : ∀ entry ∈ entries, valid_identity entry.1 key.max_bytes) (acc : Rows) :
    object_entries limit record selector emit key entries acc =
      identified_rows limit record selector emit (entry_rows key entries) acc := by
  induction entries generalizing acc with
  | nil => rfl
  | cons entry rest ih =>
    rw [List.forall_mem_cons] at h
    unfold object_entries entry_rows
    rw [List.map_cons, identified_rows]
    simp only [h.1, Bool.not_true, Bool.false_eq_true, if_false]
    congr 1
    funext acc
    exact ih h.2 acc

end

section
variable {R : Type} [RecordSpec R] [LawfulRecord R] {record : R} {emit : Bool}

/-- A result for a row. -/
def RowConforms (record : R) (row : IdentifiedRow) (v : Value) : Prop :=
  Conforms record row.key row.value v

/-- With no selector every row is returned. -/
theorem identified_rows_all {rows : List IdentifiedRow} {acc acc' : Rows}
    (h : identified_rows limit record none emit rows acc b = (.ok acc', b'))
    (haccepted : ∀ row ∈ rows, Accepted record (row.key.map Prod.fst)) :
    AddsRows emit b b' (RowConforms record) (RecordSpec.rows record) rows acc.rows acc'.rows := by
  induction rows generalizing acc b with
  | nil =>
    obtain ⟨rfl, rfl⟩ := pure_ok.1 h
    exact AddsRows.nil _ _
  | cons row rest ih =>
    rw [List.forall_mem_cons] at haccepted
    obtain ⟨middle, m₁, hstep, h⟩ := bind_ok.1 h
    refine AddsRows.cons ?_ (ih h haccepted.2)
    simp only [identified_row, Option.all_none, Bool.and_true, Option.isNone_none] at hstep
    obtain ⟨_, m₂, hopen, hstep⟩ := bind_ok.1 hstep
    obtain ⟨o, m₃, hrow, hstep⟩ := bind_ok.1 hstep
    obtain ⟨rfl, rfl⟩ := pure_ok.1 hstep
    have hrows := emitted_row_spec hopen hrow haccepted.1
    cases o with
    | none => simpa [AddsRows, RowConforms] using hrows
    | some v => simpa [AddsRows, RowConforms] using hrows

/-- What a selector leaves of the rows: nothing as long as it is not observed, and then the one
row that it selects. -/
def Selects (record : R) (t : Str) (b b' : Budget) (rows : List IdentifiedRow) (acc acc' : Rows) :
    Prop :=
  (t ∉ rows.map IdentifiedRow.identity → acc' = acc ∧ Spends b b' 0 0) ∧
  (t ∈ rows.map IdentifiedRow.identity → ∃ row ∈ rows, row.identity = t ∧ ∃ v,
    RowConforms record row v ∧ acc'.observed ∧ acc'.selected = some v ∧
    Spends b b' (size v) (1 + RecordSpec.rows record v))

/-- One row under a selector. -/
theorem selected_row_spec {t : Str} {row : IdentifiedRow} {acc acc' : Rows}
    (h : identified_row limit record (some t) true row.identity row.key row.value acc b =
      (.ok acc', b')) (haccepted : Accepted record (row.key.map Prod.fst)) :
    Selects record t b b' [row] acc acc' := by
  simp only [identified_row, Option.all_some, Bool.true_and, Option.isNone_some] at h
  obtain ⟨_, m₁, hopen, h⟩ := bind_ok.1 h
  obtain ⟨o, m₂, hrow, h⟩ := bind_ok.1 h
  obtain ⟨rfl, rfl⟩ := pure_ok.1 h
  have hyields := LawfulRecord.project_record_spec haccepted hrow
  have hopen := when_ok.1 hopen
  by_cases ht : t = row.identity
  · simp only [ht, decide_true, if_true] at hopen hyields
    obtain ⟨v, rfl, hconforms, hspends⟩ := hyields
    obtain ⟨_, m₃, hemit, hcomma⟩ := bind_ok.1 hopen
    have hcomma : m₃ = m₁ := when_ok.1 hcomma
    refine ⟨fun hnot => absurd (by simp [ht]) hnot, fun _ => ?_⟩
    refine ⟨row, by simp, ht.symm, v, hconforms, by simp [ht], by simp, ?_⟩
    rw [hcomma] at hemit
    exact ((budget.emit_spec hemit).trans hspends).cast (by simp) rfl
  · simp only [ht, decide_false, Bool.false_eq_true, if_false] at hopen hyields
    obtain ⟨rfl, hspends⟩ := hyields
    refine ⟨fun _ => ⟨by simp [ht], hopen ▸ hspends⟩, fun hmem => ?_⟩
    exact absurd (by simpa using hmem) ht

theorem identified_rows_selected {t : Str} {rows : List IdentifiedRow} {acc acc' : Rows}
    (h : identified_rows limit record (some t) true rows acc b = (.ok acc', b'))
    (haccepted : ∀ row ∈ rows, Accepted record (row.key.map Prod.fst))
    (hnodup : (rows.map IdentifiedRow.identity).Nodup) :
    Selects record t b b' rows acc acc' := by
  induction rows generalizing acc b with
  | nil =>
    obtain ⟨rfl, rfl⟩ := pure_ok.1 h
    exact ⟨fun _ => ⟨rfl, Spends.refl _⟩, by simp⟩
  | cons row rest ih =>
    rw [List.forall_mem_cons] at haccepted
    rw [List.map_cons, List.nodup_cons] at hnodup
    obtain ⟨middle, m₁, hstep, h⟩ := bind_ok.1 h
    have hfirst := selected_row_spec hstep haccepted.1
    have hrest := ih h haccepted.2 hnodup.2
    by_cases ht : t = row.identity
    · -- the row is selected here, and no later one has its identity
      have hlater := hrest.1 (ht ▸ hnodup.1)
      obtain ⟨r, hr, hid, v, hconforms, hobserved, hselected, hspends⟩ := hfirst.2 (by simp [ht])
      refine ⟨fun hnot => absurd (by simp [ht]) hnot, fun _ => ?_⟩
      refine ⟨row, by simp, ht.symm, v, ?_, hlater.1 ▸ hobserved, hlater.1 ▸ hselected, ?_⟩
      · rwa [List.mem_singleton.1 hr] at hconforms
      · exact (hspends.trans hlater.2).cast (by simp) (by simp)
    · have hhere := hfirst.1 (by simp [ht])
      refine ⟨fun hnot => ?_, fun hmem => ?_⟩
      · have hlater := hrest.1 (fun hmem => hnot (List.mem_cons_of_mem _ hmem))
        exact ⟨hlater.1.trans hhere.1, hhere.2.trans hlater.2⟩
      · have hmem : t ∈ rest.map IdentifiedRow.identity := by simpa [ht] using hmem
        obtain ⟨r, hr, hid, v, hconforms, hobserved, hselected, hspends⟩ := hrest.2 hmem
        refine ⟨r, List.mem_cons_of_mem _ hr, hid, v, hconforms, hobserved, hselected, ?_⟩
        exact (hhere.2.trans hspends).cast (by simp) (by simp)

end

end openwrt_mcp_core.projection
