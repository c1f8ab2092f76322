-- What a result of a projection looks like. `Conforms` says it for a response and a result:
-- which names an object has, what stands under each, and which row comes from which item.
-- Every run that succeeds returns such a result and charges its bytes and its rows.
import OpenwrtMcp.ProjectionBudget

open json programs programs.Prog text

namespace openwrt_mcp_core.projection

/-! ## Scalars -/

/-- An integer between the bounds, and so one that a double holds exactly. -/
def SafeBetween (min max : Int64) (v : Value) : Prop :=
  ∃ n : Int64, v = from_i64 n ∧ min ≤ n ∧ n ≤ max ∧
    -(2 ^ 53 - 1) ≤ n.toInt ∧ n.toInt ≤ 2 ^ 53 - 1

def BoundedText (max_bytes : Nat) (s : Str) : Prop := len s ≤ max_bytes ∧ '\x00' ∉ s

/-- The values that a kind lets into a result. -/
def ScalarKind.Holds : ScalarKind → Value → Prop
  | .Boolean, v => ∃ value, v = .Bool value
  | .Text max_bytes, v => ∃ s, v = .String s ∧ BoundedText max_bytes s
  | .TextEnum max_bytes values, v => ∃ s ∈ values, v = .String s ∧ BoundedText max_bytes s
  | .SafeInteger min max, v => SafeBetween min max v
  | .FalseOrSafeInteger min max, v => v = .Bool false ∨ SafeBetween min max v
  | .DecimalCounter _, v => ∃ n : UInt64, v = .String (decimal n.toNat)

/-- `v` is what the kind reads from `x`. -/
def Reads (kind : ScalarKind) (x v : Value) : Prop :=
  ∃ scalar, Scalar.read kind x = .ok scalar ∧ v = scalar.value ∧ kind.Holds v

theorem Scalar.read_text_spec {max_bytes : Nat} {x : Value} {scalar : Scalar}
    (h : read_text max_bytes x = .ok scalar) :
    ∃ s, x = .String s ∧ scalar = .Text s ∧ BoundedText max_bytes s := by
  unfold read_text at h
  split at h
  · cases h
  · rename_i s hs
    split at h
    · cases h
    · rename_i hbound
      simp only [Bool.or_eq_true, decide_eq_true_eq, not_or, Nat.not_lt] at hbound
      cases x with
      | String value =>
        cases hs
        cases h
        exact ⟨s, rfl, rfl, hbound⟩
      | _ => cases hs

theorem Scalar.read_integer_spec {min max : Int64} {x : Value} {scalar : Scalar}
    (h : read_integer min max x = .ok scalar)
    (hkind : min ≥ -SAFE_INTEGER_MAX ∧ max ≤ SAFE_INTEGER_MAX) :
    SafeBetween min max scalar.value := by
  unfold read_integer at h
  split at h
  · cases h
  · rename_i n hn
    split at h
    · cases h
    · rename_i hbound
      cases h
      simp only [Bool.or_eq_true, decide_eq_true_eq, not_or, gt_iff_lt, Int64.not_lt] at hbound
      have hmin := Int64.le_iff_toInt_le.1 (Int64.le_trans hkind.1 hbound.1)
      have hmax := Int64.le_iff_toInt_le.1 (Int64.le_trans hbound.2 hkind.2)
      have hlow : (-SAFE_INTEGER_MAX).toInt = -(2 ^ 53 - 1) := by decide
      have hhigh : SAFE_INTEGER_MAX.toInt = 2 ^ 53 - 1 := by decide
      exact ⟨n, rfl, hbound.1, hbound.2, by omega, by omega⟩

theorem ScalarKind.validate_integer {min max : Int64} {kind : ScalarKind}
    (hkind : kind = .SafeInteger min max ∨ kind = .FalseOrSafeInteger min max)
    (h : kind.validate = .ok ()) : min ≥ -SAFE_INTEGER_MAX ∧ max ≤ SAFE_INTEGER_MAX := by
  have hvalid : (min ≤ max && min ≥ -SAFE_INTEGER_MAX && max ≤ SAFE_INTEGER_MAX) = true := by
    rcases hkind with rfl | rfl <;>
    · simp only [validate] at h
      split at h
      · assumption
      · cases h
  simp only [Bool.and_eq_true, decide_eq_true_eq] at hvalid
  exact ⟨hvalid.1.2, hvalid.2⟩

/-- Which scalars a kind reads. -/
def ScalarKind.form : ScalarKind → Scalar → Bool
  | .Boolean, .Boolean _ => true
  | .Text _, .Text _ => true
  | .TextEnum _ _, .Text _ => true
  | .SafeInteger _ _, .Integer _ => true
  | .FalseOrSafeInteger _ _, .Boolean _ => true
  | .FalseOrSafeInteger _ _, .Integer _ => true
  | .DecimalCounter _, .Counter _ => true
  | _, _ => false

theorem Scalar.read_integer_form {min max : Int64} {x : Value} {scalar : Scalar}
    (h : read_integer min max x = .ok scalar) : ∃ n, scalar = .Integer n := by
  unfold read_integer at h
  split at h
  · cases h
  · split at h
    · cases h
    · cases h
      exact ⟨_, rfl⟩

theorem Scalar.read_form {kind : ScalarKind} {x : Value} {scalar : Scalar}
    (h : read kind x = .ok scalar) : kind.form scalar := by
  cases kind with
  | Boolean =>
    simp only [read] at h
    split at h
    · cases h
    · cases h
      rfl
  | Text max_bytes =>
    obtain ⟨s, -, rfl, -⟩ := read_text_spec h
    rfl
  | TextEnum max_bytes values =>
    simp only [read] at h
    split at h
    · cases h
    · split at h
      · cases h
      · cases h
        rfl
  | SafeInteger min max =>
    obtain ⟨n, rfl⟩ := read_integer_form h
    rfl
  | FalseOrSafeInteger min max =>
    simp only [read] at h
    split at h
    · cases h
      rfl
    · obtain ⟨n, rfl⟩ := read_integer_form h
      rfl
  | DecimalCounter source =>
    cases source with
    | JsonInteger =>
      simp only [read, read_counter] at h
      split at h
      · cases h
      · cases h
        rfl
    | DecimalText =>
      simp only [read, read_counter] at h
      split at h
      · cases h
      · split at h
        · cases h
        · split at h
          · cases h
          · cases h
            rfl

theorem Scalar.read_spec {kind : ScalarKind} {x : Value} {scalar : Scalar}
    (h : read kind x = .ok scalar) (hkind : kind.validate = .ok ()) :
    kind.Holds scalar.value := by
  cases kind with
  | Boolean =>
    simp only [read] at h
    split at h
    · cases h
    · cases h
      exact ⟨_, rfl⟩
  | Text max_bytes =>
    obtain ⟨s, -, rfl, hs⟩ := read_text_spec h
    exact ⟨s, rfl, hs⟩
  | TextEnum max_bytes values =>
    simp only [read] at h
    split at h
    · cases h
    · rename_i s hs
      split at h
      · cases h
      · rename_i hvalid
        cases h
        simp only [valid_identity, Bool.or_eq_true, Bool.not_eq_true', Bool.and_eq_false_iff,
          decide_eq_false_iff_not, decide_eq_true_eq, not_or, not_not, Nat.not_le] at hvalid
        obtain ⟨⟨⟨-, hlen⟩, hnul⟩, hmem⟩ := hvalid
        exact ⟨s, hmem, rfl, by omega, hnul⟩
  | SafeInteger min max =>
    exact read_integer_spec h (ScalarKind.validate_integer (.inl rfl) hkind)
  | FalseOrSafeInteger min max =>
    simp only [read] at h
    split at h
    · cases h
      exact .inl rfl
    · exact .inr (read_integer_spec h (ScalarKind.validate_integer (.inr rfl) hkind))
  | DecimalCounter source =>
    have hform := read_form h
    cases scalar with
    | Counter n => exact ⟨n, rfl⟩
    | _ => cases hform

/-! ## What a result is -/

/-- What stands under a name: nothing for an optional pointer that leads nowhere, or what
`Good` says about the value that the pointer leads to. -/
def Projected (source : Value) (pointer : Str) (presence : Presence) (Good : Value → Value → Prop)
    (name : Str) (result : Map) : Prop :=
  (lookup source pointer = .ok none ∧ presence = .Optional ∧ result.get name = none) ∨
    ∃ x v, lookup source pointer = .ok (some x) ∧ result.get name = some v ∧ Good x v

/-- The names and the scalars of an object. -/
structure ProjectedFields (key : Option (TextIdentity × Str)) (fields : List ScalarField)
    (collections : List Str) (source : Value) (result : Map) : Prop where
  nodup : result.keys.Nodup
  names : ∀ name ∈ result.keys, name ∈ declared (key.map Prod.fst) fields collections
  key : ∀ identity value, key = some (identity, value) →
    valid_identity value identity.max_bytes ∧ result.get identity.name = some (.String value)
  fields : ∀ field ∈ fields,
    Projected source field.source field.presence (Reads field.value) field.name result

/-- The kinds of records, with what a result for one is and how many rows are in it. -/
class RecordSpec (R : Type) extends RecordShape R where
  Conforms : R → Option (TextIdentity × Str) → (source v : Value) → Prop
  rows : R → Value → Nat
  /-- A result is an object with the fields of the record. -/
  conforms_fields : ∀ {record key source v}, Conforms record key source v →
    ∃ result collections, v = .Object result ∧
      ProjectedFields key (fields record) collections source result

instance : RecordSpec LeafRecord where
  Conforms record key source v :=
    ∃ result, v = .Object result ∧ ProjectedFields key record.fields [] source result
  rows _ _ := 0
  conforms_fields h := by
    obtain ⟨result, hv, hfields⟩ := h
    exact ⟨result, [], hv, hfields⟩

/-- `row` has the text under the name. -/
def HasText (name : Str) (row : Value) (identity : Str) : Prop :=
  ∃ result, row = .Object result ∧ Map.get result name = some (.String identity)

namespace Collection

variable {R : Type} [RecordSpec R]

/-- A result for a collection: its rows are those of the items, in the order of the items. -/
def Conforms (c : Collection R) (source v : Value) : Prop :=
  match c with
  | .TextOption _ max_items max_bytes => ∃ kind values,
    text_option_kind source = some (kind, values) ∧
    v = .Object [("kind".toList, .String kind), ("values".toList, .Array values)] ∧
    values.length ≤ max_items ∧ ∀ x ∈ values, (ScalarKind.Text max_bytes).Holds x
  | .RowArray _ max_items record => ∃ items rows, source = .Array items ∧ v = .Array rows ∧
    rows.length ≤ max_items ∧ List.Forall₂ (RecordSpec.Conforms record none) items rows
  | .ObjectArray _ max_items identity record => ∃ items rows ids,
    source = .Array items ∧ v = .Array rows ∧ rows.length ≤ max_items ∧
    List.Forall₂ (RecordSpec.Conforms record none) items rows ∧
    List.Forall₂ (HasText identity) rows ids ∧ ids.Nodup ∧ [] ∉ ids
  | .ObjectEntries _ max_items key record => ∃ entries rows, source = .Object entries ∧
    v = .Array rows ∧ rows.length ≤ max_items ∧
    List.Forall₂ (fun entry row => RecordSpec.Conforms record (some (key, entry.1)) entry.2 row ∧
      HasText key.name row entry.1) entries rows
  | .ScalarArray _ max_items name kind unique => ∃ items values, source = .Array items ∧
    v = .Array (values.map fun x => .Object [(name, x)]) ∧ values.length ≤ max_items ∧
    List.Forall₂ (Reads kind) items values ∧ (unique → values.Nodup)

/-- The rows and the values in a result for a collection. -/
def rows (c : Collection R) (v : Value) : Nat :=
  match c with
  | .TextOption .. =>
    (((as_object v).bind fun fields => (Map.get fields "values".toList).bind as_array).getD
      []).length
  | .ScalarArray .. => ((as_array v).getD []).length
  | .RowArray _ _ record | .ObjectArray _ _ _ record | .ObjectEntries _ _ _ record =>
    (((as_array v).getD []).map fun row => 1 + RecordSpec.rows record row).sum

end Collection

section
variable {R : Type} [RecordSpec R]

def collection_rows (result : Map) (field : CollectionField (Collection R)) : Nat :=
  match result.get field.name with
  | none => 0
  | some v => field.collection.rows v

instance : RecordSpec (Record (Collection R)) where
  Conforms record key source v := ∃ result, v = .Object result ∧
    ProjectedFields key record.fields (record.collections.map CollectionField.name) source result ∧
    ∀ field ∈ record.collections, Projected source field.collection.source field.presence
      field.collection.Conforms field.name result
  rows record v := match as_object v with
    | none => 0
    | some result => (record.collections.map (collection_rows result)).sum
  conforms_fields h := by
    obtain ⟨result, hv, hfields, -⟩ := h
    exact ⟨result, _, hv, hfields⟩

end

end openwrt_mcp_core.projection
