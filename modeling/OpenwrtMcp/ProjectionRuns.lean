-- Every run that succeeds returns a result of the shape that its definition asks for, and
-- charges the bytes and the rows of that result.
import OpenwrtMcp.ProjectionShape

open json programs programs.Prog text

namespace openwrt_mcp_core.projection

variable {limit : ByteLimit} {b b' : Budget}

/-! ## Objects that are built -/

/-- From `result` to `result'` only the names change, and what the text of the object grows
by is charged. -/
structure Adds (b b' : Budget) (result result' : Map) (names : List Str) (emitted : Nat) :
    Prop where
  frame : ∀ name ∉ names, result'.get name = result.get name
  nodup : result.keys.Nodup → result'.keys.Nodup
  keys : ∀ name ∈ result'.keys, name ∈ result.keys ∨ name ∈ names
  spends : ∃ n, Spends b b' n emitted ∧ size (.Object result') = size (.Object result) + n

theorem Adds.refl (b : Budget) (result : Map) (names : List Str) :
    Adds b b result result names 0 where
  frame _ _ := rfl
  nodup := id
  keys _ h := .inl h
  spends := ⟨0, Spends.refl b, rfl⟩

theorem Adds.trans {b₁ b₂ b₃ : Budget} {r₁ r₂ r₃ : Map} {n₁ n₂ : List Str} {k₁ k₂ : Nat}
    (h₁ : Adds b₁ b₂ r₁ r₂ n₁ k₁) (h₂ : Adds b₂ b₃ r₂ r₃ n₂ k₂) :
    Adds b₁ b₃ r₁ r₃ (n₁ ++ n₂) (k₁ + k₂) where
  frame name h := by
    rw [List.mem_append, not_or] at h
    rw [h₂.frame name h.2, h₁.frame name h.1]
  nodup := h₂.nodup ∘ h₁.nodup
  keys name h := by
    rw [List.mem_append]
    rcases h₂.keys name h with h | h
    · rcases h₁.keys name h with h | h
      · exact .inl h
      · exact .inr (.inl h)
    · exact .inr (.inr h)
  spends := by
    obtain ⟨c₁, hs₁, hsize₁⟩ := h₁.spends
    obtain ⟨c₂, hs₂, hsize₂⟩ := h₂.spends
    exact ⟨c₁ + c₂, hs₁.trans hs₂, by omega⟩

/-- A new name: its key and its value are charged. -/
theorem Adds.insert {m : Budget} {result : Map} {name : Str} {v : Value} {k : Nat}
    (hnew : name ∉ result.keys)
    (hkey : Spends b m (text_cost name + (1 + (!result.isEmpty).toNat)) 0)
    (hvalue : Spends m b' (size v) k) : Adds b b' result (result.insert name v) [name] k where
  frame other h := Map.get_insert_ne _ _ (by simpa using h)
  nodup h := by
    rw [Map.keys, ((Map.insert_perm v hnew).map Prod.fst).nodup_iff]
    exact List.nodup_cons.2 ⟨hnew, h⟩
  keys other h := by
    rw [Map.keys, ((Map.insert_perm v hnew).map Prod.fst).mem_iff, List.map_cons,
      List.mem_cons] at h
    rcases h with h | h
    · exact .inr (by simp [h])
    · exact .inl h
  spends := ⟨_, (hkey.trans hvalue).cast rfl (Nat.zero_add k), by
    rw [size_insert _ hnew, Nat.add_assoc]⟩

theorem Projected.congr {source : Value} {pointer name : Str} {presence : Presence}
    {Good : Value → Value → Prop} {result result' : Map}
    (h : Projected source pointer presence Good name result)
    (hget : result'.get name = result.get name) :
    Projected source pointer presence Good name result' := by
  unfold Projected at h ⊢
  rwa [hget]

theorem insert_field_adds {result result' : Map} {name : Str} {scalar : Scalar}
    (h : insert_field limit result name scalar b = (.ok result', b')) (hnew : name ∉ result.keys) :
    result' = result.insert name scalar.value ∧ Adds b b' result result' [name] 0 := by
  obtain ⟨_, m, hkey, h⟩ := bind_ok.1 h
  obtain ⟨v, m', hvalue, h⟩ := bind_ok.1 h
  obtain ⟨rfl, rfl⟩ := pure_ok.1 h
  obtain ⟨rfl, hspends⟩ := Scalar.to_value_spec hvalue
  exact ⟨rfl, Adds.insert hnew (budget.key_spec hkey) hspends⟩

/-- A run that emits nothing leaves the object as it is. -/
theorem scalar_fields_quiet {source : Value} {fields : List ScalarField} {result result' : Map}
    (h : scalar_fields limit source false fields result b = (.ok result', b')) :
    result' = result ∧ b' = b := by
  induction fields with
  | nil =>
    obtain ⟨rfl, rfl⟩ := pure_ok.1 h
    exact ⟨rfl, rfl⟩
  | cons field rest ih =>
    obtain ⟨found, hlookup, h⟩ := lift_bind_ok.1 h
    cases found with
    | none =>
      simp only at h
      split at h
      · simp at h
      · exact ih h
    | some x =>
      obtain ⟨scalar, hread, h⟩ := lift_bind_ok.1 h
      exact ih h

theorem scalar_fields_spec {source : Value} {fields : List ScalarField} {result result' : Map}
    (h : scalar_fields limit source true fields result b = (.ok result', b'))
    (hnew : ∀ field ∈ fields, field.name ∉ result.keys)
    (hnodup : (fields.map ScalarField.name).Nodup)
    (hkinds : ∀ field ∈ fields, field.value.validate = .ok ()) :
    Adds b b' result result' (fields.map ScalarField.name) 0 ∧ ∀ field ∈ fields,
      Projected source field.source field.presence (Reads field.value) field.name result' := by
  induction fields generalizing result b with
  | nil =>
    obtain ⟨rfl, rfl⟩ := pure_ok.1 h
    exact ⟨Adds.refl _ _ _, by simp⟩
  | cons field rest ih =>
    rw [List.map_cons, List.nodup_cons] at hnodup
    rw [List.forall_mem_cons] at hnew hkinds
    -- the first field, and then the others from the object that it leaves
    have hfirst : ∃ m middle, Adds b m result middle [field.name] 0 ∧
        Projected source field.source field.presence (Reads field.value) field.name middle ∧
        scalar_fields limit source true rest middle m = (.ok result', b') := by
      obtain ⟨found, hlookup, h⟩ := lift_bind_ok.1 h
      cases found with
      | none =>
        simp only at h
        split at h
        · simp at h
        · rename_i hpresence
          have hoptional : field.presence = .Optional := by
            cases hp : field.presence
            · exact absurd hp hpresence
            · rfl
          exact ⟨b, result, Adds.refl _ _ _,
            .inl ⟨hlookup, hoptional, Map.get_eq_none_iff.2 hnew.1⟩, h⟩
      | some x =>
        obtain ⟨scalar, hread, h⟩ := lift_bind_ok.1 h
        obtain ⟨middle, m, hinsert, h⟩ := bind_ok.1 h
        obtain ⟨rfl, hadds⟩ := insert_field_adds hinsert hnew.1
        refine ⟨m, _, hadds, .inr ⟨x, scalar.value, hlookup, Map.get_insert_self _ _ _, ?_⟩, h⟩
        exact ⟨scalar, hread, rfl, Scalar.read_spec hread hkinds.1⟩
    obtain ⟨m, middle, hadds, hprojected, hrest⟩ := hfirst
    have hnew' : ∀ f ∈ rest, f.name ∉ middle.keys := by
      intro f hf hmem
      rcases hadds.keys _ hmem with hmem | hmem
      · exact hnew.2 f hf hmem
      · exact hnodup.1 (List.mem_map.2 ⟨f, hf, by simpa using hmem⟩)
    obtain ⟨hadds', hall⟩ := ih hrest hnew' hnodup.2 hkinds.2
    refine ⟨hadds.trans hadds', List.forall_mem_cons.2 ⟨?_, hall⟩⟩
    exact hprojected.congr (hadds'.frame _ hnodup.1)

/-! ## Records -/

/-- What a run returns and charges: a result when it emits, and nothing otherwise. -/
def Yields (emit : Bool) (b b' : Budget) (o : Option Value) (Good : Value → Prop)
    (rows : Value → Nat) : Prop :=
  if emit then ∃ v, o = some v ∧ Good v ∧ Spends b b' (size v) (rows v)
  else o = none ∧ Spends b b' 0 0

theorem key_field_quiet {key : Option (TextIdentity × Str)} {result : Map}
    (h : key_field limit key false b = (.ok result, b')) : result = [] ∧ b' = b := by
  unfold key_field at h
  split at h
  · obtain ⟨rfl, rfl⟩ := pure_ok.1 h
    exact ⟨rfl, rfl⟩
  · split at h
    · simp at h
    · obtain ⟨rfl, rfl⟩ := pure_ok.1 h
      exact ⟨rfl, rfl⟩

theorem key_field_spec {key : Option (TextIdentity × Str)} {result : Map}
    (h : key_field limit key true b = (.ok result, b')) :
    Adds b b' [] result ((key.map Prod.fst).toList.map TextIdentity.name) 0 ∧
      ∀ identity value, key = some (identity, value) →
        valid_identity value identity.max_bytes ∧ result.get identity.name =
          some (.String value) := by
  cases key with
  | none =>
    obtain ⟨rfl, rfl⟩ := pure_ok.1 h
    exact ⟨Adds.refl _ _ _, by simp⟩
  | some key =>
    simp only [key_field, emit_field, if_true] at h
    split at h
    · simp at h
    · rename_i hvalid
      obtain ⟨rfl, hadds⟩ := insert_field_adds h (by simp [Map.keys])
      refine ⟨hadds, ?_⟩
      intro identity value heq
      cases heq
      exact ⟨by simpa using hvalid, Map.get_insert_self _ _ _⟩

theorem record_fields_quiet {fields : List ScalarField} {source : Value}
    {key : Option (TextIdentity × Str)} {result : Map}
    (h : record_fields limit fields source key false b = (.ok result, b')) :
    result = [] ∧ b' = b := by
  unfold record_fields at h
  split at h
  · simp at h
  · obtain ⟨_, m, hwhen, h⟩ := bind_ok.1 h
    have hm : b = m := when_ok.1 hwhen
    obtain ⟨start, m', hkey, h⟩ := bind_ok.1 h
    have hquiet := key_field_quiet hkey
    have hfields := scalar_fields_quiet h
    simp [hfields.1, hfields.2, hquiet.1, hquiet.2, hm]

/-- The part of an object that comes from its key and its scalars. -/
theorem record_fields_spec {fields : List ScalarField} {source : Value}
    {key : Option (TextIdentity × Str)} {collections : List Str} {result : Map}
    (h : record_fields limit fields source key true b = (.ok result, b'))
    (haccepted : FieldsAccepted (key.map Prod.fst) fields collections) :
    ProjectedFields key fields collections source result ∧
      Spends b b' (size (.Object result)) 0 ∧ ∀ name ∈ collections, name ∉ result.keys := by
  have hnames := haccepted.names
  rw [declared, List.nodup_append, List.nodup_append] at hnames
  obtain ⟨-, ⟨hfields, -, hcollections⟩, hkeys⟩ := hnames
  unfold record_fields at h
  split at h
  · simp at h
  · obtain ⟨_, m, hopen, h⟩ := bind_ok.1 h
    have hopen : Spends b m 2 0 := budget.bytes_spec (when_ok.1 hopen)
    obtain ⟨start, m', hkey, h⟩ := bind_ok.1 h
    obtain ⟨hadds, hkey⟩ := key_field_spec hkey
    have hstart : ∀ name ∈ start.keys, name ∈ (key.map Prod.fst).toList.map TextIdentity.name := by
      intro name hname
      rcases hadds.keys name hname with hname | hname
      · cases hname
      · exact hname
    have hnew : ∀ field ∈ fields, field.name ∉ start.keys := by
      intro field hfield hmem
      exact hkeys _ (hstart _ hmem) _ (List.mem_append_left _ (List.mem_map_of_mem hfield)) rfl
    obtain ⟨hadds', hall⟩ := scalar_fields_spec h hnew hfields haccepted.kinds
    have hadds := hadds.trans hadds'
    have hdeclared : ∀ name ∈ result.keys, name ∈ (key.map Prod.fst).toList.map TextIdentity.name ++
        fields.map ScalarField.name := by
      intro name hname
      rcases hadds.keys name hname with hname | hname
      · cases hname
      · exact hname
    refine ⟨⟨hadds.nodup List.nodup_nil, ?_, ?_, hall⟩, ?_, ?_⟩
    · intro name hname
      unfold declared
      rw [← List.append_assoc]
      exact List.mem_append_left _ (hdeclared name hname)
    · intro identity value heq
      obtain ⟨hvalid, hget⟩ := hkey identity value heq
      refine ⟨hvalid, ?_⟩
      rw [hadds'.frame, hget]
      intro hmem
      exact hkeys _ (by simp [heq]) _ (List.mem_append_left _ hmem) rfl
    · obtain ⟨n, hspends, hsize⟩ := hadds.spends
      refine (hopen.trans hspends).cast ?_ rfl
      rw [hsize]
      rfl
    · intro name hname hmem
      rcases List.mem_append.1 (hdeclared name hmem) with hmem | hmem
      · exact hkeys _ hmem _ (List.mem_append_right _ hname) rfl
      · exact hcollections _ hmem _ hname rfl

/-- The collections of an object leave its key and its scalars as they are. -/
theorem ProjectedFields.extend {key : Option (TextIdentity × Str)} {fields : List ScalarField}
    {collections : List Str} {source : Value} {start result : Map} {k : Nat}
    (h : ProjectedFields key fields collections source start)
    (hadds : Adds b b' start result collections k)
    (haccepted : FieldsAccepted (key.map Prod.fst) fields collections) :
    ProjectedFields key fields collections source result := by
  have hnames := haccepted.names
  rw [declared, List.nodup_append, List.nodup_append] at hnames
  obtain ⟨-, ⟨-, -, hfields⟩, hkeys⟩ := hnames
  refine ⟨hadds.nodup h.nodup, ?_, ?_, ?_⟩
  · intro name hname
    rcases hadds.keys name hname with hname | hname
    · exact h.names name hname
    · exact List.mem_append_right _ (List.mem_append_right _ hname)
  · intro identity value heq
    obtain ⟨hvalid, hget⟩ := h.key identity value heq
    refine ⟨hvalid, ?_⟩
    rw [hadds.frame, hget]
    intro hmem
    exact hkeys _ (by simp [heq]) _ (List.mem_append_right _ hmem) rfl
  · intro field hfield
    refine (h.fields field hfield).congr (hadds.frame _ fun hmem => ?_)
    exact hfields _ (List.mem_map_of_mem hfield) _ hmem rfl

open RecordCheck RecordShape RecordSpec

/-- The runs of a kind of records do what `Yields` says. -/
class LawfulRecord (R : Type) [RecordSpec R] : Prop where
  project_record_spec : ∀ {limit : ByteLimit} {record : R} {source : Value}
    {key : Option (TextIdentity × Str)} {emit : Bool} {b b' : Budget} {o : Option Value},
    Accepted record (key.map Prod.fst) →
      project_record limit record source key emit b = (.ok o, b') →
      Yields emit b b' o (Conforms record key source) (rows record)

instance : LawfulRecord LeafRecord where
  project_record_spec := by
    intro limit record source key emit b b' o haccepted h
    obtain ⟨result, m, hfields, h⟩ := bind_ok.1 h
    obtain ⟨rfl, rfl⟩ := pure_ok.1 h
    cases emit with
    | false =>
      obtain ⟨rfl, rfl⟩ := record_fields_quiet hfields
      exact ⟨rfl, Spends.refl _⟩
    | true =>
      obtain ⟨hprojected, hspends, -⟩ := record_fields_spec hfields
        (LeafRecord.accepted_spec haccepted)
      exact ⟨_, rfl, ⟨result, rfl, hprojected⟩, hspends⟩

end openwrt_mcp_core.projection
