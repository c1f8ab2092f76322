-- The paths that a definition reads. Each check sorts them and compares neighbours, which finds
-- any two paths of which one goes through the other.
import OpenwrtMcp.OperationCheck
import OpenwrtMcp.PointerLaws
import OpenwrtMcp.Prefixes

open json programs slices text

namespace openwrt_mcp_core

namespace projection

theorem disjoint_iff (paths : List (List Str)) : disjoint paths = true ↔ PrefixFree paths := by
  rw [← neighbours_prefix_free, disjoint, Bool.not_eq_true', List.any_eq_false]
  simp only [List.isPrefixOf_iff_prefix]

/-- The text is accepted as a pointer. -/
def IsPointer (pointer : Str) (root_allowed : Bool) : Prop :=
  ∃ path, pointer_segments pointer root_allowed = .ok path

theorem isPointer_iff {pointer : Str} {root_allowed : Bool} :
    IsPointer pointer root_allowed ↔
      pointer_segments pointer root_allowed = .ok (segments pointer) := by
  constructor
  · rintro ⟨path, h⟩
    rw [segments_encode h, h]
  · intro h
    exact ⟨_, h⟩

theorem pointer_error {pointer : Str} {root_allowed : Bool} (h : ¬ IsPointer pointer root_allowed) :
    ∃ e, pointer_segments pointer root_allowed = .error e := by
  cases hp : pointer_segments pointer root_allowed with
  | error e => exact ⟨e, rfl⟩
  | ok path => exact absurd ⟨path, hp⟩ h

/-! ## The fields and the collections of a record -/

theorem gather_fields_ok {fields : List ScalarField} (seen : Gathered) {seen' : Gathered}
    (hseen : seen.names.Nodup) :
    gather_fields fields seen = .ok seen' ↔
      (∀ field ∈ fields, identifier field.name = true ∧ field.value.validate = .ok () ∧
        IsPointer field.source false) ∧
      ((fields.map ScalarField.name).reverse ++ seen.names).Nodup ∧
      seen' = ⟨(fields.map ScalarField.name).reverse ++ seen.names,
        seen.paths ++ fields.map fun field => segments field.source⟩ := by
  induction fields generalizing seen with
  | nil =>
    rw [gather_fields, Except.ok.injEq, eq_comm]
    simp [hseen]
  | cons field rest ih =>
    rw [List.forall_mem_cons, List.map_cons, List.map_cons, List.reverse_cons, List.append_assoc,
      List.singleton_append]
    unfold gather_fields
    by_cases hname : identifier field.name = true
    case neg => simp [hname]
    by_cases hnew : field.name ∈ seen.names
    · have hdup : ¬ (field.name :: seen.names).Nodup := fun h => (List.nodup_cons.1 h).1 hnew
      rw [if_pos (by simp [hnew])]
      constructor
      · intro h
        cases h
      · rintro ⟨-, hnodup, -⟩
        exact absurd (List.nodup_append.1 hnodup).2.1 hdup
    rw [if_neg (by simp [hname, hnew])]
    cases hkind : field.value.validate with
    | error e => simp [except_bind_ok]
    | ok _ =>
      by_cases hpointer : IsPointer field.source false
      · have hrest := ih ⟨field.name :: seen.names, seen.paths ++ [segments field.source]⟩
          (List.nodup_cons.2 ⟨hnew, hseen⟩)
        rw [isPointer_iff.1 hpointer]
        simp only [except_bind_ok, Except.ok.injEq, exists_eq_left', hrest, List.append_assoc,
          List.singleton_append]
        simp [hname, hpointer]
      · obtain ⟨e, he⟩ := pointer_error hpointer
        simp [he, hpointer, except_bind_ok]

theorem gather_collections_ok {collections : List (Str × Str)} (seen : Gathered)
    {seen' : Gathered} (hseen : seen.names.Nodup) :
    gather_collections collections seen = .ok seen' ↔
      (∀ c ∈ collections, identifier c.1 = true ∧ IsPointer c.2 true) ∧
      ((collections.map Prod.fst).reverse ++ seen.names).Nodup ∧
      seen' = ⟨(collections.map Prod.fst).reverse ++ seen.names,
        seen.paths ++ collections.map fun c => segments c.2⟩ := by
  induction collections generalizing seen with
  | nil =>
    rw [gather_collections, Except.ok.injEq, eq_comm]
    simp [hseen]
  | cons c rest ih =>
    obtain ⟨name, source⟩ := c
    rw [List.forall_mem_cons, List.map_cons, List.map_cons, List.reverse_cons, List.append_assoc,
      List.singleton_append]
    unfold gather_collections
    by_cases hname : identifier name = true
    case neg => simp [hname]
    by_cases hnew : name ∈ seen.names
    · have hdup : ¬ (name :: seen.names).Nodup := fun h => (List.nodup_cons.1 h).1 hnew
      rw [if_pos (by simp [hnew])]
      constructor
      · intro h
        cases h
      · rintro ⟨-, hnodup, -⟩
        exact absurd (List.nodup_append.1 hnodup).2.1 hdup
    rw [if_neg (by simp [hname, hnew])]
    by_cases hpointer : IsPointer source true
    · have hrest := ih ⟨name :: seen.names, seen.paths ++ [segments source]⟩
        (List.nodup_cons.2 ⟨hnew, hseen⟩)
      rw [isPointer_iff.1 hpointer]
      simp only [except_bind_ok, Except.ok.injEq, exists_eq_left', hrest, List.append_assoc,
        List.singleton_append]
      simp [hname, hpointer]
    · obtain ⟨e, he⟩ := pointer_error hpointer
      simp [he, hpointer, except_bind_ok]

/-- What else the check asks of the fields and collections of a record, each on its own. -/
structure FieldsChecked (fields : List ScalarField) (collections : List (Str × Str)) (count : Nat)
    (key : Option TextIdentity) (depth : Nat) : Prop where
  depth_le : depth ≤ MAX_SCHEMA_DEPTH
  count_le : count + key.isSome.toNat ≤ MAX_RECORD_FIELDS
  key_size : ∀ k ∈ key, 1 ≤ k.max_bytes ∧ k.max_bytes ≤ MAX_TEXT_BYTES
  identifiers : ∀ name ∈ declared key fields (collections.map Prod.fst), identifier name = true
  names : (declared key fields (collections.map Prod.fst)).Nodup
  kinds : ∀ field ∈ fields, field.value.validate = .ok ()
  field_pointers : ∀ field ∈ fields, IsPointer field.source false
  collection_pointers : ∀ c ∈ collections, IsPointer c.2 true

/-- The paths of the fields and of the collections. -/
def record_paths (fields : List ScalarField) (collections : List (Str × Str)) : List (List Str) :=
  (fields.map fun field => segments field.source) ++ collections.map fun c => segments c.2

theorem key_names_ok {key : Option TextIdentity} {names : List Str} :
    key_names key = .ok names ↔
      (∀ k ∈ key, identifier k.name = true ∧ 1 ≤ k.max_bytes ∧ k.max_bytes ≤ MAX_TEXT_BYTES) ∧
        names = key.toList.map TextIdentity.name := by
  cases key with
  | none =>
    rw [key_names, Except.ok.injEq, eq_comm]
    simp
  | some k =>
    rw [key_names]
    by_cases hname : identifier k.name = true
    case neg => simp [hname]
    by_cases hsize : 1 ≤ k.max_bytes ∧ k.max_bytes ≤ MAX_TEXT_BYTES
    · rw [if_neg (by simp [hname, hsize]), Except.ok.injEq, eq_comm]
      simp [hname, hsize]
    · have hsize' : (decide (1 ≤ k.max_bytes) && decide (k.max_bytes ≤ MAX_TEXT_BYTES)) =
        false := by
        rw [← Bool.decide_and, decide_eq_false hsize]
      rw [if_pos (by rw [hsize']; simp)]
      simp only [reduceCtorEq, Option.mem_some_iff, forall_eq', hsize, and_false, false_and]

/-- A name is declared once, in whatever order the names are gathered. -/
theorem declared_nodup {key : Option TextIdentity} {fields : List ScalarField}
    {collections : List Str} :
    (collections.reverse ++ ((fields.map ScalarField.name).reverse ++
      key.toList.map TextIdentity.name)).Nodup ↔ (declared key fields collections).Nodup := by
  refine List.Perm.nodup_iff ?_
  unfold declared
  have hfields : ((fields.map ScalarField.name).reverse ++ key.toList.map TextIdentity.name).Perm
      (key.toList.map TextIdentity.name ++ fields.map ScalarField.name) :=
    List.perm_append_comm.trans ((List.reverse_perm _).append_left _)
  refine List.perm_append_comm.trans ((hfields.append collections.reverse_perm).trans ?_)
  rw [List.append_assoc]

theorem validate_fields_iff (fields : List ScalarField) (collections : List (Str × Str))
    (count : Nat) (key : Option TextIdentity) (depth : Nat) :
    validate_fields fields collections count key depth = .ok () ↔
      FieldsChecked fields collections count key depth ∧
        PrefixFree (record_paths fields collections) := by
  constructor
  · intro h
    unfold validate_fields at h
    split at h
    case isTrue => cases h
    rename_i hbounds
    rw [Bool.or_eq_true, decide_eq_true_eq, decide_eq_true_eq, not_or, not_lt, not_lt] at hbounds
    obtain ⟨names, hkey, h⟩ := except_bind_ok.1 h
    obtain ⟨seen, hfields, h⟩ := except_bind_ok.1 h
    obtain ⟨seen', hcollections, h⟩ := except_bind_ok.1 h
    obtain ⟨hkeys, rfl⟩ := key_names_ok.1 hkey
    have hstart : (key.toList.map TextIdentity.name).Nodup := by
      cases key <;> simp
    obtain ⟨heach, hnodup, rfl⟩ := (gather_fields_ok _ hstart).1 hfields
    obtain ⟨heach', hnodup', rfl⟩ := (gather_collections_ok _ hnodup).1 hcollections
    have hdisjoint : disjoint (record_paths fields collections) = true := by
      by_contra hnot
      rw [if_pos (by simpa [record_paths] using hnot)] at h
      cases h
    refine ⟨⟨hbounds.1, hbounds.2, fun k hk => (hkeys k hk).2, ?_, declared_nodup.1 hnodup',
      fun f hf => (heach f hf).2.1, fun f hf => (heach f hf).2.2, fun c hc => (heach' c hc).2⟩,
      (disjoint_iff _).1 hdisjoint⟩
    intro name hname
    simp only [declared, List.mem_append, List.mem_map, Option.mem_toList] at hname
    rcases hname with ⟨k, hk, rfl⟩ | ⟨f, hf, rfl⟩ | ⟨c, hc, rfl⟩
    · exact (hkeys k hk).1
    · exact (heach f hf).1
    · exact (heach' c hc).1
  · rintro ⟨h, hfree⟩
    have hname := h.identifiers
    simp only [declared, List.mem_append, List.mem_map, Option.mem_toList] at hname
    have hkey := key_names_ok.2 ⟨fun k hk => ⟨hname _ (.inl ⟨k, hk, rfl⟩), h.key_size k hk⟩, rfl⟩
    have hall := declared_nodup.2 h.names
    have hnodup := (List.nodup_append.1 hall).2.1
    have hstart := (List.nodup_append.1 hnodup).2.1
    have hfields := (gather_fields_ok ⟨_, []⟩ hstart).2 ⟨fun f hf =>
      ⟨hname _ (.inr (.inl ⟨f, hf, rfl⟩)), h.kinds f hf, h.field_pointers f hf⟩, hnodup, rfl⟩
    have hcollections := (gather_collections_ok
      ⟨_, [] ++ fields.map fun field => segments field.source⟩ hnodup).2 ⟨fun c hc =>
      ⟨hname _ (.inr (.inr ⟨c, hc, rfl⟩)), h.collection_pointers c hc⟩, hall, rfl⟩
    have hdisjoint := (disjoint_iff _).2 hfree
    unfold validate_fields
    rw [if_neg (by simpa using ⟨h.depth_le, h.count_le⟩)]
    refine except_bind_ok.2 ⟨_, hkey, except_bind_ok.2 ⟨_, hfields, except_bind_ok.2 ⟨_,
      hcollections, ?_⟩⟩⟩
    rw [if_neg (by simpa [record_paths] using hdisjoint)]

/-! ## The guards of a projection -/

theorem guard_paths_ok {guards : List Str} {paths : List (List Str)} :
    TypedProjection.guard_paths guards = .ok paths ↔
      (∀ guard ∈ guards, IsPointer guard false) ∧ paths = guards.map segments := by
  induction guards generalizing paths with
  | nil =>
    rw [TypedProjection.guard_paths, Except.ok.injEq, eq_comm]
    simp
  | cons guard rest ih =>
    rw [List.forall_mem_cons, List.map_cons]
    unfold TypedProjection.guard_paths
    by_cases hpointer : IsPointer guard false
    · rw [isPointer_iff.1 hpointer]
      simp only [except_bind_ok, Except.ok.injEq, exists_eq_left', ih]
      constructor
      · rintro ⟨paths', ⟨hrest, rfl⟩, rfl⟩
        exact ⟨⟨hpointer, hrest⟩, rfl⟩
      · rintro ⟨⟨-, hrest⟩, rfl⟩
        exact ⟨_, ⟨hrest, rfl⟩, rfl⟩
    · obtain ⟨e, he⟩ := pointer_error hpointer
      simp [he, hpointer, except_bind_ok]

/-- The rest of the check of a projection, without its guards. -/
def TypedProjection.validate_shape (definition : TypedProjection) (parameters : Parameters) :
    Except CoreError Unit :=
  match definition with
  | .Record _ record => do
    let _ ← RecordCheck.validate_record record 1 0 none
    .ok ()
  | .Collection _ collection selection => do
    let _ ← collection.validate_collection 1 0
    TypedProjection.validate_selection collection parameters selection

theorem validate_iff (definition : TypedProjection) (parameters : Parameters) :
    definition.validate parameters = .ok () ↔
      (definition.reject_if_present.length ≤ MAX_ROOT_GUARDS ∧
        (∀ guard ∈ definition.reject_if_present, IsPointer guard false) ∧
        definition.validate_shape parameters = .ok ()) ∧
      PrefixFree (definition.reject_if_present.map segments) := by
  rw [← disjoint_iff]
  unfold TypedProjection.validate
  by_cases hlen : definition.reject_if_present.length > MAX_ROOT_GUARDS
  · rw [if_pos hlen]
    constructor
    · intro h
      cases h
    · rintro ⟨⟨hle, -⟩, -⟩
      omega
  rw [if_neg hlen, except_bind_ok]
  constructor
  · rintro ⟨paths, hpaths, h⟩
    obtain ⟨hguards, rfl⟩ := guard_paths_ok.1 hpaths
    split at h
    case isTrue => cases h
    rename_i hdisjoint
    exact ⟨⟨Nat.le_of_not_lt hlen, hguards, h⟩, by simpa using hdisjoint⟩
  · rintro ⟨⟨-, hguards, h⟩, hdisjoint⟩
    refine ⟨_, guard_paths_ok.2 ⟨hguards, rfl⟩, ?_⟩
    rw [if_neg (by simp [hdisjoint])]
    exact h

end projection

open projection

theorem disjoint_output_fields_iff (pointers : List Str) :
    disjoint_output_fields pointers = true ↔
      (pointers.length ≤ MAX_OUTPUT_FIELDS ∧ ∀ pointer ∈ pointers, valid_pointer pointer = true) ∧
        PrefixFree (pointers.map segments) := by
  rw [← disjoint_iff, disjoint_output_fields, Bool.and_eq_true, Bool.and_eq_true,
    decide_eq_true_eq, List.all_eq_true]

/-- Any two paths of which one goes through the other are found, wherever they stand: among the
output fields of an operation, the fields and collections of a record and the guards of a
projection. -/
theorem neighbours_decide_about_all_paths :
    (∀ paths : List (List Str), disjoint paths = true ↔ PrefixFree paths) ∧
    (∀ pointers : List Str, pointers.length ≤ 64 →
      (∀ pointer ∈ pointers, valid_pointer pointer = true) →
      (disjoint_output_fields pointers = true ↔ PrefixFree (pointers.map segments))) ∧
    (∀ fields collections count key depth,
      validate_fields fields collections count key depth = .ok () ↔
        FieldsChecked fields collections count key depth ∧
          PrefixFree (record_paths fields collections)) ∧
    ∀ (definition : TypedProjection) parameters, definition.validate parameters = .ok () ↔
      (definition.reject_if_present.length ≤ MAX_ROOT_GUARDS ∧
        (∀ guard ∈ definition.reject_if_present, IsPointer guard false) ∧
        definition.validate_shape parameters = .ok ()) ∧
      PrefixFree (definition.reject_if_present.map segments) := by
  refine ⟨disjoint_iff, fun pointers hlen hvalid => ?_, validate_fields_iff, validate_iff⟩
  rw [disjoint_output_fields_iff]
  exact ⟨fun h => h.2, fun h => ⟨⟨hlen, hvalid⟩, h⟩⟩

theorem a_path_and_its_parent_meet :
    disjoint [["a".toList, "b".toList], ["c".toList], ["a".toList]] = false ∧
      PrefixFree [["a".toList, "b".toList], ["c".toList], ["ab".toList]] := by
  obtain ⟨hdisjoint, -⟩ := neighbours_decide_about_all_paths
  refine ⟨?_, (hdisjoint _).1 (by decide)⟩
  rw [← Bool.not_eq_true, hdisjoint]
  unfold PrefixFree Apart
  decide

end openwrt_mcp_core
