-- What a projection reads. The pointers of a definition are gathered as uses of the response,
-- and two responses that differ only in members of objects that no use goes through are
-- projected alike, errors included.
import OpenwrtMcp.Projection

open json programs text

namespace openwrt_mcp_core.projection

open RecordCheck RecordShape

/-! ## Uses -/

/-- How a value of the response is used: a pointer goes on at a key, a guard asks whether it is
there, it is read as a scalar, or each item or entry of it is used. -/
inductive Use
  | step (key : Str) (next : Use)
  | present
  | scalar
  | items (each : List Use)
  | entries (each : List Use)

/-- What a pointer that ends in `target` uses. -/
def pointer_use (pointer : Str) (target : Use) : Use := (segments pointer).foldr Use.step target

class RecordUses (R : Type) where
  uses : R → List Use

open RecordUses

def field_use (field : ScalarField) : Use := pointer_use field.source .scalar

instance : RecordUses LeafRecord where
  uses record := record.fields.map field_use

/-- What a collection does with the value that its pointer leads to. -/
def Collection.target {R : Type} [RecordUses R] : Collection R → Use
  | .TextOption .. | .ScalarArray .. => .items [.scalar]
  | .RowArray _ _ record | .ObjectArray _ _ _ record => .items (uses record)
  | .ObjectEntries _ _ _ record => .entries (uses record)

def Collection.use {R : Type} [RecordUses R] (c : Collection R) : Use :=
    pointer_use c.source c.target

instance {R : Type} [RecordUses R] : RecordUses (Record (Collection R)) where
  uses record := record.fields.map field_use ++
    record.collections.map fun field => field.collection.use

def TypedProjection.uses (definition : TypedProjection) : List Use :=
  definition.reject_if_present.map (pointer_use · .present) ++
    match definition with
    | .Record _ record => RecordUses.uses record
    | .Collection _ collection _ => [collection.use]

/-! ## Responses that differ off the paths -/

/-- The uses of an item of an array. -/
def item_uses (us : List Use) (i : Nat) : List Use := us.flatMap fun
  | .step key next => if array_index key = some i then [next] else []
  | .items each => each
  | _ => []

/-- The uses of a member of an object. -/
def member_uses (us : List Use) (key : Str) : List Use := us.flatMap fun
  | .step k next => if k = key then [next] else []
  | .entries each => each
  | _ => []

/-- A pointer goes on at the key. -/
def OnPath (us : List Use) (key : Str) : Prop := ∃ next, .step key next ∈ us

/-- The object is the map of entries of a collection. -/
def EntryMap (us : List Use) : Prop := ∃ each, .entries each ∈ us

/-- Two values differ only in members of objects that are off the paths of the uses. -/
inductive Agree : List Use → Value → Value → Prop
  | same {us : List Use} {v : Value} : Agree us v v
  | array {us : List Use} {items items' : List Value} : .scalar ∉ us →
      items.length = items'.length →
      (∀ (i : Nat) x x', items[i]? = some x → items'[i]? = some x' → Agree (item_uses us i) x x') →
      Agree us (.Array items) (.Array items')
  | object {us : List Use} {fields fields' : Map} : .scalar ∉ us → ¬ EntryMap us →
      (∀ key, OnPath us key → ((fields.get key).isSome ↔ (fields'.get key).isSome)) →
      (∀ key x x', OnPath us key → fields.get key = some x → fields'.get key = some x' →
        Agree (member_uses us key) x x') →
      Agree us (.Object fields) (.Object fields')
  | entries {us : List Use} {fields fields' : Map} : .scalar ∉ us → EntryMap us →
      fields.keys = fields'.keys →
      (∀ (i : Nat) (e e' : Str × Value), fields[i]? = some e → fields'[i]? = some e' →
        Agree (member_uses us e.1) e.2 e'.2) →
      Agree us (.Object fields) (.Object fields')

theorem mem_item_uses_step {us : List Use} {key : Str} {next : Use} {i : Nat}
    (h : .step key next ∈ us) (hkey : array_index key = some i) : next ∈ item_uses us i :=
  List.mem_flatMap.2 ⟨_, h, by simp [hkey]⟩

theorem mem_item_uses_items {us each : List Use} (h : .items each ∈ us) (i : Nat) :
    each ⊆ item_uses us i := fun _ hu => List.mem_flatMap.2 ⟨_, h, hu⟩

theorem mem_member_uses_step {us : List Use} {key : Str} {next : Use} (h : .step key next ∈ us) :
    next ∈ member_uses us key := List.mem_flatMap.2 ⟨_, h, by simp⟩

theorem mem_member_uses_entries {us each : List Use} (h : .entries each ∈ us) (key : Str) :
    each ⊆ member_uses us key := fun _ hu => List.mem_flatMap.2 ⟨_, h, hu⟩

/-- A scalar is the same in both. -/
theorem Agree.eq_of_scalar {us : List Use} {v v' : Value} (h : Agree us v v') (hs : .scalar ∈ us) :
    v = v' := by
  cases h with
  | same => rfl
  | array hn _ _ => exact absurd hs hn
  | object hn _ _ _ => exact absurd hs hn
  | entries hn _ _ _ => exact absurd hs hn

/-- The values serve the uses alike. -/
def AgreeOn (us : List Use) (v v' : Value) : Prop := ∃ more, us ⊆ more ∧ Agree more v v'

theorem AgreeOn.refl (us : List Use) (v : Value) : AgreeOn us v v :=
    ⟨us, List.Subset.refl us, .same⟩

/-! ## Pointers -/

/-- A pointer leads nowhere in both, or to values that serve its target alike. -/
def LookupAgree (target : Use) (r r' : Except CoreError (Option Value)) : Prop :=
  (r = r' ∧ ∀ x, r ≠ .ok (some x)) ∨
    ∃ x x', r = .ok (some x) ∧ r' = .ok (some x') ∧ AgreeOn [target] x x'

theorem LookupAgree.refl (target : Use) (r : Except CoreError (Option Value)) :
    LookupAgree target r r := by
  cases r with
  | error e => exact .inl ⟨rfl, by simp⟩
  | ok o =>
    cases o with
    | none => exact .inl ⟨rfl, by simp⟩
    | some x => exact .inr ⟨x, x, rfl, rfl, AgreeOn.refl _ _⟩

/-- Entries with the same keys, one after the other. -/
theorem entries_forall₂ {fields fields' : Map} {P : Str × Value → Str × Value → Prop}
    (hkeys : fields.keys = fields'.keys)
    (h : ∀ (i : Nat) e e', fields[i]? = some e → fields'[i]? = some e' → P e e') :
    List.Forall₂ (fun e e' => e.1 = e'.1 ∧ P e e') fields fields' := by
  induction fields generalizing fields' with
  | nil =>
    cases fields' with
    | nil => exact .nil
    | cons e' rest' => cases hkeys
  | cons e rest ih =>
    cases fields' with
    | nil => cases hkeys
    | cons e' rest' =>
      simp only [Map.keys, List.map_cons, List.cons.injEq] at hkeys
      refine .cons ⟨hkeys.1, h 0 e e' rfl rfl⟩ (ih hkeys.2 fun i a a' ha ha' => ?_)
      exact h (i + 1) a a' ha ha'

theorem get_forall₂ {fields fields' : Map} {P : Str × Value → Str × Value → Prop}
    (h : List.Forall₂ (fun e e' => e.1 = e'.1 ∧ P e e') fields fields') (key : Str) :
    (fields.get key = none ∧ fields'.get key = none) ∨
      ∃ x x', fields.get key = some x ∧ fields'.get key = some x' ∧ P (key, x) (key, x') := by
  induction h with
  | nil => exact .inl ⟨rfl, rfl⟩
  | @cons e e' rest rest' he _ ih =>
    obtain ⟨k, x⟩ := e
    obtain ⟨k', x'⟩ := e'
    obtain ⟨rfl, hp⟩ := he
    unfold Map.get at ih ⊢
    by_cases hk : key = k
    · subst hk
      exact .inr ⟨x, x', by simp, by simp, hp⟩
    · rw [List.lookup_cons, List.lookup_cons, beq_false_of_ne hk]
      exact ih

theorem lookup_segments_agree {us : List Use} {v v' : Value} {path : List Str} {target : Use}
    (h : Agree us v v') (huse : path.foldr Use.step target ∈ us) :
    LookupAgree target (lookup_segments v path) (lookup_segments v' path) := by
  induction path generalizing us v v' with
  | nil =>
    have hend : ∀ x, lookup_segments x [] = .ok (some x) := by simp [lookup_segments]
    exact .inr ⟨v, v', hend v, hend v', us, by simpa using huse, h⟩
  | cons key rest ih =>
    cases h with
    | same => exact LookupAgree.refl _ _
    | @array _ items items' _ hlength heach =>
      simp only [lookup_segments]
      cases hindex : array_index key with
      | none => exact LookupAgree.refl _ _
      | some i =>
        simp only
        by_cases hi : i < 2 ^ 64
        case neg =>
          rw [if_neg hi, if_neg hi]
          exact LookupAgree.refl _ _
        rw [if_pos hi, if_pos hi]
        by_cases hlt : i < items.length
        · have hlt' : i < items'.length := hlength ▸ hlt
          rw [List.getElem?_eq_getElem hlt, List.getElem?_eq_getElem hlt']
          refine ih (heach i _ _ (List.getElem?_eq_getElem hlt) (List.getElem?_eq_getElem hlt')) ?_
          exact mem_item_uses_step huse hindex
        · rw [List.getElem?_eq_none (Nat.le_of_not_lt hlt),
            List.getElem?_eq_none (hlength ▸ Nat.le_of_not_lt hlt)]
          exact LookupAgree.refl _ _
    | @object _ fields fields' _ _ hsome heach =>
      have hpath : OnPath us key := ⟨_, huse⟩
      have hsome := hsome key hpath
      simp only [lookup_segments]
      cases hx : fields.get key with
      | none =>
        have hx' : fields'.get key = none := by simpa [hx] using hsome
        rw [hx']
        exact LookupAgree.refl _ _
      | some x =>
        obtain ⟨x', hx'⟩ := Option.isSome_iff_exists.1 (hsome.1 (by simp [hx]))
        rw [hx']
        exact ih (heach key x x' hpath hx hx') (mem_member_uses_step huse)
    | @entries _ fields fields' _ _ hkeys heach =>
      simp only [lookup_segments]
      rcases get_forall₂ (entries_forall₂ hkeys heach) key with ⟨hx, hx'⟩ | ⟨x, x', hx, hx', hagree⟩
      · rw [hx, hx']
        exact LookupAgree.refl _ _
      · rw [hx, hx']
        exact ih hagree (mem_member_uses_step huse)

theorem lookup_agree {us : List Use} {v v' : Value} {pointer : Str} {target : Use}
    (h : AgreeOn us v v') (huse : pointer_use pointer target ∈ us) :
    LookupAgree target (lookup v pointer) (lookup v' pointer) := by
  obtain ⟨more, hsub, hagree⟩ := h
  exact lookup_segments_agree hagree (hsub huse)

/-- What is read as a scalar is found alike. -/
theorem lookup_scalar {us : List Use} {v v' : Value} {pointer : Str} (h : AgreeOn us v v')
    (huse : pointer_use pointer .scalar ∈ us) : lookup v pointer = lookup v' pointer := by
  rcases lookup_agree h huse with ⟨heq, -⟩ | ⟨x, x', hx, hx', more, hsub, hagree⟩
  · exact heq
  · rw [hx, hx', hagree.eq_of_scalar (hsub (by simp))]

theorem AgreeOn.is_object {us : List Use} {v v' : Value} (h : AgreeOn us v v') :
    is_object v = is_object v' := by
  obtain ⟨more, -, hagree⟩ := h
  cases hagree <;> rfl

/-- Arrays have items that serve their uses alike. -/
theorem AgreeOn.items {us : List Use} {v v' : Value} (h : AgreeOn [.items us] v v') :
    (as_array v = none ∧ as_array v' = none) ∨
      ∃ items items', as_array v = some items ∧ as_array v' = some items' ∧
        List.Forall₂ (AgreeOn us) items items' := by
  obtain ⟨more, hsub, hagree⟩ := h
  have huse : .items us ∈ more := hsub (by simp)
  cases hagree with
  | same =>
    cases hv : as_array v with
    | none => exact .inl ⟨rfl, rfl⟩
    | some items =>
      exact .inr ⟨items, items, rfl, rfl, List.forall₂_same.2 fun x _ => AgreeOn.refl us x⟩
  | @array _ items items' _ hlength heach =>
    refine .inr ⟨items, items', rfl, rfl, List.forall₂_iff_get.2 ⟨hlength, fun i hi hi' => ?_⟩⟩
    refine ⟨item_uses more i, mem_item_uses_items huse i, ?_⟩
    exact heach i _ _ (List.getElem?_eq_getElem hi) (List.getElem?_eq_getElem hi')
  | object _ _ _ _ => exact .inl ⟨rfl, rfl⟩
  | entries _ _ _ _ => exact .inl ⟨rfl, rfl⟩

/-- Maps of entries have the same keys, with values that serve their uses alike. -/
theorem AgreeOn.entries {us : List Use} {v v' : Value} (h : AgreeOn [.entries us] v v') :
    (as_object v = none ∧ as_object v' = none) ∨
      ∃ fields fields' : Map, as_object v = some fields ∧ as_object v' = some fields' ∧
        List.Forall₂ (fun e e' => e.1 = e'.1 ∧ AgreeOn us e.2 e'.2) fields fields' := by
  obtain ⟨more, hsub, hagree⟩ := h
  have huse : .entries us ∈ more := hsub (by simp)
  cases hagree with
  | same =>
    cases hv : as_object v with
    | none => exact .inl ⟨rfl, rfl⟩
    | some fields =>
      exact .inr ⟨fields, fields, rfl, rfl,
        List.forall₂_same.2 fun e _ => ⟨rfl, AgreeOn.refl us e.2⟩⟩
  | array _ _ _ => exact .inl ⟨rfl, rfl⟩
  | object _ hno _ _ => exact absurd ⟨us, huse⟩ hno
  | @entries _ fields fields' _ _ hkeys heach =>
    refine .inr ⟨fields, fields', rfl, rfl, (entries_forall₂ hkeys heach).imp ?_⟩
    intro e e' h
    exact ⟨h.1, member_uses more e.1, mem_member_uses_entries huse e.1, h.2⟩

/-! ## Runs on two responses -/

theorem agree_scalars {items items' : List Value}
    (h : List.Forall₂ (AgreeOn [.scalar]) items items') :
    items = items' := by
  have heq : List.Forall₂ Eq items items' := by
    refine h.imp fun x x' hx => ?_
    obtain ⟨more, hsub, hagree⟩ := hx
    exact hagree.eq_of_scalar (hsub (by simp))
  rwa [List.forall₂_eq_eq_eq] at heq

theorem AgreeOn.as_array {v v' : Value} (h : AgreeOn [.items [.scalar]] v v') :
    json.as_array v = json.as_array v' := by
  rcases h.items with ⟨hv, hv'⟩ | ⟨items, items', hv, hv', hitems⟩
  · rw [hv, hv']
  · rw [hv, hv', agree_scalars hitems]

theorem AgreeOn.text_option_kind {v v' : Value} (h : AgreeOn [.items [.scalar]] v v') :
    projection.text_option_kind v = projection.text_option_kind v' := by
  have harray := h.as_array
  obtain ⟨more, -, hagree⟩ := h
  cases hagree with
  | same => rfl
  | array _ _ _ =>
    rw [Option.some.inj harray]
  | object _ _ _ _ => rfl
  | entries _ _ _ _ => rfl

theorem scalar_fields_agree {us : List Use} {v v' : Value} (h : AgreeOn us v v') (limit : ByteLimit)
    (emit : Bool) {fields : List ScalarField} (huses : fields.map field_use ⊆ us) (result : Map) :
    scalar_fields limit v emit fields result = scalar_fields limit v' emit fields result := by
  induction fields generalizing result with
  | nil => rfl
  | cons field rest ih =>
    rw [List.map_cons, List.cons_subset] at huses
    have hrest := ih huses.2
    unfold scalar_fields
    rw [lookup_scalar h huses.1]
    simp only [hrest]

theorem record_fields_agree {us : List Use} {v v' : Value} (h : AgreeOn us v v') (limit : ByteLimit)
    (emit : Bool) {fields : List ScalarField} (huses : fields.map field_use ⊆ us)
    (key : Option (TextIdentity × Str)) :
    record_fields limit fields v key emit = record_fields limit fields v' key emit := by
  unfold record_fields
  rw [h.is_object]
  simp only [scalar_fields_agree h limit emit huses]

/-- A record is projected alike from values that serve its uses alike. -/
class UsedRecord (R : Type) [RecordShape R] [RecordUses R] : Prop where
  project_record_agree : ∀ {record : R} {v v' : Value}, AgreeOn (uses record) v v' →
    ∀ (limit : ByteLimit) (key : Option (TextIdentity × Str)) (emit : Bool),
      project_record limit record v key emit = project_record limit record v' key emit
  field_used : ∀ (record : R), ∀ field ∈ fields record, field_use field ∈ uses record

instance : UsedRecord LeafRecord where
  project_record_agree h limit key emit := by
    simp only [project_record, record_fields_agree h limit emit (List.Subset.refl _) key]
  field_used record field hfield := List.mem_map_of_mem hfield

section
variable {R : Type} [RecordShape R] [RecordUses R] [UsedRecord R] {record : R}

open UsedRecord

theorem row_array_agree (limit : ByteLimit) (emit : Bool) {items items' : List Value}
    (h : List.Forall₂ (AgreeOn (uses record)) items items') (acc : Rows) :
    row_array limit record emit items acc = row_array limit record emit items' acc := by
  induction h generalizing acc with
  | nil => rfl
  | cons hx _ ih =>
    unfold row_array
    rw [project_record_agree hx]
    simp only [ih]

theorem object_array_agree (limit : ByteLimit) (selector : Option Str) (emit : Bool)
    {field : ScalarField} (hfield : field ∈ fields record) (max : Nat) {items items' : List Value}
    (h : List.Forall₂ (AgreeOn (uses record)) items items') (identities : List Str) (acc : Rows) :
    object_array limit record selector emit field.source max items identities acc =
      object_array limit record selector emit field.source max items' identities acc := by
  induction h generalizing identities acc with
  | nil => rfl
  | cons hx _ ih =>
    unfold object_array
    rw [lookup_scalar hx (field_used record field hfield)]
    simp only [ih, identified_row, project_record_agree hx]

theorem object_entries_agree (limit : ByteLimit) (selector : Option Str) (emit : Bool)
    (key : TextIdentity) {entries entries' : Map}
    (h : List.Forall₂ (fun e e' => e.1 = e'.1 ∧ AgreeOn (uses record) e.2 e'.2) entries entries')
    (acc : Rows) :
    object_entries limit record selector emit key entries acc =
      object_entries limit record selector emit key entries' acc := by
  induction h generalizing acc with
  | nil => rfl
  | @cons e e' _ _ he _ ih =>
    obtain ⟨identity, value⟩ := e
    obtain ⟨identity', value'⟩ := e'
    obtain ⟨rfl, hx⟩ := he
    unfold object_entries
    simp only [ih, identified_row, project_record_agree hx]

theorem Collection.project_at_agree {c : Collection R} {v v' : Value} (h : AgreeOn [c.target] v v')
    (limit : ByteLimit) (selector : Option Str) (emit : Bool) :
    c.project_at limit v selector emit = c.project_at limit v' selector emit := by
  cases c with
  | TextOption pointer max_items max_bytes =>
    unfold Collection.project_at project_text_option
    rw [AgreeOn.text_option_kind h]
  | RowArray pointer max_items record =>
    unfold Collection.project_at
    have hrows : (RowArray pointer max_items record).project_rows limit v selector emit =
        (RowArray pointer max_items record).project_rows limit v' selector emit := by
      unfold Collection.project_rows
      rcases AgreeOn.items h with ⟨hv, hv'⟩ | ⟨items, items', hv, hv', hitems⟩
      · rw [hv, hv']
      · simp only [hv, hv', Prog.ok_or_some_bind, hitems.length_eq,
          row_array_agree limit emit hitems]
    rw [hrows]
  | ObjectArray pointer max_items identity record =>
    unfold Collection.project_at
    have hrows : (ObjectArray pointer max_items identity record).project_rows limit v selector
      emit =
        (ObjectArray pointer max_items identity record).project_rows limit v' selector emit := by
      unfold Collection.project_rows
      rcases AgreeOn.items h with ⟨hv, hv'⟩ | ⟨items, items', hv, hv', hitems⟩
      · rw [hv, hv']
      · simp only [hv, hv', Prog.ok_or_some_bind, hitems.length_eq]
        cases hfield : (fields record).find? (·.name = identity) with
        | none => rfl
        | some field =>
          have hmem := List.mem_of_find?_eq_some hfield
          simp only [Prog.ok_or_some_bind, object_array_agree limit selector emit hmem _ hitems]
    rw [hrows]
  | ObjectEntries pointer max_items key record =>
    unfold Collection.project_at
    have hrows : (ObjectEntries pointer max_items key record).project_rows limit v selector emit =
        (ObjectEntries pointer max_items key record).project_rows limit v' selector emit := by
      unfold Collection.project_rows
      rcases AgreeOn.entries h with ⟨hv, hv'⟩ | ⟨entries, entries', hv, hv', hentries⟩
      · rw [hv, hv']
      · simp only [hv, hv', Prog.ok_or_some_bind, hentries.length_eq,
          object_entries_agree limit selector emit key hentries]
    rw [hrows]
  | ScalarArray pointer max_items name kind unique =>
    unfold Collection.project_at
    have hrows : (ScalarArray pointer max_items name kind unique : Collection R).project_rows
      limit v
        selector emit = (ScalarArray pointer max_items name kind unique : Collection R).project_rows
        limit v' selector emit := by
      unfold Collection.project_rows
      rw [AgreeOn.as_array h]
    rw [hrows]

theorem collection_fields_agree {us : List Use} {v v' : Value} (h : AgreeOn us v v')
    (limit : ByteLimit) (emit : Bool) {fields : List (CollectionField (Collection R))}
    (huses : fields.map (fun field => field.collection.use) ⊆ us) (result : Map) :
    collection_fields limit v emit fields result =
      collection_fields limit v' emit fields result := by
  induction fields generalizing result with
  | nil => rfl
  | cons field rest ih =>
    rw [List.map_cons, List.cons_subset] at huses
    have hrest := ih huses.2
    unfold collection_fields
    rcases lookup_agree h huses.1 with ⟨heq, -⟩ | ⟨x, x', hx, hx', hagree⟩
    · rw [heq]
      simp only [hrest]
    · rw [hx, hx']
      simp only [Prog.lift_ok_bind, hrest, Collection.project_at_agree hagree]

instance : UsedRecord (Record (Collection R)) where
  project_record_agree := by
    intro record v v' h limit key emit
    simp only [project_record]
    rw [record_fields_agree h limit emit (List.subset_append_left _ _) key]
    simp only [collection_fields_agree h limit emit (List.subset_append_right _ _)]
  field_used record field hfield := List.mem_append_left _ (List.mem_map_of_mem hfield)

end

theorem check_guards_agree {us : List Use} {v v' : Value} (h : AgreeOn us v v') {guards : List Str}
    (huses : guards.map (pointer_use · .present) ⊆ us) :
      check_guards v guards = check_guards v' guards := by
  induction guards with
  | nil => rfl
  | cons pointer rest ih =>
    rw [List.map_cons, List.cons_subset] at huses
    unfold check_guards
    rcases lookup_agree h huses.1 with ⟨heq, -⟩ | ⟨x, x', hx, hx', -⟩
    · rw [heq, ih huses.2]
    · rw [hx, hx']
      rfl

/-- Data that no pointer of the definition goes through neither appears in the result nor has a
part in it: the result is the same, and so is the error. -/
theorem undeclared_data_has_no_influence (definition : TypedProjection) (selector : Option Str)
    (source source' : Value) (h : Agree definition.uses source source') :
    project definition selector source = project definition selector source' := by
  have hagree : AgreeOn definition.uses source source' := ⟨_, List.Subset.refl _, h⟩
  have hguards := check_guards_agree hagree (List.subset_append_left _ _)
  have hproject : project_definition .normalized definition selector source =
      project_definition .normalized definition selector source' := by
    cases definition with
    | Record guards record =>
      have hrecord : AgreeOn (uses record) source source' :=
        ⟨_, List.subset_append_right _ _, h⟩
      exact UsedRecord.project_record_agree hrecord .normalized none true
    | Collection guards c selection =>
      unfold project_definition
      have huse : c.use ∈ (TypedProjection.Collection guards c selection).uses :=
        List.mem_append_right _ (by simp)
      rcases lookup_agree hagree huse with ⟨heq, -⟩ | ⟨x, x', hx, hx', hvalue⟩
      · simp only [heq]
      · simp only [hx, hx', Prog.lift_ok_bind, Prog.ok_or_some_bind,
          Collection.project_at_agree hvalue]
  unfold project project_within evaluate
  rw [hguards, hproject]

/-- A record of one field. -/
def one_field : TypedProjection :=
  .Record [] ⟨[⟨"up".toList, "/up".toList, .Required, .Boolean⟩], []⟩

theorem a_secret_beside_a_field_has_no_influence :
    project one_field none (.Object [("secret".toList, .Null), ("up".toList, .Bool true)]) =
      project one_field none (.Object [("up".toList, .Bool true)]) := by
  refine undeclared_data_has_no_influence one_field none _ _ ?_
  have huses : one_field.uses = [.step "up".toList .scalar] := by rfl
  rw [huses]
  refine .object (by simp) (by simp [EntryMap]) (fun key hkey => ?_) fun key x x' hkey hx hx' => ?_
  · obtain ⟨next, hnext⟩ := hkey
    have hup : key = "up".toList := by simp_all
    subst hup
    decide
  · obtain ⟨next, hnext⟩ := hkey
    have hup : key = "up".toList := by simp_all
    subst hup
    cases hx
    cases hx'
    exact .same

end openwrt_mcp_core.projection
