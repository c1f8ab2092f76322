-- The reviewed shapes of a response, and the check that accepts a definition of one. A
-- collection holds records, which hold collections again, and the third level is a record
-- of fields only.
import OpenwrtMcp.Json
import OpenwrtMcp.Programs
import OpenwrtMcp.Slices

open json programs slices text

namespace openwrt_mcp_core

inductive CoreError
  | PermissionDenied
  | InvalidDefinition
  | DuplicateOperation
  | CatalogLimitExceeded
  | UnknownOperationReference
  | InvalidArguments
  | MissingArgument
  | UnknownArgument
  | InvalidOutput
  | OutputLimit
  | SelectionNotObserved
  deriving DecidableEq

inductive ParameterKind
  | String
  | Integer
  | Boolean
  deriving DecidableEq

structure Parameter where
  kind : ParameterKind
  required : Bool
  allowed_values : List Str
  deriving DecidableEq

/-- `BTreeMap<String, Parameter>` -/
abbrev Parameters := List (Str × Parameter)

def identifier (value : Str) : Bool :=
  value ≠ [] && len value ≤ 64 && (bytes value).head?.any is_ascii_alphabetic &&
    (bytes value).all fun byte => is_ascii_alphanumeric byte || byte = 95

namespace projection

def SAFE_INTEGER_MAX : Int64 := 9007199254740991
def MAX_COLLECTION_ITEMS : Nat := 256
def MAX_COLLECTION_NODES : Nat := 8
def MAX_RECORD_FIELDS : Nat := 64
def MAX_TEXT_BYTES : Nat := 1024
def MAX_TEXT_ENUM_VALUES : Nat := 16
def MAX_TEXT_OPTION_ITEMS : Nat := 128
def MAX_SCHEMA_DEPTH : Nat := 8
def MAX_POINTER_DEPTH : Nat := 8
def MAX_POINTER_BYTES : Nat := 512
def MAX_ROOT_GUARDS : Nat := 4

inductive Presence
  | Required
  | Optional
  deriving DecidableEq

inductive CounterSource
  | JsonInteger
  | DecimalText
  deriving DecidableEq

inductive ScalarKind
  | Boolean
  | Text (max_bytes : Nat)
  | TextEnum (max_bytes : Nat) (values : List Str)
  | SafeInteger (min max : Int64)
  | FalseOrSafeInteger (min max : Int64)
  | DecimalCounter (source : CounterSource)
  deriving DecidableEq

structure ScalarField where
  name : Str
  source : Str
  presence : Presence
  value : ScalarKind
  deriving DecidableEq

structure TextIdentity where
  name : Str
  max_bytes : Nat
  deriving DecidableEq

structure LeafRecord where
  fields : List ScalarField
  deriving DecidableEq

structure CollectionField (C : Type) where
  name : Str
  presence : Presence
  collection : C
  deriving DecidableEq

structure Record (C : Type) where
  fields : List ScalarField
  collections : List (CollectionField C)
  deriving DecidableEq

inductive Collection (R : Type)
  | TextOption (source : Str) (max_items max_bytes : Nat)
  | RowArray (source : Str) (max_items : Nat) (record : R)
  | ObjectArray (source : Str) (max_items : Nat) (identity : Str) (record : R)
  | ObjectEntries (source : Str) (max_items : Nat) (key : TextIdentity) (record : R)
  | ScalarArray (source : Str) (max_items : Nat) (name : Str) (value : ScalarKind) (unique : Bool)
  deriving DecidableEq

abbrev InnerRecord := Record (Collection LeafRecord)

abbrev RootRecord := Record (Collection InnerRecord)

inductive Selection
  | All
  | ExactOne (parameter : Str)
  deriving DecidableEq

inductive TypedProjection
  | Record (reject_if_present : List Str) (record : RootRecord)
  | Collection (reject_if_present : List Str) (collection : Collection InnerRecord)
      (selection : Selection)
  deriving DecidableEq

/-! ## Pointers -/

/-- Every `~` stands before a `0` or a `1`. -/
def escapes : List UInt8 → Bool
  | [] => true
  | [byte] => byte ≠ 126
  | byte :: next :: rest =>
    if byte = 126 then (next = 48 || next = 49) && escapes rest else escapes (next :: rest)

/-- `part.replace("~1", "/").replace("~0", "~")` -/
def decode_segment (part : Str) : Str := replace_pair '~' '0' '~' (replace_pair '~' '1' '/' part)

def push_segments : List Str → List Str → Except CoreError (List Str)
  | [], result => .ok result
  | part :: rest, result =>
    if result.length = MAX_POINTER_DEPTH then .error .InvalidDefinition
    else if !escapes (bytes part) then .error .InvalidDefinition
    else push_segments rest (result ++ [decode_segment part])

def pointer_segments (pointer : Str) (root_allowed : Bool) : Except CoreError (List Str) :=
  if (pointer = [] && root_allowed) || pointer.head? = some '/' then
    if len pointer > MAX_POINTER_BYTES || '\x00' ∈ pointer then .error .InvalidDefinition
    else push_segments ((pointer.splitOn '/').drop 1) []
  else .error .InvalidDefinition

/-- No path is the start of the one after it, once they are sorted. -/
def disjoint (paths : List (List Str)) : Bool :=
  !(windows2 (sort_by_key id paths)).any fun pair => pair.1.isPrefixOf pair.2

/-! ## The check of a definition -/

def valid_identity (value : Str) (max : Nat) : Bool :=
  value ≠ [] && len value ≤ max && '\x00' ∉ value

def ScalarKind.validate (kind : ScalarKind) : Except CoreError Unit :=
  let valid : Bool := match kind with
    | .Boolean | .DecimalCounter _ => true
    | .Text max_bytes => 1 ≤ max_bytes && max_bytes ≤ MAX_TEXT_BYTES
    | .TextEnum max_bytes values =>
      (1 ≤ max_bytes && max_bytes ≤ MAX_TEXT_BYTES) &&
        (1 ≤ values.length && values.length ≤ MAX_TEXT_ENUM_VALUES) &&
        values.all (valid_identity · max_bytes) && values.dedup.length = values.length
    | .SafeInteger min max | .FalseOrSafeInteger min max =>
      min ≤ max && min ≥ -SAFE_INTEGER_MAX && max ≤ SAFE_INTEGER_MAX
  if valid then .ok () else .error .InvalidDefinition

/-- The names and the paths of a record, as they are gathered. -/
structure Gathered where
  names : List Str
  paths : List (List Str)

def gather_fields : List ScalarField → Gathered → Except CoreError Gathered
  | [], seen => .ok seen
  | field :: rest, seen =>
    if !identifier field.name || field.name ∈ seen.names then .error .InvalidDefinition
    else do
      field.value.validate
      let path ← pointer_segments field.source false
      gather_fields rest ⟨field.name :: seen.names, seen.paths ++ [path]⟩

def gather_collections : List (Str × Str) → Gathered → Except CoreError Gathered
  | [], seen => .ok seen
  | (name, source) :: rest, seen =>
    if !identifier name || name ∈ seen.names then .error .InvalidDefinition
    else do
      let path ← pointer_segments source true
      gather_collections rest ⟨name :: seen.names, seen.paths ++ [path]⟩

def key_names : Option TextIdentity → Except CoreError (List Str)
  | none => .ok []
  | some key =>
    if !identifier key.name || !(1 ≤ key.max_bytes && key.max_bytes ≤ MAX_TEXT_BYTES) then
      .error .InvalidDefinition
    else .ok [key.name]

def validate_fields (fields : List ScalarField) (collections : List (Str × Str)) (count : Nat)
    (key : Option TextIdentity) (depth : Nat) : Except CoreError Unit :=
  if depth > MAX_SCHEMA_DEPTH || count + key.isSome.toNat > MAX_RECORD_FIELDS then
    .error .InvalidDefinition
  else do
    let names ← key_names key
    let seen ← gather_fields fields ⟨names, []⟩
    let seen ← gather_collections collections seen
    if !disjoint seen.paths then .error .InvalidDefinition else .ok ()

/-- The part of `RecordShape` that the check uses. `validate_record` gives back the count of
the collections so far. -/
class RecordCheck (R : Type) where
  fields : R → List ScalarField
  validate_record : R → (depth nodes : Nat) → Option TextIdentity → Except CoreError Nat

namespace Collection

variable {R : Type}

def source : Collection R → Str
  | .TextOption source _ _ | .RowArray source _ _ | .ObjectArray source _ _ _
  | .ObjectEntries source _ _ _ | .ScalarArray source _ _ _ _ => source

variable [RecordCheck R]

def identity_limit : Collection R → Option Nat
  | .ObjectArray _ _ identity record => (RecordCheck.fields record).findSome? fun field =>
    match field.value with
    | .Text max_bytes =>
      if field.name = identity ∧ field.presence = .Required then some max_bytes else none
    | _ => none
  | .ObjectEntries _ _ key _ => some key.max_bytes
  | .ScalarArray .. | .RowArray .. | .TextOption .. => none

def check_max_items (max_items nodes : Nat) : Except CoreError Nat :=
  if 1 ≤ max_items ∧ max_items ≤ MAX_COLLECTION_ITEMS then .ok nodes else .error .InvalidDefinition

def validate_collection (c : Collection R) (depth nodes : Nat) : Except CoreError Nat :=
  let nodes := nodes + 1
  if nodes > MAX_COLLECTION_NODES || depth > MAX_SCHEMA_DEPTH then .error .InvalidDefinition
  else do
    let _ ← pointer_segments c.source true
    match c with
    | .TextOption _ max_items max_bytes =>
      -- a root collection has depth 1
      if depth = 1 || !(1 ≤ max_bytes && max_bytes ≤ MAX_TEXT_BYTES) ||
          !(1 ≤ max_items && max_items ≤ MAX_TEXT_OPTION_ITEMS) then .error .InvalidDefinition
      else check_max_items max_items nodes
    | .RowArray _ max_items record => do
      let nodes ← RecordCheck.validate_record record (depth + 1) nodes none
      check_max_items max_items nodes
    | .ObjectArray _ max_items _ record =>
      if c.identity_limit.isNone then .error .InvalidDefinition
      else do
        let nodes ← RecordCheck.validate_record record (depth + 1) nodes none
        check_max_items max_items nodes
    | .ObjectEntries _ max_items key record => do
      let nodes ← RecordCheck.validate_record record (depth + 1) nodes (some key)
      check_max_items max_items nodes
    | .ScalarArray _ max_items name value _ =>
      if !identifier name then .error .InvalidDefinition
      else do
        value.validate
        check_max_items max_items nodes

end Collection

instance : RecordCheck LeafRecord where
  fields := LeafRecord.fields
  validate_record record depth nodes key := do
    validate_fields record.fields [] record.fields.length key depth
    .ok nodes

/-- The collections of a record, one after the other. -/
def validate_collections {R : Type} [RecordCheck R] (depth : Nat) :
    List (CollectionField (Collection R)) → Nat → Except CoreError Nat
  | [], nodes => .ok nodes
  | field :: rest, nodes => do
    let nodes ← field.collection.validate_collection (depth + 1) nodes
    validate_collections depth rest nodes

instance {R : Type} [RecordCheck R] : RecordCheck (Record (Collection R)) where
  fields := Record.fields
  validate_record record depth nodes key := do
    validate_fields record.fields
      (record.collections.map fun field => (field.name, field.collection.source))
      (record.fields.length + record.collections.length) key depth
    validate_collections depth record.collections nodes

namespace TypedProjection

def reject_if_present : TypedProjection → List Str
  | .Record reject_if_present _ | .Collection reject_if_present _ _ => reject_if_present

/-- What `ExactOne` asks of the parameter that it names. -/
def validate_selection (collection : projection.Collection InnerRecord) (parameters : Parameters) :
    Selection → Except CoreError Unit
  | .All => .ok ()
  | .ExactOne parameter =>
    match collection.identity_limit, parameters.lookup parameter with
    | some max, some parameter =>
      if !parameter.required || parameter.kind ≠ .String ||
          parameter.allowed_values.any (!valid_identity · max) then .error .InvalidDefinition
      else .ok ()
    | _, _ => .error .InvalidDefinition

def guard_paths : List Str → Except CoreError (List (List Str))
  | [] => .ok []
  | pointer :: rest => do
    let path ← pointer_segments pointer false
    let paths ← guard_paths rest
    .ok (path :: paths)

def validate (definition : TypedProjection) (parameters : Parameters) : Except CoreError Unit :=
  if definition.reject_if_present.length > MAX_ROOT_GUARDS then .error .InvalidDefinition
  else do
    let paths ← guard_paths definition.reject_if_present
    if !disjoint paths then .error .InvalidDefinition
    else match definition with
      | .Record _ record => do
        let _ ← RecordCheck.validate_record record 1 0 none
        .ok ()
      | .Collection _ collection selection => do
        let _ ← collection.validate_collection 1 0
        validate_selection collection parameters selection

/-- The parameter that selects a row, and how long it may be. -/
def selector : TypedProjection → Option (Str × Nat)
  | .Collection _ collection (.ExactOne parameter) =>
    collection.identity_limit.map fun max => (parameter, max)
  | _ => none

end TypedProjection

/-! ## What an accepted definition has -/

/-- The check accepts the record, at some depth and after some other collections. -/
def Accepted {R : Type} [RecordCheck R] (record : R) (key : Option TextIdentity) : Prop :=
  ∃ depth nodes nodes', RecordCheck.validate_record record depth nodes key = .ok nodes'

def Collection.Accepted {R : Type} [RecordCheck R] (c : Collection R) : Prop :=
  ∃ depth nodes nodes', c.validate_collection depth nodes = .ok nodes'

/-- The names that a record declares. -/
def declared (key : Option TextIdentity) (fields : List ScalarField) (collections : List Str) :
    List Str :=
  key.toList.map TextIdentity.name ++ (fields.map ScalarField.name ++ collections)

/-- The names of a record are different, and the kinds of its fields are accepted. -/
structure FieldsAccepted (key : Option TextIdentity) (fields : List ScalarField)
    (collections : List Str) : Prop where
  names : (declared key fields collections).Nodup
  kinds : ∀ field ∈ fields, field.value.validate = .ok ()

theorem gather_fields_spec {fields : List ScalarField} {seen seen' : Gathered}
    (h : gather_fields fields seen = .ok seen') (hseen : seen.names.Nodup) :
    seen'.names.Nodup ∧ seen'.names.Perm (seen.names ++ fields.map ScalarField.name) ∧
      ∀ field ∈ fields, field.value.validate = .ok () := by
  induction fields generalizing seen with
  | nil =>
    cases h
    simp [hseen]
  | cons field rest ih =>
    unfold gather_fields at h
    split at h
    · cases h
    · rename_i hnew
      simp only [Bool.or_eq_true, not_or, decide_eq_true_eq] at hnew
      obtain ⟨_, hkind, h⟩ := except_bind_ok.1 h
      obtain ⟨path, _, h⟩ := except_bind_ok.1 h
      obtain ⟨hnodup, hperm, hkinds⟩ := ih h (List.nodup_cons.2 ⟨hnew.2, hseen⟩)
      refine ⟨hnodup, ?_, List.forall_mem_cons.2 ⟨hkind, hkinds⟩⟩
      exact hperm.trans List.perm_middle.symm

theorem gather_collections_spec {collections : List (Str × Str)} {seen seen' : Gathered}
    (h : gather_collections collections seen = .ok seen') (hseen : seen.names.Nodup) :
    seen'.names.Nodup ∧ seen'.names.Perm (seen.names ++ collections.map Prod.fst) := by
  induction collections generalizing seen with
  | nil =>
    cases h
    simp [hseen]
  | cons c rest ih =>
    unfold gather_collections at h
    split at h
    · cases h
    · rename_i hnew
      simp only [Bool.or_eq_true, not_or, decide_eq_true_eq] at hnew
      obtain ⟨path, _, h⟩ := except_bind_ok.1 h
      obtain ⟨hnodup, hperm⟩ := ih h (List.nodup_cons.2 ⟨hnew.2, hseen⟩)
      exact ⟨hnodup, hperm.trans List.perm_middle.symm⟩

theorem key_names_spec {key : Option TextIdentity} {names : List Str}
    (h : key_names key = .ok names) : names = key.toList.map TextIdentity.name := by
  cases key with
  | none => simpa [key_names] using h.symm
  | some key =>
    simp only [key_names] at h
    split at h
    · cases h
    · simpa using h.symm

theorem validate_fields_spec {fields : List ScalarField} {collections : List (Str × Str)}
    {count depth : Nat} {key : Option TextIdentity}
    (h : validate_fields fields collections count key depth = .ok ()) :
    FieldsAccepted key fields (collections.map Prod.fst) := by
  unfold validate_fields at h
  split at h
  · cases h
  · obtain ⟨names, hnames, h⟩ := except_bind_ok.1 h
    obtain ⟨seen, hfields, h⟩ := except_bind_ok.1 h
    obtain ⟨seen', hcollections, -⟩ := except_bind_ok.1 h
    have hnames := key_names_spec hnames
    have hstart : names.Nodup := by
      rw [hnames]
      cases key <;> simp
    obtain ⟨hnodup, hperm, hkinds⟩ := gather_fields_spec hfields hstart
    obtain ⟨hnodup', hperm'⟩ := gather_collections_spec hcollections hnodup
    refine ⟨?_, hkinds⟩
    have hall : seen'.names.Perm (declared key fields (collections.map Prod.fst)) := by
      unfold declared
      rw [← hnames, ← List.append_assoc]
      exact hperm'.trans (hperm.append_right _)
    exact hall.nodup_iff.1 hnodup'

theorem LeafRecord.accepted_spec {record : LeafRecord} {key : Option TextIdentity}
    (h : Accepted record key) : FieldsAccepted key record.fields [] := by
  obtain ⟨depth, nodes, nodes', h⟩ := h
  obtain ⟨_, h, -⟩ := except_bind_ok.1 h
  exact validate_fields_spec h

section
variable {R : Type} [RecordCheck R]

theorem validate_collections_spec {depth nodes nodes' : Nat}
    {collections : List (CollectionField (Collection R))}
    (h : validate_collections depth collections nodes = .ok nodes') :
    ∀ field ∈ collections, field.collection.Accepted := by
  induction collections generalizing nodes with
  | nil => simp
  | cons field rest ih =>
    obtain ⟨count, hfield, h⟩ := except_bind_ok.1 h
    exact List.forall_mem_cons.2 ⟨⟨_, _, _, hfield⟩, ih h⟩

theorem Record.accepted_spec {record : Record (Collection R)} {key : Option TextIdentity}
    (h : Accepted record key) :
    FieldsAccepted key record.fields (record.collections.map CollectionField.name) ∧
      ∀ field ∈ record.collections, field.collection.Accepted := by
  obtain ⟨depth, nodes, nodes', h⟩ := h
  obtain ⟨_, hfields, h⟩ := except_bind_ok.1 h
  have hfields := validate_fields_spec hfields
  rw [List.map_map] at hfields
  exact ⟨hfields, validate_collections_spec h⟩

end

/-- A record that is accepted has no name twice among its fields. -/
class LawfulCheck (R : Type) [RecordCheck R] : Prop where
  names_nodup : ∀ {record : R} {key : Option TextIdentity}, Accepted record key →
    ((RecordCheck.fields record).map ScalarField.name).Nodup

theorem FieldsAccepted.names_nodup {key : Option TextIdentity} {fields : List ScalarField}
    {collections : List Str} (h : FieldsAccepted key fields collections) :
    (fields.map ScalarField.name).Nodup :=
  (List.nodup_append.1 (List.nodup_append.1 h.names).2.1).1

instance : LawfulCheck LeafRecord where
  names_nodup h := (LeafRecord.accepted_spec h).names_nodup

section
variable {R : Type} [RecordCheck R]

instance : LawfulCheck (Record (Collection R)) where
  names_nodup h := (Record.accepted_spec h).1.names_nodup

namespace Collection

/-- The field that the rows of an object array are told apart by. -/
theorem identity_field {pointer identity : Str} {max_items max : Nat} {record : R}
    {field : ScalarField}
    (hlimit : (ObjectArray pointer max_items identity record).identity_limit = some max)
    (hfield : (RecordCheck.fields record).find? (·.name = identity) = some field)
    (hnames : ((RecordCheck.fields record).map ScalarField.name).Nodup) :
    field ∈ RecordCheck.fields record ∧ field.name = identity ∧ field.presence = .Required ∧
      field.value = .Text max := by
  have hmem := List.mem_of_find?_eq_some hfield
  have hname : field.name = identity := by simpa using List.find?_some hfield
  obtain ⟨other, hother, hmatch⟩ := List.exists_of_findSome?_eq_some hlimit
  split at hmatch
  · rename_i max_bytes hkind
    split at hmatch
    · rename_i hsame
      have heq : other = field :=
        List.inj_on_of_nodup_map hnames hother hmem (hsame.1.trans hname.symm)
      rw [← heq]
      cases hmatch
      exact ⟨hother, hsame.1, hsame.2, hkind⟩
    · cases hmatch
  · cases hmatch

/-- What the check of a collection says about what is in it. -/
def PartsAccepted (c : Collection R) : Prop :=
  match c with
  | .TextOption .. => True
  | .RowArray _ _ record => projection.Accepted record none
  | .ObjectArray _ _ _ record => c.identity_limit.isSome ∧ projection.Accepted record none
  | .ObjectEntries _ _ key record => projection.Accepted record (some key)
  | .ScalarArray _ _ _ kind _ => kind.validate = .ok ()

theorem accepted_spec {c : Collection R} (h : c.Accepted) : c.PartsAccepted := by
  obtain ⟨depth, nodes, nodes', h⟩ := h
  simp only [validate_collection] at h
  by_cases hlimits : (decide (nodes + 1 > MAX_COLLECTION_NODES) ||
      decide (depth > MAX_SCHEMA_DEPTH)) = true
  · rw [if_pos hlimits] at h
    cases h
  · rw [if_neg hlimits] at h
    obtain ⟨path, -, h⟩ := except_bind_ok.1 h
    cases c with
    | TextOption source max_items max_bytes => trivial
    | RowArray source max_items record =>
      obtain ⟨count, h, -⟩ := except_bind_ok.1 h
      exact ⟨_, _, _, h⟩
    | ObjectArray source max_items identity record =>
      simp only at h
      split at h
      · cases h
      · rename_i hlimit
        obtain ⟨count, h, -⟩ := except_bind_ok.1 h
        exact ⟨by simpa [Option.isSome_iff_ne_none] using hlimit, _, _, _, h⟩
    | ObjectEntries source max_items key record =>
      obtain ⟨count, h, -⟩ := except_bind_ok.1 h
      exact ⟨_, _, _, h⟩
    | ScalarArray source max_items name kind unique =>
      simp only at h
      split at h
      · cases h
      · obtain ⟨_, h, -⟩ := except_bind_ok.1 h
        exact h

end Collection

end

namespace TypedProjection

/-- What the check of a definition says about its record or its collection. -/
def PartsAccepted : TypedProjection → Prop
  | .Record _ record => Accepted record none
  | .Collection _ collection _ => collection.Accepted

theorem validate_spec {definition : TypedProjection} {parameters : Parameters}
    (h : definition.validate parameters = .ok ()) : definition.PartsAccepted := by
  unfold validate at h
  split at h
  · cases h
  · obtain ⟨paths, -, h⟩ := except_bind_ok.1 h
    split at h
    · cases h
    · cases definition with
      | Record guards record =>
        obtain ⟨count, h, -⟩ := except_bind_ok.1 h
        exact ⟨_, _, _, h⟩
      | Collection guards collection selection =>
        obtain ⟨count, h, -⟩ := except_bind_ok.1 h
        exact ⟨_, _, _, h⟩

/-- A selection of one row is accepted only for rows that have an identity. -/
theorem validate_exact_one {guards : List Str} {c : projection.Collection InnerRecord}
    {parameter : Str} {parameters : Parameters}
    (h : (Collection guards c (.ExactOne parameter)).validate parameters = .ok ()) :
    c.identity_limit.isSome := by
  unfold validate at h
  split at h
  · cases h
  · obtain ⟨paths, -, h⟩ := except_bind_ok.1 h
    split at h
    · cases h
    · obtain ⟨count, -, h⟩ := except_bind_ok.1 h
      cases hlimit : c.identity_limit with
      | none =>
        simp only [validate_selection, hlimit] at h
        cases h
      | some max => rfl

end TypedProjection

end projection

end openwrt_mcp_core
