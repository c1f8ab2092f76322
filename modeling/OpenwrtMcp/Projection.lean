-- The evaluation of a projection: the fields of a definition are looked up in a response and
-- copied, and every byte of the result is charged to a budget before it is made.
import OpenwrtMcp.Programs
import OpenwrtMcp.ProjectionSchema

open json programs text

namespace openwrt_mcp_core.projection

/-! ## The budget -/

def MAX_NORMALIZED_BYTES : Nat := 65536

structure Budget where
  bytes : Nat
  scanned : Nat
  emitted : Nat
  deriving DecidableEq

def Budget.default : Budget := ⟨0, 0, 0⟩

/-- The limit on the bytes: the one of the source, or none. -/
inductive ByteLimit
  | normalized
  | removed
  deriving DecidableEq

/-- `checked_add` and the comparison after it. -/
def ByteLimit.allows : ByteLimit → Nat → Bool
  | .normalized, total => total < 2 ^ 64 && total ≤ MAX_NORMALIZED_BYTES
  | .removed, _ => true

/-- What is done with a budget. -/
abbrev Charge := Prog Budget CoreError

section
variable (limit : ByteLimit)

def budget.bytes (count : Nat) : Charge Unit := fun b =>
  if limit.allows (b.bytes + count) then (.ok (), { b with bytes := b.bytes + count })
  else (.error .OutputLimit, b)

def budget.scan (count max : Nat) : Charge Unit := fun b =>
  if count > max then (.error .OutputLimit, b)
  else if b.scanned + count < 2 ^ 64 && b.scanned + count ≤ MAX_COLLECTION_ITEMS then
    (.ok (), { b with scanned := b.scanned + count })
  else (.error .OutputLimit, b)

def budget.emit : Charge Unit := fun b =>
  if b.emitted + 1 > MAX_COLLECTION_ITEMS then (.error .OutputLimit, b)
  else (.ok (), { b with emitted := b.emitted + 1 })

/-- What a byte of a text costs. -/
def escaped_bytes : UInt8 → Nat
  | 34 | 92 | 8 | 9 | 10 | 12 | 13 => 2
  | byte => if byte ≤ 31 then 6 else 1

/-- The loop of `text` over the bytes. -/
def count_text : List UInt8 → Nat → Option Nat
  | [], count => some count
  | byte :: rest, count =>
    if limit.allows (count + escaped_bytes byte) then count_text rest (count + escaped_bytes byte)
    else none

/-- What a text costs, unless it is past the limit. -/
def text_bytes (value : Str) : Option Nat :=
  if limit.allows (len value) then count_text limit (bytes value) 2 else none

def budget.text (value : Str) : Charge Unit := do
  let count ← Prog.ok_or (text_bytes limit value) .OutputLimit
  budget.bytes limit count

def budget.key (value : Str) (previous : Bool) : Charge Unit := do
  budget.text limit value
  budget.bytes limit (1 + previous.toNat)

end

/-! ## Scalars -/

/-- The index that a segment names in an array; `none` when it is no number of digits. -/
def array_index (key : Str) : Option Nat :=
  if key = [] || (len key > 1 && key.head? = some '0') || !(bytes key).all is_ascii_digit then none
  else some (parse_digits key)

def lookup_segments : Value → List Str → Except CoreError (Option Value)
  | current, [] => .ok (some current)
  | .Object fields, key :: rest =>
    match Map.get fields key with
    | none => .ok none
    | some next => lookup_segments next rest
  | .Array items, key :: rest =>
    match array_index key with
    | none => .error .InvalidOutput
    | some index =>
      match if index < 2 ^ 64 then items[index]? else none with
      | none => .ok none
      | some next => lookup_segments next rest
  | _, _ :: _ => .error .InvalidOutput

/-- The segments of a pointer, decoded. -/
def segments (pointer : Str) : List Str := ((pointer.splitOn '/').drop 1).map decode_segment

def lookup (source : Value) (pointer : Str) : Except CoreError (Option Value) :=
  lookup_segments source (segments pointer)

inductive Scalar
  | Boolean (value : Bool)
  | Text (value : Str)
  | Integer (value : Int64)
  | Counter (value : UInt64)
  deriving DecidableEq

namespace Scalar

def read_text (max_bytes : Nat) (value : Value) : Except CoreError Scalar :=
  match as_str value with
  | none => .error .InvalidOutput
  | some text =>
    if len text > max_bytes || '\x00' ∈ text then .error .InvalidOutput else .ok (.Text text)

def read_integer (min max : Int64) (value : Value) : Except CoreError Scalar :=
  match as_i64 value with
  | none => .error .InvalidOutput
  | some integer =>
    if integer < min || integer > max then .error .InvalidOutput else .ok (.Integer integer)

def read_counter (value : Value) : CounterSource → Except CoreError Scalar
  | .JsonInteger =>
    match as_u64 value with
    | none => .error .InvalidOutput
    | some n => .ok (.Counter n)
  | .DecimalText =>
    match as_str value with
    | none => .error .InvalidOutput
    | some text =>
      if text = [] || len text > 20 || (len text > 1 && text.head? = some '0') ||
          !(bytes text).all is_ascii_digit then .error .InvalidOutput
      else
        match parse_u64 text with
        | none => .error .InvalidOutput
        | some n => .ok (.Counter (UInt64.ofNat n))

def read (kind : ScalarKind) (value : Value) : Except CoreError Scalar :=
  match kind with
  | .Boolean =>
    match as_bool value with
    | none => .error .InvalidOutput
    | some b => .ok (.Boolean b)
  | .Text max_bytes => read_text max_bytes value
  | .TextEnum max_bytes values =>
    match as_str value with
    | none => .error .InvalidOutput
    | some text =>
      if !valid_identity text max_bytes || text ∉ values then .error .InvalidOutput
      else .ok (.Text text)
  | .SafeInteger min max => read_integer min max value
  | .FalseOrSafeInteger min max =>
    if as_bool value = some false then .ok (.Boolean false) else read_integer min max value
  | .DecimalCounter source => read_counter value source

/-- The value that a scalar is returned as. -/
def value : Scalar → Value
  | .Boolean value => .Bool value
  | .Text value => .String value
  | .Integer value => from_i64 value
  | .Counter value => .String (decimal value.toNat)

variable (limit : ByteLimit)

/-- The bytes of a scalar, charged before it is made. -/
def charge : Scalar → Charge Unit
  | .Boolean value => budget.bytes limit (if value then 4 else 5)
  | .Text value => budget.text limit value
  | .Integer value => budget.bytes limit (len (signed_decimal value.toInt))
  | .Counter value => budget.text limit (decimal value.toNat)

def to_value (scalar : Scalar) : Charge Value := do
  scalar.charge limit
  pure scalar.value

end Scalar

/-! ## Records -/

section
variable (limit : ByteLimit)

/-- A value under a name, in the object that is built. -/
def insert_field (result : Map) (name : Str) (scalar : Scalar) : Charge Map := do
  budget.key limit name (!result.isEmpty)
  let value ← scalar.to_value limit
  pure (result.insert name value)

def emit_field (emit : Bool) (result : Map) (name : Str) (scalar : Scalar) : Charge Map :=
  if emit then insert_field limit result name scalar else pure result

def key_field (key : Option (TextIdentity × Str)) (emit : Bool) : Charge Map :=
  match key with
  | none => pure []
  | some (identity, value) =>
    if !valid_identity value identity.max_bytes then Prog.stop .InvalidOutput
    else emit_field limit emit [] identity.name (.Text value)

def scalar_fields (source : Value) (emit : Bool) : List ScalarField → Map → Charge Map
  | [], result => pure result
  | field :: rest, result => do
    match ← Prog.lift (lookup source field.source) with
    | none =>
      if field.presence = .Required then Prog.stop .InvalidOutput
      else scalar_fields source emit rest result
    | some value => do
      let scalar ← Prog.lift (Scalar.read field.value value)
      let result ← emit_field limit emit result field.name scalar
      scalar_fields source emit rest result

def record_fields (fields : List ScalarField) (source : Value) (key : Option (TextIdentity × Str))
    (emit : Bool) : Charge Map :=
  if !is_object source then Prog.stop .InvalidOutput
  else do
    Prog.when emit (budget.bytes limit 2)
    let result ← key_field limit key emit
    scalar_fields limit source emit fields result

end

/-- A record that can be projected. -/
class RecordShape (R : Type) extends RecordCheck R where
  project_record : ByteLimit → R → Value → Option (TextIdentity × Str) → (emit : Bool) →
    Charge (Option Value)

open RecordCheck RecordShape

instance : RecordShape LeafRecord where
  project_record limit record source key emit := do
    let fields ← record_fields limit record.fields source key emit
    pure (if emit then some (.Object fields) else none)

/-! ## Collections -/

section
variable (limit : ByteLimit)

/-- A value of a text option. -/
def emit_text (emit : Bool) (scalar : Scalar) (projected : List Value) : Charge (List Value) :=
  if emit then do
    budget.emit
    budget.bytes limit (!projected.isEmpty).toNat
    let value ← scalar.to_value limit
    pure (projected ++ [value])
  else pure projected

def text_values (max_bytes : Nat) (emit : Bool) : List Value → List Value → Charge (List Value)
  | [], projected => pure projected
  | value :: rest, projected => do
    let scalar ← Prog.lift (Scalar.read (.Text max_bytes) value)
    let projected ← emit_text limit emit scalar projected
    text_values max_bytes emit rest projected

/-- The kind of a text option and its values. -/
def text_option_kind : Value → Option (Str × List Value)
  | .String value => some ("string".toList, [.String value])
  | .Array values => some ("list".toList, values)
  | _ => none

def project_text_option (source : Value) (max_items max_bytes : Nat) (emit : Bool) :
    Charge (Option Value) := do
  let (kind, values) ← Prog.ok_or (text_option_kind source) .InvalidOutput
  budget.scan values.length max_items
  Prog.when emit do
    budget.bytes limit 2
    budget.key limit "kind".toList false
    budget.text limit kind
    budget.key limit "values".toList true
    budget.bytes limit 2
  let projected ← text_values limit max_bytes emit values []
  pure (if emit then
    some (.Object [("kind".toList, .String kind), ("values".toList, .Array projected)]) else none)

variable {R : Type} [RecordShape R]

/-- What the loops over rows carry along. -/
structure Rows where
  rows : List Value
  selected : Option Value
  observed : Bool

def row_array (record : R) (emit : Bool) : List Value → Rows → Charge Rows
  | [], acc => pure acc
  | value :: rest, acc => do
    Prog.when emit do
      budget.emit
      budget.bytes limit (!acc.rows.isEmpty).toNat
    let result ← project_record limit record value none emit
    row_array record emit rest { acc with rows := acc.rows ++ result.toList }

/-- A row whose identity is accepted: it is emitted when it matches. -/
def identified_row (record : R) (selector : Option Str) (emit : Bool) (identity : Str)
    (key : Option (TextIdentity × Str)) (value : Value) (acc : Rows) : Charge Rows := do
  let is_match := selector.all (· = identity)
  Prog.when (emit && is_match) do
    budget.emit
    Prog.when selector.isNone (budget.bytes limit (!acc.rows.isEmpty).toNat)
  let result ← project_record limit record value key (emit && is_match)
  let observed := acc.observed || is_match
  pure (match result with
    | none => { acc with observed }
    | some result =>
      if selector.isSome then { acc with observed, selected := some result }
      else { acc with observed, rows := acc.rows ++ [result] })

def object_array (record : R) (selector : Option Str) (emit : Bool) (identity_source : Str)
    (max : Nat) : List Value → List Str → Rows → Charge Rows
  | [], _, acc => pure acc
  | value :: rest, identities, acc => do
    let found ← Prog.lift (lookup value identity_source)
    let identity ← Prog.ok_or (found.bind as_str) .InvalidOutput
    if !valid_identity identity max || identity ∈ identities then Prog.stop .InvalidOutput
    else do
      let acc ← identified_row limit record selector emit identity none value acc
      object_array record selector emit identity_source max rest (identity :: identities) acc

def object_entries (record : R) (selector : Option Str) (emit : Bool) (key : TextIdentity) :
    Map → Rows → Charge Rows
  | [], acc => pure acc
  | (identity, value) :: rest, acc =>
    if !valid_identity identity key.max_bytes then Prog.stop .InvalidOutput
    else do
      let acc ← identified_row limit record selector emit identity (some (key, identity)) value acc
      object_entries record selector emit key rest acc

/-- A row of one scalar. -/
def emit_scalar (name : Str) (emit : Bool) (scalar : Scalar) (acc : Rows) : Charge Rows :=
  if emit then do
    budget.emit
    budget.bytes limit (2 + (!acc.rows.isEmpty).toNat)
    budget.key limit name false
    let value ← scalar.to_value limit
    pure { acc with rows := acc.rows ++ [.Object [(name, value)]] }
  else pure acc

def scalar_array (name : Str) (kind : ScalarKind) (unique emit : Bool) :
    List Value → List Scalar → Rows → Charge Rows
  | [], _, acc => pure acc
  | value :: rest, identities, acc => do
    let scalar ← Prog.lift (Scalar.read kind value)
    if unique && scalar = .Text [] then Prog.stop .InvalidOutput
    else do
      let acc ← emit_scalar limit name emit scalar acc
      if unique && scalar ∈ identities then Prog.stop .InvalidOutput
      else scalar_array name kind unique emit rest (scalar :: identities) acc

namespace Collection

/-- The rows of a collection: the `match` of `project_at`. -/
def project_rows (c : Collection R) (source : Value) (selector : Option Str) (emit : Bool) :
    Charge Rows :=
  match c with
  | .TextOption .. => Prog.stop .InvalidDefinition
  | .RowArray _ max_items record =>
    if selector.isSome then Prog.stop .InvalidDefinition
    else do
      let values ← Prog.ok_or (as_array source) .InvalidOutput
      budget.scan values.length max_items
      row_array limit record emit values ⟨[], none, false⟩
  | .ObjectArray _ max_items identity record => do
    let values ← Prog.ok_or (as_array source) .InvalidOutput
    budget.scan values.length max_items
    let identity_field ← Prog.ok_or ((fields record).find? (·.name = identity)) .InvalidDefinition
    let max ← Prog.ok_or c.identity_limit .InvalidDefinition
    object_array limit record selector emit identity_field.source max values [] ⟨[], none, false⟩
  | .ObjectEntries _ max_items key record => do
    let values ← Prog.ok_or (as_object source) .InvalidOutput
    budget.scan values.length max_items
    object_entries limit record selector emit key values ⟨[], none, false⟩
  | .ScalarArray _ max_items name kind unique =>
    if selector.isSome then Prog.stop .InvalidDefinition
    else do
      let values ← Prog.ok_or (as_array source) .InvalidOutput
      budget.scan values.length max_items
      scalar_array limit name kind unique emit values [] ⟨[], none, false⟩

def project_at (c : Collection R) (source : Value) (selector : Option Str) (emit : Bool) :
    Charge (Option Value) :=
  match c with
  | .TextOption _ max_items max_bytes =>
    if selector.isSome then Prog.stop .InvalidDefinition
    else project_text_option limit source max_items max_bytes emit
  | _ => do
    Prog.when (emit && selector.isNone) (budget.bytes limit 2)
    let acc ← c.project_rows limit source selector emit
    if selector.isSome && !acc.observed then Prog.stop .SelectionNotObserved
    else pure (if !emit then none
      else if selector.isSome then acc.selected else some (.Array acc.rows))

end Collection

def collection_fields (source : Value) (emit : Bool) :
    List (CollectionField (Collection R)) → Map → Charge Map
  | [], result => pure result
  | field :: rest, result => do
    match ← Prog.lift (lookup source field.collection.source) with
    | none =>
      if field.presence = .Required then Prog.stop .InvalidOutput
      else collection_fields source emit rest result
    | some value => do
      Prog.when emit (budget.key limit field.name (!result.isEmpty))
      let projected ← field.collection.project_at limit value none emit
      collection_fields source emit rest (match projected with
        | none => result
        | some value => result.insert field.name value)

instance : RecordShape (Record (Collection R)) where
  project_record limit record source key emit := do
    let result ← record_fields limit record.fields source key emit
    let result ← collection_fields limit source emit record.collections result
    pure (if emit then some (.Object result) else none)

end

/-! ## The projection -/

/-- A response with a member that the definition refuses. -/
def check_guards (source : Value) : List Str → Except CoreError Unit
  | [] => .ok ()
  | pointer :: rest => do
    match ← lookup source pointer with
    | some _ => .error .InvalidOutput
    | none => check_guards source rest

def is_exact_one : Selection → Bool
  | .All => false
  | .ExactOne _ => true

def project_definition (limit : ByteLimit) (definition : TypedProjection) (selector : Option Str)
    (source : Value) : Charge (Option Value) :=
  match definition with
  | .Record _ record => project_record limit record source none true
  | .Collection _ collection selection =>
    if is_exact_one selection ≠ selector.isSome then Prog.stop .InvalidDefinition
    else do
      let found ← Prog.lift (lookup source collection.source)
      let value ← Prog.ok_or found .InvalidOutput
      Prog.when selector.isNone do
        budget.bytes limit 2
        budget.key limit "items".toList false
      let result ← collection.project_at limit value selector true
      if selector.isSome then pure result
      else do
        let items ← Prog.ok_or result .InvalidOutput
        pure (some (.Object [("items".toList, items)]))

/-- `project`, with the budget that it makes still in sight. -/
def evaluate (limit : ByteLimit) (definition : TypedProjection) (selector : Option Str)
    (source : Value) : Charge Value := do
  Prog.lift (check_guards source definition.reject_if_present)
  let result ← project_definition limit definition selector source
  Prog.ok_or result .InvalidOutput

def project_within (limit : ByteLimit) (definition : TypedProjection) (selector : Option Str)
    (source : Value) : Except CoreError Value :=
  (evaluate limit definition selector source Budget.default).1

def project : TypedProjection → Option Str → Value → Except CoreError Value :=
  project_within .normalized

end openwrt_mcp_core.projection
