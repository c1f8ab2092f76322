-- The projection by pointers: the paths that an operation names are copied, without the members
-- whose key may be the name of a secret.
import OpenwrtMcp.NormalizedResult
import OpenwrtMcp.Operation
import OpenwrtMcp.Projection

open json programs text

namespace openwrt_mcp_core

/-- `char::to_ascii_lowercase`, for an ASCII letter or digit. -/
def lower (c : Char) : Char := if 65 ≤ c.toNat ∧ c.toNat ≤ 90 then Char.ofNat (c.toNat + 32) else c

/-- `value.contains(part)` -/
def contains_text (value part : Str) : Bool := value.tails.any part.isPrefixOf

def sensitive_key (key : Str) : Bool :=
  let normalized := (key.filter fun c => c.toNat < 128 && c.isAlphanum).map lower
  "key".toList.isSuffixOf normalized || contains_text normalized "psk".toList ||
    normalized = "pin".toList || normalized = "pwd".toList || normalized = "sae".toList ||
    (["password", "passwd", "secret", "token", "privatekey", "presharedkey", "credential",
      "qrcode", "qrpayload", "identity", "authorization", "cookie"].any fun word =>
        contains_text normalized word.toList)

namespace legacy

open normalized (budget.node budget.bytes budget.key budget.scalar)
open projection (MAX_NORMALIZED_BYTES segments array_index)

abbrev Charge := normalized.Charge

mutual

def redact : Value → (depth : Nat) → Charge Value
  | .Object fields, depth => do
    budget.node depth
    budget.bytes 2
    let result ← redact_fields fields depth []
    pure (.Object result)
  | .Array items, depth => do
    budget.node depth
    budget.bytes 2
    let result ← redact_items items depth []
    pure (.Array result)
  | .Null, depth => redact_scalar .Null depth
  | .Bool value, depth => redact_scalar (.Bool value) depth
  | .Number value, depth => redact_scalar (.Number value) depth
  | .String value, depth => redact_scalar (.String value) depth

def redact_fields : List (Str × Value) → (depth : Nat) → Map → Charge Map
  | [], _, result => pure result
  | (key, value) :: rest, depth, result => do
    -- A key that is left out is counted, too.
    budget.node (depth + 1)
    if len key > MAX_NORMALIZED_BYTES then Prog.stop .OutputLimit
    else if sensitive_key key then redact_fields rest depth result
    else do
      budget.key key (!result.isEmpty)
      let value ← redact value (depth + 1)
      redact_fields rest depth (result.insert key value)

def redact_items : List Value → (depth : Nat) → List Value → Charge (List Value)
  | [], _, result => pure result
  | value :: rest, depth, result => do
    budget.bytes (!result.isEmpty).toNat
    let value ← redact value (depth + 1)
    redact_items rest depth (result ++ [value])

def redact_scalar (value : Value) (depth : Nat) : Charge Value := do
  budget.node depth
  budget.scalar value
  pure value

end

/-- The tokens of a pointer, one below the other. -/
def walk : Value → List Str → Option Value
  | current, [] => some current
  | .Object fields, token :: rest => (Map.get fields token).bind fun next => walk next rest
  | .Array items, token :: rest =>
    ((array_index token).bind fun index => if index < 2 ^ 64 then items[index]? else none).bind
      fun next => walk next rest
  | _, _ :: _ => none

/-- `value.pointer(pointer)` -/
def pointer (value : Value) (pointer : Str) : Option Value :=
  if pointer = [] then some value
  else if pointer.head? = some '/' then walk value (segments pointer)
  else none

def is_container : Value → Bool
  | .Array _ | .Object _ => true
  | _ => false

def project_fields (scalars : Bool) (source : Value) : List Str → Map → Charge Map
  | [], result => pure result
  | path :: rest, result =>
    if (segments path).any sensitive_key then project_fields scalars source rest result
    else match pointer source path with
      | none => project_fields scalars source rest result
      | some value =>
        if scalars && is_container value then project_fields scalars source rest result
        else do
          budget.key path (!result.isEmpty)
          let value ← redact value 1
          project_fields scalars source rest (result.insert path value)

def project (operation : Operation) (source : Value) : Except CoreError Value :=
  let run : Charge Value := do
    budget.bytes 2
    let result ← project_fields (operation.output_mode = .Scalars) source operation.output_fields []
    pure (.Object result)
  (run normalized.Budget.default).1

end legacy

end openwrt_mcp_core
