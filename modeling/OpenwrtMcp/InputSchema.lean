-- The schema that an operation advertises for its input.
import OpenwrtMcp.JsonSchema
import OpenwrtMcp.Prepare

open json json_schema maps programs text

namespace openwrt_mcp_core

open projection

/-- `serde_json::from_str`, of which the schema needs that it reads integers. -/
structure SerdeJson where
  from_str : Str → Option Value
  reads_integers : ∀ n : Int, -2 ^ 63 ≤ n → n < 2 ^ 64 →
    from_str (signed_decimal n) = some (of_integer n)

/-- `"^[0-9a-f]{32}\\.[1-9][0-9]{0,3}$"` -/
def CURSOR_PATTERN : Str := "^[0-9a-f]\x7b32\x7d\\.[1-9][0-9]\x7b0,3\x7d$".toList

/-- `format!("At most {max} UTF-8 bytes; NUL is not permitted.")` -/
def text_description (max : Nat) : Str :=
  "At most ".toList ++ decimal max ++ " UTF-8 bytes; NUL is not permitted.".toList

namespace Operation

/-- How long the text of the selector may be, for the parameter that it is. -/
def selector_limit (operation : Operation) (name : Str) : Option Nat :=
  match operation.output_mode with
  | .Typed definition => (definition.selector.filter fun s => s.1 = name).map Prod.snd
  | _ => none

/-- The bytes that a text may have, as the schema describes it. -/
def text_limit (operation : Operation) (name : Str) : Nat :=
  if operation.action.package_profile.isSome then 37
  else (operation.selector_limit name).getD MAX_VALUE_BYTES

def text_schema (operation : Operation) (name : Str) (schema : Map) : Map :=
  let selector_limit := operation.selector_limit name
  let max := operation.text_limit name
  let schema := schema.insert "maxLength".toList (of_usize max)
  let schema := if selector_limit.isSome then schema.insert "minLength".toList (of_usize 1)
    else schema
  let schema := if operation.action.package_profile.isSome then
      (schema.insert "minLength".toList (of_usize 34)).insert "pattern".toList
        (.String CURSOR_PATTERN)
    else schema
  schema.insert "description".toList (.String (text_description max))

def integer_schema (schema : Map) : Map :=
  (schema.insert "minimum".toList (of_integer UBUS_INTEGER_MIN)).insert "maximum".toList
    (of_integer UBUS_INTEGER_MAX)

def allowed_to_value (serde : SerdeJson) (kind : ParameterKind) (value : Str) : Value :=
  match kind with
  | .String => .String value
  | .Integer => (serde.from_str value).getD .Null
  | .Boolean => .Bool (value = "true".toList)

/-- What the kind of a parameter says of its values. -/
def kind_schema (operation : Operation) (name : Str) (kind : ParameterKind) : Map :=
  let schema := Map.insert [] "type".toList (.String kind.to_string)
  match kind with
  | .String => operation.text_schema name schema
  | .Integer => if operation.action.is_ubus then integer_schema schema else schema
  | .Boolean => schema

def parameter_schema (serde : SerdeJson) (operation : Operation) (name : Str)
    (parameter : Parameter) : Map :=
  let schema := operation.kind_schema name parameter.kind
  if parameter.allowed_values ≠ [] then
    schema.insert "enum".toList
      (.Array (parameter.allowed_values.map (allowed_to_value serde parameter.kind)))
  else schema

def input_schema (serde : SerdeJson) (operation : Operation) : Value :=
  let properties := operation.parameters.entries.map fun e =>
    (e.1, .Object (operation.parameter_schema serde e.1 e.2))
  let required := operation.parameters.entries.filterMap fun e =>
    if e.2.required then some (.String e.1) else none
  members [("additionalProperties", .Bool false), ("properties", .Object properties),
    ("required", .Array required), ("type", .String "object".toList)]

end Operation

end openwrt_mcp_core
