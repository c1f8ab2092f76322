-- The verbose listing of one object of `ubus`: a header, and a line for every method, which is
-- read as the only member of an object of JSON.
import OpenwrtMcp.Capability
import OpenwrtMcp.JsonDecoder
import OpenwrtMcp.Opkg

open maps openwrt_mcp_core openwrt_mcp_core.packages openwrt_mcp_device_codec.packages.opkg
  serde_json text

namespace openwrt_mcp_device_codec

/-- `command::identifier` -/
def identifier (value : Str) (maximum : Nat) : Bool :=
  value ≠ [] && len value ≤ maximum && (bytes value).head?.any is_ascii_alphabetic &&
    (bytes value).all fun byte => is_ascii_alphanumeric byte || byte ∈ ascii "_.-"

namespace describe

def MAX_PROBE_BYTES : Nat := 65536

/-! ## The visitors -/

/-- The `match` on a label. -/
def kind_of (label : Str) : UbusArgumentType :=
  if label = "String".toList then .String
  else if label = "Integer".toList then .Integer
  else if label = "Boolean".toList then .Boolean
  else if label = "Array".toList then .Array
  else if label = "Table".toList then .Table
  else .Unknown

def valid_label (label : Str) : Bool := label ≠ [] && len label ≤ 64 && !label.any is_control

/-- `ArgumentsVisitor::visit_map`, with the arguments that were read. -/
def visit_arguments (closed : Bool) :
    List (Str × Node) → BTreeMap Str UbusArgumentType →
      Except Unit (BTreeMap Str UbusArgumentType)
  | [], arguments => if closed then .ok arguments else .error ()
  | (name, value) :: rest, arguments =>
    if arguments.len = 64 || !identifier name 64 || arguments.contains_key name then .error ()
    else
      match value with
      | .Str label =>
        if valid_label label then
          visit_arguments closed rest (arguments.insert name (kind_of label))
        else .error ()
      | _ => .error ()

def deserialize_arguments : Node → Except Unit (BTreeMap Str UbusArgumentType)
  | .Map fields closed => visit_arguments closed fields .empty
  | _ => .error ()

/-- `MethodVisitor::visit_map` -/
def deserialize_method : Node → Except Unit (Str × MethodSignature)
  | .Map ((name, value) :: rest) closed =>
    if !identifier name 128 then .error ()
    else do
      let arguments ← deserialize_arguments value
      if rest.isEmpty && closed then .ok (name, ⟨arguments⟩) else .error ()
  | _ => .error ()

/-- `serde_json::from_str` -/
def from_str (decoder : Decoder) (text : Str) : Except Unit (Str × MethodSignature) := do
  let method ← deserialize_method (decoder.from_str text).1
  if (decoder.from_str text).2 then .ok method else .error ()

/-! ## The lines -/

def strip_return (line : Str) : Str :=
  if line.getLast? = some '\r' then line.dropLast else line

/-- `text.lines()` of a text that ends with the end of a line. -/
def lines (text : Str) : List Str := (split_terminator '\n' text).map strip_return

/-- `u8::is_ascii_hexdigit` -/
def is_ascii_hexdigit (b : UInt8) : Bool :=
  is_ascii_digit b || (97 ≤ b && b ≤ 102) || (65 ≤ b && b ≤ 70)

/-- The text before the id of the object. -/
def header_start (object : ReviewedObject) : Str :=
  "'".toList ++ object.as_str ++ "' @".toList

def read_header (object : ReviewedObject) (header : Str) : Except CodecError Unit :=
  match (header_start object).isPrefixOf? header with
  | none => .error .InvalidObservation
  | some id =>
    if len id = 8 && (bytes id).all is_ascii_hexdigit then .ok ()
    else .error .InvalidObservation

/-- One line becomes one object. -/
def wrapped (fragment : Str) : Str := '\x7b' :: (fragment ++ ['\x7d'])

def read_line (decoder : Decoder) (methods : BTreeMap Str MethodSignature) (line : Str) :
    Except CodecError (BTreeMap Str MethodSignature) :=
  if methods.len = 128 then .error .InvalidObservation
  else
    match line with
    | '\t' :: fragment =>
      match from_str decoder (wrapped fragment) with
      | .error _ => .error .InvalidObservation
      | .ok (name, signature) =>
        if methods.contains_key name then .error .InvalidObservation
        else .ok (methods.insert name signature)
    | _ => .error .InvalidObservation

def read_lines (decoder : Decoder) (methods : BTreeMap Str MethodSignature) :
    List Str → Except CodecError (BTreeMap Str MethodSignature)
  | [] => .ok methods
  | line :: rest => do
    let methods ← read_line decoder methods line
    read_lines decoder methods rest

def parse_ubus_describe (decoder : Decoder) (object : ReviewedObject) (response : List UInt8)
    (maximum : Nat) : Except CodecError CapabilityObservation :=
  if maximum = 0 ∨ response.length > min maximum MAX_PROBE_BYTES then .error .OutputLimit
  else if response = [] then .ok (.Unknown .NotObservedOrHidden)
  else if response.getLast? ≠ some 10 then .error .InvalidObservation
  else
    match from_utf8 response with
    | none => .error .InvalidObservation
    | some text =>
      match lines text with
      | [] => .error .InvalidObservation
      | header :: rest => do
        read_header object header
        let methods ← read_lines decoder .empty rest
        let observation : ObjectObservation := ⟨object, methods⟩
        observation.validate.mapError fun _ => .InvalidObservation
        .ok (.Ubus observation)

end describe

end openwrt_mcp_device_codec
