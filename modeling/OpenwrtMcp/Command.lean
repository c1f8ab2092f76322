-- The command that an action becomes: its program, its arguments, and the text that a shell on the
-- device splits into just these.
import OpenwrtMcp.Capability
import OpenwrtMcp.Describe

open json openwrt_mcp_core openwrt_mcp_device_codec.packages.opkg text

namespace openwrt_mcp_device_codec

def MAX_COMMAND_BYTES : Nat := 256 * 1024

structure CommandSpec where
  program : Str
  arguments : List Str
  deriving DecidableEq

/-! ## The buffer -/

/-- A buffer that is never larger than a command may be. -/
structure CommandBuffer where
  bytes : List UInt8
  bounded : bytes.length ≤ MAX_COMMAND_BYTES

namespace CommandBuffer

def append (buffer : CommandBuffer) (bytes : List UInt8) : Except CodecError CommandBuffer :=
  if h : bytes.length > MAX_COMMAND_BYTES - buffer.bytes.length then .error .InvalidAction
  else
    have hle := buffer.bounded
    .ok ⟨buffer.bytes ++ bytes, by rw [List.length_append]; omega⟩

/-- `value.split_inclusive(c)` -/
def split_inclusive (c : Char) : Str → List Str
  | [] => []
  | x :: rest =>
    if x = c then [x] :: split_inclusive c rest
    else match split_inclusive c rest with
      | [] => [[x]]
      | part :: parts => (x :: part) :: parts

def append_part (buffer : CommandBuffer) (part : Str) : Except CodecError CommandBuffer :=
  if part.getLast? = some '\'' then do
    let buffer ← buffer.append (text.bytes part.dropLast)
    buffer.append (ascii "'\\''")
  else buffer.append (text.bytes part)

def append_parts (buffer : CommandBuffer) : List Str → Except CodecError CommandBuffer
  | [] => .ok buffer
  | part :: rest => do
    let buffer ← buffer.append_part part
    buffer.append_parts rest

def argument (buffer : CommandBuffer) (value : Str) : Except CodecError CommandBuffer := do
  let buffer ← buffer.append (ascii " '")
  let buffer ← buffer.append_parts (split_inclusive '\'' value)
  buffer.append (ascii "'")

def empty : CommandBuffer := ⟨[], Nat.zero_le _⟩

end CommandBuffer

/-! ## The checks -/

def argument_name (value : Str) : Bool :=
  identifier value 64 && (bytes value).all fun byte => is_ascii_alphanumeric byte || byte = 95

/-- `i32::try_from(value).is_ok()` -/
def fits_i32 (value : Int64) : Bool := -2 ^ 31 ≤ value.toInt && value.toInt < 2 ^ 31

def argument_value : Value → Bool
  | .String value => len value ≤ 1024 && '\x00' ∉ value
  | .Number value => (as_i64 (.Number value)).any fits_i32
  | .Bool _ => true
  | _ => false

def arguments_valid (arguments : Value) : Bool :=
  match as_object arguments with
  | none => false
  | some arguments =>
    arguments.length ≤ 64 && arguments.all fun e => argument_name e.1 && argument_value e.2

def program_path (value : Str) : Bool :=
  value.head? = some '/' && value.getLast? ≠ some '/' && len value ≤ 256 &&
    ((bytes value).all fun byte => is_ascii_alphanumeric byte || byte ∈ ascii "/_.-") &&
    !(value.splitOn '/').any fun part => part = ".".toList || part = "..".toList

/-! ## The command -/

/-- `serde_json::to_writer`: the slices that it writes, one after another. Together they are the
compact text. -/
structure Writer where
  writes : Value → List (List UInt8)
  compact : ∀ v, (writes v).flatten = bytes (encode v)

def Writer.to_writer (writer : Writer) (buffer : CommandBuffer) (value : Value) :
    Except CodecError CommandBuffer := (writer.writes value).foldlM CommandBuffer.append buffer

/-- `a.checked_add(b)` -/
def checked_add (a b : Nat) : Option Nat := if a + b < 2 ^ 64 then some (a + b) else none

/-- `a.checked_mul(b)` -/
def checked_mul (a b : Nat) : Option Nat := if a * b < 2 ^ 64 then some (a * b) else none

/-- What one word adds to the size. -/
def add_size (total : Nat) (value : Str) : Option Nat := do
  let quotes := (bytes value).countP fun byte => byte = 39
  let total ← checked_add total (len value)
  let total ← checked_add total 3
  let more ← checked_mul quotes 3
  checked_add total more

def CommandSpec.size (command : CommandSpec) : Option Nat :=
  (command.program :: command.arguments).foldlM add_size 4

/-- The command before its size is looked at. -/
def command_of (writer : Writer) : PreparedAction → Except CodecError CommandSpec
  | .ApkInstalledPage _ | .OpkgStatusPage _ => .error .InvalidAction
  | .Ubus object method arguments =>
    if !identifier object 128 || !identifier method 128 || !arguments_valid arguments then
      .error .InvalidAction
    else do
      let json ← writer.to_writer .empty arguments
      match from_utf8 json.bytes with
      | none => .error .InvalidAction
      | some json =>
        .ok ⟨"/bin/ubus".toList, ["-S".toList, "call".toList, object, method, json]⟩
  | .Process program args =>
    if !program_path program || args.length > 64 ||
        args.any fun value => len value > 1024 || '\x00' ∈ value then .error .InvalidAction
    else .ok ⟨program, args⟩

def compile_action (writer : Writer) (action : PreparedAction) : Except CodecError CommandSpec := do
  let command ← command_of writer action
  if command.size.any fun size => size ≤ MAX_COMMAND_BYTES then .ok command
  else .error .InvalidAction

def encode_arguments (buffer : CommandBuffer) : List Str → Except CodecError CommandBuffer
  | [] => .ok buffer
  | argument :: rest => do
    let buffer ← buffer.argument argument
    encode_arguments buffer rest

def encode_remote (command : CommandSpec) : Except CodecError (List UInt8) := do
  let output : CommandBuffer := ⟨ascii "exec", by decide⟩
  let output ← output.argument command.program
  let output ← encode_arguments output command.arguments
  .ok output.bytes

end openwrt_mcp_device_codec
