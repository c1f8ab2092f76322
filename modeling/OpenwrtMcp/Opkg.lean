-- The status file of `opkg`: a loop over its lines that keeps the stanza it is in.
import OpenwrtMcp.LegacyProjection
import OpenwrtMcp.Packages
import OpenwrtMcp.Utf8

open openwrt_mcp_core openwrt_mcp_core.packages programs text

namespace openwrt_mcp_device_codec

inductive CodecError
  | InvalidAction
  | OutputLimit
  | InvalidObservation
  | InvalidResponse
  deriving DecidableEq

namespace packages.opkg

def MAX_LINE_BYTES : Nat := 8192
def MAX_FIELDS : Nat := 64
def MAX_FIELD_NAME_BYTES : Nat := 64

/-- `text.split_terminator(c)` -/
def split_terminator (c : Char) : Str → List Str
  | [] => []
  | x :: rest =>
    if x = c then [] :: split_terminator c rest
    else match split_terminator c rest with
      | [] => [[x]]
      | line :: lines => (x :: line) :: lines

/-- The fields that are selected, by their index. -/
def field_name : Fin 4 → Str
  | 0 => "package".toList
  | 1 => "version".toList
  | 2 => "architecture".toList
  | 3 => "status".toList

def bound : Fin 4 → Nat
  | 0 => 256
  | 1 => 256
  | 2 => 64
  | 3 => MAX_OPKG_STATUS_BYTES

/-- `.iter().position(|field| *field == name)` -/
def position (name : Str) : Option (Fin 4) := (List.finRange 4).find? fun i => field_name i = name

def to_ascii_lowercase (name : Str) : Str := name.map lower

def valid_name (name : Str) : Bool :=
  name ≠ [] && len name ≤ MAX_FIELD_NAME_BYTES && (bytes name).head?.any is_ascii_alphabetic &&
    (bytes name).all fun b => is_ascii_alphanumeric b || b = 45

/-- What the loop keeps. -/
structure Reading where
  rows : List OpkgStatusRecord
  fields : List Str
  selected : Fin 4 → Option Str
  previous_selected : Bool

def Reading.start (rows : List OpkgStatusRecord) : Reading := ⟨rows, [], fun _ => none, false⟩

/-- A blank line ends the stanza, if there is one. -/
def end_stanza (s : Reading) : Except CodecError Reading :=
  if s.fields = [] then .ok s
  else if s.rows.length ≥ MAX_PACKAGE_RECORDS then .error .OutputLimit
  else match s.selected 0, s.selected 1, s.selected 2, s.selected 3 with
    | some name, some version, some arch, some status =>
      .ok (.start (s.rows ++ [⟨name, version, arch, status⟩]))
    | _, _, _, _ => .error .InvalidResponse

/-- The value behind the colon. -/
def field_value : Str → Except CodecError Str
  | [] => .ok []
  | c :: value => if c = ' ' then .ok value else .error .InvalidResponse

/-- `fields.insert(name)` -/
def insert_field (s : Reading) (name : Str) : Except CodecError Reading :=
  if name ∈ s.fields then .error .InvalidResponse else .ok { s with fields := s.fields ++ [name] }

def read_field (s : Reading) (line : Str) : Except CodecError Reading :=
  match split_once ':' line with
  | none => .error .InvalidResponse
  | some (name, raw) =>
    if valid_name name = false then .error .InvalidResponse
    else if s.fields.length ≥ MAX_FIELDS then .error .OutputLimit
    else do
      let name := to_ascii_lowercase name
      let value ← field_value raw
      match position name with
      | some index =>
        if valid_text value (bound index) = false then .error .InvalidResponse
        else insert_field { s with
          selected := Function.update s.selected index (some value)
          previous_selected := true } name
      | none => insert_field { s with previous_selected := false } name

/-- `line.starts_with([' ', '\t'])` -/
def is_continuation (line : Str) : Bool := line.head?.any fun c => c = ' ' || c = '\t'

def read_line (s : Reading) (line : Str) : Except CodecError Reading :=
  if len line > MAX_LINE_BYTES then .error .OutputLimit
  else if line = [] then end_stanza s
  else if is_continuation line then
    if s.fields = [] ∨ s.previous_selected then .error .InvalidResponse else .ok s
  else read_field s line

def read_lines (s : Reading) : List Str → Except CodecError Reading
  | [] => .ok s
  | line :: lines => do
    let s ← read_line s line
    read_lines s lines

/-- The end of the text, and its characters. -/
def valid_source (text : Str) : Bool :=
  (text = [] || "\n\n".toList.isSuffixOf text) &&
    !text.any fun c => is_control c && c ≠ '\n' && c ≠ '\t'

/-- `map_err` at the end of `parse_opkg_status` -/
def from_core : CoreError → CodecError
  | .OutputLimit => .OutputLimit
  | _ => .InvalidResponse

def parse_opkg_status (bytes : List UInt8) (maximum : Nat) : Except CodecError PackageObservation :=
  if bytes.length > min maximum MAX_PACKAGE_SOURCE_BYTES then .error .OutputLimit
  else match from_utf8 bytes with
    | none => .error .InvalidResponse
    | some text =>
      if valid_source text = false then .error .InvalidResponse
      else do
        let s ← read_lines (.start []) (split_terminator '\n' text)
        (PackageObservation.new_opkg_status s.rows).mapError from_core

end packages.opkg

end openwrt_mcp_device_codec
