-- The check that a ZIP file passes before a parser sees it: every record of it is read and bounded,
-- and the entry that holds the key is found.
import OpenwrtMcp.CheckedBytes
import OpenwrtMcp.ProtectionLimits
import OpenwrtMcp.Utf8

open checked_bytes slices text

namespace openwrt_mcp_key_sources

open openwrt_mcp_runtime.protection

/-- The name of an entry. A directory may end in a slash. -/
def entry_name (value : Str) (directory : Bool) : Bool :=
  if value = [] || len value > 1024 || value.any fun c => c ∈ ['\\', ':', '\x00'] then false
  else
    let name := if directory ∧ value.getLast? = some '/' then value.dropLast else value
    name ≠ [] && (name.splitOn '/').all fun c => c ≠ [] && c ≠ ".".toList && c ≠ "..".toList

namespace archive

/-- How the check ends: with an error, or, if it could, with a panic. -/
abbrev Outcome := Except (Abort ProtectionError)

/-- `b"PK\x01\x02"` and the others. -/
def CENTRAL : Bytes := [80, 75, 1, 2]
def LOCAL : Bytes := [80, 75, 3, 4]
def END : Bytes := [80, 75, 5, 6]
def DESCRIPTOR : Bytes := [80, 75, 7, 8]

def number16 (bytes : Bytes) (offset : Nat) : Outcome Nat := number 2 .InvalidContainer bytes offset

def number32 (bytes : Bytes) (offset : Nat) : Outcome Nat := number 4 .InvalidContainer bytes offset

def span (bytes : Bytes) (start length : Nat) : Outcome Bytes :=
  checked_bytes.span .InvalidContainer bytes start length

/-- A field of a record, so many bytes after its start. -/
def field16 (bytes : Bytes) (start offset : Nat) : Outcome Nat := do
  let offset ← add start offset
  number16 bytes offset

def field32 (bytes : Bytes) (start offset : Nat) : Outcome Nat := do
  let offset ← add start offset
  number32 bytes offset

/-! ## The end of the central directory -/

/-- The record ends here whose comment goes to the end of the file. -/
def is_end (bytes : Bytes) (p : Nat) : Outcome Bool := do
  let stop ← add p 4
  if get bytes p stop ≠ some END then .ok false
  else do
    let offset ← add p 20
    match number16 bytes offset with
    | .error .panic => .error .panic
    | .error (.err _) => .ok false
    | .ok length => do
      let comment ← add p 22
      let stop ← add comment length
      .ok (stop = bytes.length)

/-- `(start..=start + more).rev().find(..)` -/
def find_end (bytes : Bytes) (start : Nat) : Nat → Outcome (Option Nat)
  | 0 => do
    let found ← is_end bytes start
    .ok (if found then some start else none)
  | more + 1 => do
    let found ← is_end bytes (start + (more + 1))
    if found then .ok (some (start + (more + 1))) else find_end bytes start more

/-- `bytes.windows(4).any(|value| value == b"PK\x05\x06")` -/
def has_end : Bytes → Bool
  | [] => false
  | b :: rest => (b :: rest).take 4 = END || has_end rest

/-- Where the last record of the directory starts. -/
def locate (bytes : Bytes) : Outcome Nat := do
  if bytes.length < 22 then fail .InvalidContainer
  else do
    let start := bytes.length - 65557
    let found ← find_end bytes start (bytes.length - 22 - start)
    match found with
    | none => fail .InvalidContainer
    | some stop => do
      let offset ← add stop 22
      let comment ← slice bytes offset bytes.length
      if has_end comment then fail .InvalidContainer else .ok stop

/-- The number of the entries, and where the first of them stands. -/
def end_record (bytes : Bytes) (limits : KeyLimits) (stop : Nat) : Outcome (Nat × Nat) := do
  let count ← field16 bytes stop 10
  let directory_size ← field32 bytes stop 12
  let directory_start ← field32 bytes stop 16
  let disk ← field16 bytes stop 4
  if disk ≠ 0 then fail .UnsupportedContainer
  else do
    let directory_disk ← field16 bytes stop 6
    if directory_disk ≠ 0 then fail .UnsupportedContainer
    else do
      let disk_count ← field16 bytes stop 8
      if disk_count ≠ count ∨ count = 65535 ∨ directory_size = 2 ^ 32 - 1 ∨
          directory_start = 2 ^ 32 - 1 then fail .UnsupportedContainer
      else if count > limits.max_entries ∨ directory_size > limits.max_directory_bytes then
        fail .ResourceLimit
      else do
        let directory_end ← checked_add directory_start directory_size .InvalidContainer
        if directory_end ≠ stop then fail .InvalidContainer else .ok (count, directory_start)

/-! ## An entry -/

/-- The fields of an entry of the central directory. -/
structure Fields where
  flags : Nat
  method : Nat
  crc : Nat
  compressed : Nat
  inflated : Nat
  name_len : Nat
  extra_len : Nat
  comment_len : Nat
  external : Nat
  local_start : Nat

def read_fields (bytes : Bytes) (position : Nat) : Outcome Fields := do
  let flags ← field16 bytes position 8
  let method ← field16 bytes position 10
  let crc ← field32 bytes position 16
  let compressed ← field32 bytes position 20
  let inflated ← field32 bytes position 24
  let name_len ← field16 bytes position 28
  let extra_len ← field16 bytes position 30
  let comment_len ← field16 bytes position 32
  let external ← field32 bytes position 38
  let local_start ← field32 bytes position 42
  .ok ⟨flags, method, crc, compressed, inflated, name_len, extra_len, comment_len, external,
    local_start⟩

/-- The extra fields from a position on. Each takes four bytes or more, so `todo` turns are enough
for so many bytes. -/
def validate_extra_from (bytes : Bytes) : Nat → Nat → Outcome Unit
  | 0, position => if position < bytes.length then .error .panic else .ok ()
  | todo + 1, position =>
    if position < bytes.length then do
      let tag ← number16 bytes position
      let length ← field16 bytes position 2
      if tag = 0x0001 ∨ tag = 0x9901 ∨ tag = 0x7075 then fail .UnsupportedContainer
      else do
        let step ← add 4 length
        let next ← checked_add position step .InvalidContainer
        if next > bytes.length then fail .InvalidContainer
        else validate_extra_from bytes todo next
    else .ok ()

def validate_extra (bytes : Bytes) : Outcome Unit := validate_extra_from bytes bytes.length 0

structure ExpectedEntry where
  name : Bytes
  flags : Nat
  method : Nat
  crc : Nat
  compressed : Nat
  inflated : Nat

/-- A field that the header gives before the data is written: it is left at zero, or right. -/
def check_early (bytes : Bytes) (local_start : Nat) : List (Nat × Nat) → Outcome Unit
  | [] => .ok ()
  | (offset, value) :: rest => do
    let local_value ← field32 bytes local_start offset
    if local_value ≠ 0 ∧ local_value ≠ value then fail .InvalidContainer
    else check_early bytes local_start rest

/-- The three numbers that stand in the local header or after the data. -/
def check_numbers (bytes : Bytes) (start : Nat) (offsets : Nat × Nat × Nat)
    (expected : ExpectedEntry) : Outcome Unit := do
  let crc ← field32 bytes start offsets.1
  if crc ≠ expected.crc then fail .InvalidContainer
  else do
    let compressed ← field32 bytes start offsets.2.1
    if compressed ≠ expected.compressed then fail .InvalidContainer
    else do
      let inflated ← field32 bytes start offsets.2.2
      if inflated ≠ expected.inflated then fail .InvalidContainer else .ok ()

/-- The descriptor may start with a signature. -/
def descriptor_start (bytes : Bytes) (stop : Nat) : Outcome Nat := do
  let signature ← span bytes stop 4
  if signature = DESCRIPTOR then add stop 4 else .ok stop

/-- Where the data ends, with the descriptor that may follow it. -/
def validate_data (bytes : Bytes) (local_start : Nat) (expected : ExpectedEntry) (stop : Nat) :
    Outcome Nat := do
  if expected.flags &&& 8 = 0 then do
    check_numbers bytes local_start (14, 18, 22) expected
    .ok stop
  else do
    check_early bytes local_start
      [(14, expected.crc), (18, expected.compressed), (22, expected.inflated)]
    let descriptor ← descriptor_start bytes stop
    check_numbers bytes descriptor (0, 4, 8) expected
    checked_add descriptor 12 .InvalidContainer

def validate_local (bytes : Bytes) (local_start : Nat) (expected : ExpectedEntry)
    (directory_start : Nat) : Outcome (Nat × Nat) := do
  let signature ← span bytes local_start 4
  if signature ≠ LOCAL then fail .InvalidContainer
  else do
    let header ← add local_start 30
    if header > directory_start then fail .InvalidContainer
    else do
      let name_len ← field16 bytes local_start 26
      let extra_len ← field16 bytes local_start 28
      let flags ← field16 bytes local_start 6
      if flags ≠ expected.flags then fail .InvalidContainer
      else do
        let method ← field16 bytes local_start 8
        if method ≠ expected.method then fail .InvalidContainer
        else do
          let name ← span bytes header name_len
          if name ≠ expected.name then fail .InvalidContainer
          else do
            let extra_start ← add header name_len
            let extra ← span bytes extra_start extra_len
            validate_extra extra
            let named ← add 30 name_len
            let size ← add named extra_len
            let data ← checked_add local_start size .InvalidContainer
            let stop ← checked_add data expected.compressed .InvalidContainer
            let stop ← validate_data bytes local_start expected stop
            if stop > directory_start then fail .InvalidContainer else .ok (local_start, stop)

/-! ## The central directory -/

/-- What the loop keeps: where the next entry stands, the names and the local regions so far, and
the entry that was asked for. -/
structure Walk where
  position : Nat
  names : List Str
  ranges : List (Nat × Nat)
  selected : Option Nat

/-- `name.trim_end_matches('/')` -/
def trim_slashes (name : Str) : Str := name.rdropWhile (· = '/')

/-- The entry that is asked for is a file, and no larger than the limits let it be. -/
def check_selected (requested : Str) (limits : KeyLimits) (name : Str) (f : Fields) :
    Outcome Unit :=
  if name ≠ requested then .ok ()
  else if name.getLast? = some '/' then fail .InvalidContainer
  else if f.inflated > limits.max_key_bytes ∨
      f.inflated > min (f.compressed * limits.max_expansion_ratio) (2 ^ 64 - 1) ∨
      (f.method = 0 ∧ f.inflated ≠ f.compressed) then fail .ResourceLimit
  else .ok ()

/-- The fields that no supported entry has. -/
def unsupported (f : Fields) (disk : Nat) : Prop :=
  f.flags &&& (2 ^ 64 - 1 - 0x0808) ≠ 0 ∨ (f.method ≠ 0 ∧ f.method ≠ 8) ∨ disk ≠ 0 ∨
    f.compressed = 2 ^ 32 - 1 ∨ f.inflated = 2 ^ 32 - 1 ∨ f.local_start = 2 ^ 32 - 1

instance (f : Fields) (disk : Nat) : Decidable (unsupported f disk) := by
  unfold unsupported
  infer_instance

/-- The name, and the kind of entry that it and the attributes say. -/
def invalid_name (names : List Str) (f : Fields) (name : Str) : Prop :=
  let directory := name.getLast? = some '/'
  let file_type := f.external >>> 16 &&& 0o170000
  entry_name name directory = false ∨ trim_slashes name ∈ names ∨
    (file_type ≠ 0 ∧ file_type ≠ 0o100000 ∧ file_type ≠ 0o040000) ∨
    (file_type = 0o040000 ∧ ¬ directory) ∨ (directory ∧ f.inflated ≠ 0)

instance (names : List Str) (f : Fields) (name : Str) : Decidable (invalid_name names f name) := by
  unfold invalid_name
  infer_instance

/-- One turn of the loop. -/
def visit_entry (bytes : Bytes) (requested : Str) (limits : KeyLimits) (stop directory_start : Nat)
    (index : Nat) (walk : Walk) : Outcome Walk := do
  let position := walk.position
  let signature ← span bytes position 4
  if signature ≠ CENTRAL then fail .InvalidContainer
  else do
    let header ← add position 46
    if header > stop then fail .InvalidContainer
    else do
      let f ← read_fields bytes position
      let disk ← field16 bytes position 34
      if unsupported f disk then fail .UnsupportedContainer
      else do
        let name_bytes ← span bytes header f.name_len
        match from_utf8 name_bytes with
        | none => fail .InvalidContainer
        | some name =>
          if invalid_name walk.names f name then fail .InvalidContainer
          else do
            let named ← add 46 f.name_len
            let extended ← add named f.extra_len
            let size ← add extended f.comment_len
            let next ← checked_add position size .InvalidContainer
            if next > stop then fail .InvalidContainer
            else do
              let extra_start ← add header f.name_len
              let extra ← span bytes extra_start f.extra_len
              validate_extra extra
              check_selected requested limits name f
              let region ← validate_local bytes f.local_start
                ⟨name_bytes, f.flags, f.method, f.crc, f.compressed, f.inflated⟩ directory_start
              .ok ⟨next, trim_slashes name :: walk.names, walk.ranges ++ [region],
                if name = requested then some index else walk.selected⟩

/-- The entries from `index` on, of which there are `todo`. -/
def visit_entries (bytes : Bytes) (requested : Str) (limits : KeyLimits)
    (stop directory_start : Nat) : Nat → Nat → Walk → Outcome Walk
  | 0, _, walk => .ok walk
  | todo + 1, index, walk => do
    let walk ← visit_entry bytes requested limits stop directory_start index walk
    visit_entries bytes requested limits stop directory_start todo (index + 1) walk

/-- The directory that ends where the last record starts. -/
def read_directory (bytes : Bytes) (requested : Str) (limits : KeyLimits) (stop : Nat) :
    Outcome Nat := do
  let (count, directory_start) ← end_record bytes limits stop
  let walk ← visit_entries bytes requested limits stop directory_start count 0
    ⟨directory_start, [], [], none⟩
  if walk.position ≠ stop then fail .InvalidContainer
  else
    let ranges := sort_by_key (fun r => toLex r) walk.ranges
    if (windows2 ranges).any fun pair => pair.1.2 > pair.2.1 then fail .InvalidContainer
    else match walk.selected with
      | none => fail .SourceUnavailable
      | some index => .ok index

def preflight (bytes : Bytes) (requested : Str) (limits : KeyLimits) : Outcome Nat := do
  let stop ← locate bytes
  read_directory bytes requested limits stop

end archive

end openwrt_mcp_key_sources
