-- The packages that were observed on a device, the pages in which they are given out, and the
-- cursor that leads from one page to the next.
import OpenwrtMcp.Decimals
import OpenwrtMcp.NormalizedResult
import OpenwrtMcp.OperationText

open decimals json slices text

namespace openwrt_mcp_core.packages

open normalized (check_normalized_result)

def MAX_PACKAGE_SOURCE_BYTES : Nat := 4 * 1024 * 1024
def MAX_PACKAGE_RECORDS : Nat := 4096
def MAX_PACKAGE_RETAINED_BYTES : Nat := 2 * 1024 * 1024
def PACKAGE_PAGE_RECORDS : Nat := 16
def MAX_OPKG_STATUS_BYTES : Nat := 128

structure PackageRecord where
  name : Str
  version : Str
  arch : Str
  layer : UInt8
  deriving DecidableEq

structure OpkgStatusRecord where
  name : Str
  version : Str
  arch : Str
  status : Str
  deriving DecidableEq

inductive Records
  | Apk (rows : List PackageRecord)
  | Opkg (rows : List OpkgStatusRecord)

structure PackageObservation where
  records : Records

/-! ## The observation -/

/-- `char::is_control` -/
def is_control (c : Char) : Bool := c.toNat < 32 || (127 ≤ c.toNat && c.toNat < 160)

def valid_text (text : Str) (maximum : Nat) : Bool :=
  text ≠ [] && len text ≤ maximum && !text.any is_control

/-- The texts of a row, each with the bytes that it may take. -/
def check_texts : List (Str × Nat) → Nat → Except CoreError Nat
  | [], retained => .ok retained
  | (text, maximum) :: rest, retained =>
    if !valid_text text maximum then .error .InvalidOutput
    else if retained + len text ≥ 2 ^ 64 || retained + len text > MAX_PACKAGE_RETAINED_BYTES then
      .error .OutputLimit
    else check_texts rest (retained + len text)

section
variable {R κ : Type}

def check_rows (texts : R → List (Str × Nat)) (valid : R → Bool) :
    List R → Nat → Except CoreError Nat
  | [], retained => .ok retained
  | row :: rest, retained => do
    let retained ← check_texts (texts row) retained
    if !valid row then .error .InvalidOutput else check_rows texts valid rest retained

variable [LinearOrder κ]

/-- The rows in the order of their keys, when every row is valid and no key stands twice. -/
def observe (texts : R → List (Str × Nat)) (valid : R → Bool) (key : R → κ) (rows : List R) :
    Except CoreError (List R) :=
  if rows.length > MAX_PACKAGE_RECORDS then .error .OutputLimit
  else do
    let _ ← check_rows texts valid rows 0
    let sorted := sort_by_key key rows
    if (windows2 sorted).any fun pair => key pair.1 = key pair.2 then .error .InvalidOutput
    else .ok sorted

end

namespace PackageRecord

def texts (row : PackageRecord) : List (Str × Nat) :=
  [(row.name, 256), (row.version, 256), (row.arch, 64)]

def key (row : PackageRecord) : Lex (Nat × Str) := toLex (row.layer.toNat, row.name)

def to_value (row : PackageRecord) : Value :=
  members [("arch", .String row.arch), ("layer", .Number (.PosInt row.layer.toUInt64)),
    ("name", .String row.name), ("version", .String row.version)]

end PackageRecord

namespace OpkgStatusRecord

def texts (row : OpkgStatusRecord) : List (Str × Nat) :=
  [(row.name, 256), (row.version, 256), (row.arch, 64), (row.status, MAX_OPKG_STATUS_BYTES)]

def key (row : OpkgStatusRecord) : Str := row.name

def to_value (row : OpkgStatusRecord) : Value :=
  members [("arch", .String row.arch), ("name", .String row.name), ("status", .String row.status),
    ("version", .String row.version)]

end OpkgStatusRecord

def PackageObservation.new (records : List PackageRecord) :
    Except CoreError PackageObservation := do
  let rows ← observe PackageRecord.texts (fun row => row.layer ≤ 1) PackageRecord.key records
  .ok ⟨.Apk rows⟩

def PackageObservation.new_opkg_status (records : List OpkgStatusRecord) :
    Except CoreError PackageObservation := do
  let rows ← observe OpkgStatusRecord.texts (fun _ => true) OpkgStatusRecord.key records
  .ok ⟨.Opkg rows⟩

/-! ## The cursor -/

abbrev Nonce := Vector UInt8 16

def zero : Nonce := .replicate 16 0

structure PackageCursor where
  nonce : Nonce
  offset : Nat
  deriving DecidableEq

/-- `value.split_once(c)` -/
def split_once (c : Char) : Str → Option (Str × Str)
  | [] => none
  | x :: rest => if x = c then some ([], rest) else (split_once c rest).map fun p => (x :: p.1, p.2)

def is_hex (byte : UInt8) : Bool := is_ascii_digit byte || (97 ≤ byte && byte ≤ 102)

/-- The value of a digit that passed `is_hex`. -/
def hex_value (byte : UInt8) : Nat := if byte < 97 then byte.toNat - 48 else byte.toNat - 87

namespace PackageCursor

def hex (nonce : Nonce) : Str :=
  nonce.toList.flatMap fun byte => [hex_digit (byte.toNat / 16), hex_digit (byte.toNat % 16)]

def encode (nonce : Nonce) (offset : Nat) : Str := hex nonce ++ '.' :: decimal offset

/-- The bytes that a text of 32 digits spells. -/
def nonce_of (hex : List UInt8) : Nonce :=
  .ofFn fun i =>
    UInt8.ofNat (hex_value (hex.getD (2 * i) 0) * 16 + hex_value (hex.getD (2 * i + 1) 0))

def parse_offset (nonce : Nonce) (offset : Str) : Except CoreError PackageCursor :=
  match parse_unsigned offset with
  | none => .error .InvalidArguments
  | some number =>
    if number ≥ 2 ^ 64 || nonce = zero || number = 0 || number ≥ MAX_PACKAGE_RECORDS ||
        number.toNat % PACKAGE_PAGE_RECORDS ≠ 0 || signed_decimal number ≠ offset then
      .error .InvalidArguments
    else .ok ⟨nonce, number.toNat⟩

def parse (value : Str) : Except CoreError PackageCursor :=
  if len value > 37 then .error .InvalidArguments
  else match split_once '.' value with
    | none => .error .InvalidArguments
    | some (hex, offset) =>
      if len hex ≠ 32 || !(bytes hex).all is_hex then .error .InvalidArguments
      else parse_offset (nonce_of (bytes hex)) offset

end PackageCursor

/-! ## The pages -/

namespace Records

def count : Records → Nat
  | .Apk rows => rows.length
  | .Opkg rows => rows.length

def source : Records → String
  | .Apk _ => "apk_3_0_5"
  | .Opkg _ => "opkg_38eccbb1"

def scope : Records → String
  | .Apk _ => "apk_query_installed_visible"
  | .Opkg _ => "opkg_root_status_file"

/-- `json!(&rows[offset..end])` -/
def slice (records : Records) (offset stop : Nat) : List Value :=
  match records with
  | .Apk rows => ((rows.drop offset).take (stop - offset)).map PackageRecord.to_value
  | .Opkg rows => ((rows.drop offset).take (stop - offset)).map OpkgStatusRecord.to_value

end Records

namespace PackageObservation

def profile (observation : PackageObservation) : PackageProfile :=
  match observation.records with
  | .Apk _ => .Apk3_0_5
  | .Opkg _ => .Opkg38eccbb1RootStatus

/-- The members of a page, in the order of their names. -/
def page_value (records : Records) (nonce : Nonce) (offset stop : Nat) : Value :=
  members ([("captured_count", of_usize records.count),
      ("consistency", .String "non_atomic_observation".toList),
      ("items", .Array (records.slice offset stop))] ++
    (if stop < records.count then
      [("next_cursor", .String (PackageCursor.encode nonce stop))] else []) ++
    [("offset", of_usize offset), ("scope", .String records.scope.toList),
      ("source", .String records.source.toList), ("whole_device_complete", .Bool false)])

def page (observation : PackageObservation) (nonce : Nonce) (offset : Nat) :
    Except CoreError Value :=
  let count := observation.records.count
  if nonce = zero || offset % PACKAGE_PAGE_RECORDS ≠ 0 || (offset ≠ 0 && offset ≥ count) then
    .error .InvalidArguments
  else do
    let stop := min (min (offset + PACKAGE_PAGE_RECORDS) (2 ^ 64 - 1)) count
    let result := page_value observation.records nonce offset stop
    check_normalized_result result
    .ok result

end PackageObservation

end openwrt_mcp_core.packages
