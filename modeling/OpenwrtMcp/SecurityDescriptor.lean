-- The check of a Windows security descriptor: bytes with offsets to an owner, a group and a list of
-- access control entries. The descriptor of a new log file is built here, too.
import OpenwrtMcp.LittleEndian
import OpenwrtMcp.PrivateLog
import OpenwrtMcp.Verdicts

open checked_bytes slices verdicts

namespace openwrt_mcp_host_platform.policy

def MAX_DESCRIPTOR : Nat := 65536

abbrev Outcome := Except (Abort HostError)

/-- `if c { return Err(HostError::Insecure) }` -/
def refuse_if (c : Prop) [Decidable c] : Outcome Unit := verdicts.refuse_if .Insecure c

/-- `o.ok_or(HostError::Insecure)?` -/
def ok_or_insecure {α : Type} (o : Option α) : Outcome α := ok_or o .Insecure

def sid (bytes : Bytes) : Outcome Bytes := do
  refuse_if (bytes.length < 8)
  let revision ← index bytes 0
  refuse_if (revision ≠ 1)
  let count ← index bytes 1
  refuse_if (¬ (1 ≤ count.toNat ∧ count.toNat ≤ 15))
  ok_or_insecure (get bytes 0 (8 + count.toNat * 4))

/-- `bytes.as_chunks::<4>().0`: what is left at the end is no chunk. -/
def as_chunks : Bytes → List Bytes
  | a :: b :: c :: d :: rest => [a, b, c, d] :: as_chunks rest
  | _ => []

def is_sid (bytes : Bytes) (subauthorities : List Nat) : Bool :=
  bytes.length = 8 + subauthorities.length * 4 &&
    bytes.take 8 = [1, UInt8.ofNat subauthorities.length, 0, 0, 0, 0, 0, 5] &&
    ((as_chunks (bytes.drop 8)).zip subauthorities).all fun (a, b) => a = to_le_bytes 4 b

def LOCAL_SYSTEM : List Nat := [18]
def ADMINISTRATORS : List Nat := [32, 544]
def TRUSTED_INSTALLER : List Nat :=
  [80, 956008885, 3418522649, 1831038044, 1853292631, 2271478464]

def trusted (bytes user : Bytes) (root : Bool) : Bool :=
  bytes = user || is_sid bytes LOCAL_SYSTEM || is_sid bytes ADMINISTRATORS ||
    (root && is_sid bytes TRUSTED_INSTALLER)

def u16_at (bytes : Bytes) (position : Nat) : Outcome Nat := do
  let value ← ok_or_insecure (get bytes position (position + 2))
  .ok (from_le_bytes value)

def u32_at (bytes : Bytes) (position : Nat) : Outcome Nat := do
  let value ← ok_or_insecure (get bytes position (position + 4))
  .ok (from_le_bytes value)

def offset (bytes : Bytes) (position : Nat) : Outcome Nat := do
  let value ← u32_at bytes position
  refuse_if (value < 20 ∨ value % 4 ≠ 0 ∨ value ≥ bytes.length)
  .ok value

def generic (mask : BitVec 32) : BitVec 32 :=
  let mapped := mask &&& 0x0fffffff
  let mapped := if mask &&& 0x80000000 ≠ 0 then mapped ||| 0x00120089 else mapped
  let mapped := if mask &&& 0x40000000 ≠ 0 then mapped ||| 0x00120116 else mapped
  let mapped := if mask &&& 0x20000000 ≠ 0 then mapped ||| 0x001200a0 else mapped
  if mask &&& 0x10000000 ≠ 0 then mapped ||| 0x001f01ff else mapped

/-! ## The parts of the check -/

/-- Who may use the object, and what it is. -/
structure Flags where
  user : Bytes
  directory : Bool
  root : Bool
  secret : Bool

def check_header (bytes user : Bytes) : Outcome Unit := do
  refuse_if (bytes.length < 20)
  refuse_if (bytes.length > MAX_DESCRIPTOR)
  let revision ← slice bytes 0 2
  refuse_if (revision ≠ [1, 0])
  let control ← u16_at bytes 2
  refuse_if (control &&& 0x8004 ≠ 0x8004)
  let system_acl ← u32_at bytes 12
  refuse_if (system_acl ≠ 0)
  let whole ← sid user
  refuse_if (whole ≠ user)

/-- `&bytes[position..]` -/
def rest_from (bytes : Bytes) (position : Nat) : Outcome Bytes := slice bytes position bytes.length

/-- A SID at the offset that stands at `position`. -/
def sid_at (bytes : Bytes) (position : Nat) : Outcome (Nat × Bytes) := do
  let start ← offset bytes position
  let rest ← rest_from bytes start
  let found ← sid rest
  .ok (start, found)

def read_acl (bytes : Bytes) : Outcome (Nat × Bytes) := do
  let acl_at ← offset bytes 16
  let acl_size ← u16_at bytes (acl_at + 2)
  let acl ← ok_or_insecure (get bytes acl_at (acl_at + acl_size))
  refuse_if (acl.length < 8)
  refuse_if (acl.length % 4 ≠ 0)
  let revision ← index acl 0
  refuse_if (revision ≠ 2 ∧ revision ≠ 4)
  let zero ← index acl 1
  refuse_if (zero ≠ 0)
  let zeros ← slice acl 6 8
  refuse_if (zeros ≠ [0, 0])
  .ok (acl_at, acl)

/-- Two ranges have a byte in common. -/
def Overlap (start size start' size' : Nat) : Prop := start < start' + size' ∧ start' < start + size

instance (start size start' size' : Nat) : Decidable (Overlap start size start' size') :=
  inferInstanceAs (Decidable (_ ∧ _))

def check_group (bytes : Bytes) (owner_at : Nat) (owner : Bytes) (acl_at acl_size : Nat) :
    Outcome Unit := do
  let group_offset ← u32_at bytes 8
  if group_offset ≠ 0 then do
    let (start, group) ← sid_at bytes 8
    refuse_if (Overlap start group.length acl_at acl_size ∨
      (start ≠ owner_at ∧ Overlap start group.length owner_at owner.length))
  else .ok ()

/-- The rights that anybody may have. -/
def allowed (f : Flags) : BitVec 32 :=
  (if f.secret ∧ ¬ f.directory then 0x00120080 else 0x001200a9) ||| if f.root then 4 else 0

/-- A turn of the loop: the entry at `cursor`. -/
def read_ace (acl : Bytes) (f : Flags) (cursor : Nat) : Outcome Bytes := do
  let size ← u16_at acl (cursor + 2)
  let ace ← ok_or_insecure (get acl cursor (cursor + size))
  refuse_if (size < 20 ∨ size % 4 ≠ 0)
  let kind ← index ace 0
  refuse_if (kind ≠ 0 ∧ kind ≠ 1)
  let flags ← index ace 1
  refuse_if (flags &&& ~~~ 0x1f ≠ 0)
  let rest ← rest_from ace 8
  let trustee ← sid rest
  refuse_if (trustee.length + 8 ≠ ace.length)
  let value ← u32_at ace 4
  let mask := generic (BitVec.ofNat 32 value)
  refuse_if (mask &&& ~~~ 0x001f01ff ≠ 0)
  refuse_if (kind = 0 ∧ flags &&& 0x08 = 0 ∧ ¬ trusted trustee f.user f.root ∧
    mask &&& ~~~ (allowed f) ≠ 0)
  .ok ace

/-- The loop over the entries. -/
def check_aces (acl : Bytes) (f : Flags) : Nat → Nat → Outcome Unit
  | 0, _ => .ok ()
  | todo + 1, cursor => do
    let ace ← read_ace acl f cursor
    check_aces acl f todo (cursor + ace.length)

/-- Conservative allow-union, not an AccessCheck clone: deny cannot rescue unsafe allows. -/
def descriptor (bytes : Bytes) (f : Flags) : Outcome Unit := do
  check_header bytes f.user
  let (owner_at, owner) ← sid_at bytes 4
  refuse_if (¬ trusted owner f.user f.root)
  let (acl_at, acl) ← read_acl bytes
  refuse_if (Overlap owner_at owner.length acl_at acl.length)
  check_group bytes owner_at owner acl_at acl.length
  let count ← u16_at acl 4
  refuse_if (count > 4096)
  check_aces acl f count 8

/-! ## The descriptor of a log file -/

/-- `bytes[position..position + part.len()].copy_from_slice(part)` -/
def copy_at (bytes : Bytes) (position : Nat) (part : Bytes) : Bytes :=
  bytes.take position ++ part ++ bytes.drop (position + part.length)

/-- A log file is a secret file, and no root. -/
def log_flags (user : Bytes) : Flags := ⟨user, false, false, true⟩

/-- The bytes that grant the user everything. -/
def log_bytes (user : Bytes) : Bytes :=
  let bytes := List.replicate 20 0
  let bytes := copy_at bytes 0 [1]
  -- SELF_RELATIVE | DACL_PROTECTED | DACL_PRESENT.
  let bytes := copy_at bytes 2 (to_le_bytes 2 0x9004)
  let bytes := copy_at bytes 4 (to_le_bytes 4 20)
  let bytes := bytes ++ user
  let acl := bytes.length
  let bytes := copy_at bytes 16 (to_le_bytes 4 acl)
  let acl_size := 16 + user.length
  let bytes := bytes ++ [2, 0]
  let bytes := bytes ++ to_le_bytes 2 acl_size
  let bytes := bytes ++ [1, 0, 0, 0]
  -- One non-inheritable ACCESS_ALLOWED_ACE.
  let bytes := bytes ++ [0, 0]
  let bytes := bytes ++ to_le_bytes 2 (8 + user.length)
  let bytes := bytes ++ to_le_bytes 4 0x001f01ff
  bytes ++ user

/-- The words are numbers of 32 bits. -/
def log_descriptor (user : Bytes) : Outcome (List Nat) := do
  let whole ← sid user
  refuse_if (whole ≠ user)
  let bytes := log_bytes user
  descriptor bytes (log_flags user)
  .ok ((as_chunks bytes).map from_le_bytes)

end openwrt_mcp_host_platform.policy
