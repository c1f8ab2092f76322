-- The record store of `backups`: a file that is only appended to, the scan that reads it
-- from end to end, and the three calls over it. The host may fail at any point, and an append
-- that fails may have written any part of its chunk.
import OpenwrtMcp.BackupBinding
import OpenwrtMcp.Slices

open big_endian programs slices text openwrt_mcp_runtime.backups

namespace openwrt_mcp_adapters.backups

def HEADER : Nat := 64
def RECORD_HEADER : Nat := 8 + BINDING_BYTES + 8
def TAG : Nat := 32
def CHUNK : Nat := 65536

inductive MacPurpose
  | StoreHeader
  | ArtifactRecord
  deriving DecidableEq

/-- `[u8; 32]` -/
abbrev Tag := { tag : Bytes // tag.length = TAG }

def zero_tag : Tag := ⟨List.replicate 32 0, rfl⟩

inductive RecordPublication
  | Durable
  | NotPublished
  | Unknown
  deriving DecidableEq

/-- The budget, `CiphertextRecordIo` and `RecordAuthenticator`, over a world of any type. A
size or a read only says whether it fails; its value is that of the file. An append that
fails says how many bytes it wrote before. -/
structure Host (σ : Type) where
  check : σ → Except BackupError Unit × σ
  size : σ → Except BackupError Unit × σ
  read_at (offset len : Nat) : σ → Except BackupError Unit × σ
  append (expected_size : Nat) (bytes : Bytes) : σ → Except (BackupError × Nat) Unit × σ
  synchronize : σ → Except BackupError Unit × σ
  tag (purpose : MacPurpose) (parts : List Bytes) : σ → Except BackupError Tag × σ
  verify (purpose : MacPurpose) (parts : List Bytes) (tag : Bytes) : σ → Except BackupError Unit × σ

/-- The file, the world and the flag of a `RecordStore`. -/
structure Store (σ : Type) where
  file : Bytes
  world : σ
  uncertain : Bool

abbrev Act (σ α : Type) := Prog (Store σ) BackupError α

structure Scan where
  size : Nat
  count : Nat
  matched : Option Bytes

section
variable {σ α : Type} (h : Host σ) (store : Id)

def ask (call : σ → Except BackupError α × σ) : Act σ α := fun st =>
  ((call st.world).1, { st with world := (call st.world).2 })

def check : Act σ Unit := ask h.check

/-! ## The file -/

def size : Act σ Nat := do
  ask h.size
  let st ← Prog.get
  return st.file.length

def read_at (offset len : Nat) : Act σ Bytes := do
  ask (h.read_at offset len)
  let st ← Prog.get
  if offset + len ≤ st.file.length then return field st.file offset len
  else Prog.stop .Unavailable

def append (expected_size : Nat) (bytes : Bytes) : Act σ Unit := fun st =>
  match h.append expected_size bytes st.world with
  | (.ok (), world) => (.ok (), { st with world := world, file := st.file ++ bytes })
  | (.error (error, written), world) =>
    (.error error, { st with world := world, file := st.file ++ bytes.take written })

def synchronize : Act σ Unit := ask h.synchronize

/-- The loop of `read` over the chunks of its buffer. -/
def read_chunks : Nat → List Bytes → Act σ Bytes
  | _, [] => return []
  | offset, chunk :: rest => do
    check h
    let got ← read_at h offset chunk.length
    check h
    let more ← read_chunks (offset + chunk.length) rest
    return got ++ more

def read (offset len : Nat) : Act σ Bytes :=
  read_chunks h offset (chunks CHUNK (List.replicate len 0))

/-! ## The scan -/

/-- One record at `position`: its binding and its ciphertext. -/
def scan_record (size position : Nat) (jobs : List Bytes) : Act σ (ArtifactBinding × Bytes) := do
  if jobs.length ≥ MAX_RECORDS ∨ size - position < RECORD_HEADER + TAG then Prog.stop .Integrity
  else
    let header ← read h position RECORD_HEADER
    if header.take 8 ≠ ascii "OMCPBK01" then Prog.stop .Integrity
    else
      match ArtifactBinding.decode (field header 8 BINDING_BYTES) with
      | .error error => Prog.stop error
      | .ok binding =>
        let count := from_be_bytes (header.drop (8 + BINDING_BYTES))
        if binding.store ≠ store.1 ∨ binding.job ∈ jobs ∨ ¬ (1 ≤ count ∧ count ≤ MAX_CIPHERTEXT) ∨
            count + (RECORD_HEADER + TAG) > size - position then
          Prog.stop .Integrity
        else
          let ciphertext ← read h (position + RECORD_HEADER) count
          let tag ← read h (position + RECORD_HEADER + count) TAG
          ask (h.verify .ArtifactRecord [header, ciphertext] tag)
          check h
          return (binding, ciphertext)

/-- The match of `expected` after a record. -/
def next_match (expected : Option ArtifactBinding) (binding : ArtifactBinding)
    (ciphertext : Bytes) (matched : Option Bytes) : Except BackupError (Option Bytes) :=
  match expected with
  | none => .ok matched
  | some e =>
    if e.job = binding.job then
      if e ≠ binding then .error .Integrity else .ok (some ciphertext)
    else .ok matched

/-- The loop over the records. Every turn adds a job, so the turn after the last one that is
allowed fails the test of the count. -/
def scan_records (expected : Option ArtifactBinding) (size : Nat) :
    Nat → Nat → List Bytes → Option Bytes → Act σ (Nat × Option Bytes)
  | turns, position, jobs, matched => do
    if position < size then
      match turns with
      | 0 => Prog.stop .Integrity
      | turns + 1 =>
        let (binding, ciphertext) ← scan_record h store size position jobs
        match next_match expected binding ciphertext matched with
        | .error error => Prog.stop error
        | .ok matched =>
          scan_records expected size turns
            (position + (RECORD_HEADER + TAG) + ciphertext.length) (binding.job :: jobs) matched
    else return (jobs.length, matched)

def scan_header : Act σ Unit := do
  let header ← read h 0 HEADER
  if header.take 8 ≠ ascii "OMCPST01" ∨ field header 8 16 ≠ store.1 ∨
      field header 24 8 ≠ ascii "recd0001" ∨ store = Id.zero then
    Prog.stop .Integrity
  else
    ask (h.verify .StoreHeader [header.take 32] (header.drop 32))
    check h

def scan (expected : Option ArtifactBinding) : Act σ Scan := do
  check h
  let size ← backups.size h
  if ¬ (HEADER ≤ size ∧ size ≤ MAX_STORE_BYTES) then Prog.stop .Integrity
  else if expected.any fun binding => binding.store ≠ store.1 then Prog.stop .Integrity
  else
    scan_header h store
    let (count, matched) ← scan_records h store expected size (MAX_RECORDS + 1) HEADER [] none
    let again ← backups.size h
    if again ≠ size then Prog.stop .Integrity
    else
      check h
      return { size, count, matched }

/-- `from_io`: the store is kept only when the scan of the file passes. -/
def from_io (file : Bytes) (world : σ) : Except BackupError Unit × Store σ :=
  match scan h store none { file := file, world := world, uncertain := false } with
  | (.ok _, st) => (.ok (), st)
  | (.error error, st) => (.error error, st)

/-! ## The calls -/

/-- A result as a value. -/
def attempt (x : Act σ α) : Act σ (Except BackupError α) := Prog.attempt .ok x

def set_uncertain (uncertain : Bool) : Act σ Unit :=
  Prog.modify fun st => { st with uncertain := uncertain }

def record_header (binding : ArtifactBinding) (count : Nat) : Bytes :=
  ascii "OMCPBK01" ++ binding.encoded ++ to_be_bytes 8 count

/-- The two loops over the parts and their chunks. -/
def append_chunks : Nat → List Bytes → Act σ Nat
  | position, [] => return position
  | position, chunk :: rest => do
    check h
    append h position chunk
    check h
    append_chunks (position + chunk.length) rest

/-- The last tests of `publish`. -/
def confirm (position : Nat) : Act σ Unit := do
  let size ← backups.size h
  if size ≠ position then Prog.stop .Unknown
  else
    synchronize h
    check h

def age_magic : Bytes := ascii "age-encryption.org/v1" ++ [10]

/-- The record is written behind the end of the file. -/
def write_record (position : Nat) (header ciphertext : Bytes) (tag : Tag) :
    Act σ RecordPublication := do
  set_uncertain true
  match ← attempt
    (append_chunks h position ([header, ciphertext, tag.1].flatMap (chunks CHUNK))) with
  | .error _ => return .Unknown
  | .ok position =>
    match ← attempt (confirm h position) with
    | .error _ => return .Unknown
    | .ok () =>
      set_uncertain false
      return .Durable

def publish (binding : ArtifactBinding) (ciphertext : Bytes) : Act σ RecordPublication := do
  let st ← Prog.get
  if st.uncertain then return .Unknown
  else
    match ← attempt (scan h store (some binding)) with
    | .error _ =>
      set_uncertain true
      return .Unknown
    | .ok scan =>
      if scan.matched.isSome ∨ scan.count ≥ MAX_RECORDS ∨ ciphertext.isEmpty ∨
          ciphertext.length > MAX_CIPHERTEXT ∨ ¬ age_magic <+: ciphertext then
        return .NotPublished
      else
        let header := record_header binding ciphertext.length
        match ← attempt (ask (h.tag .ArtifactRecord [header, ciphertext])) with
        | .error _ => return .NotPublished
        | .ok tag =>
          match ← attempt (check h) with
          | .error _ => return .NotPublished
          | .ok () => write_record h scan.size header ciphertext tag

def reconcile (binding : ArtifactBinding) : Act σ RecordPublication := do
  match ← attempt (scan h store (some binding)) with
  | .error _ => return .Unknown
  | .ok scan =>
    if scan.matched.isNone then return .Unknown
    else
      match ← attempt (do check h; synchronize h; check h) with
      | .error _ => return .Unknown
      | .ok () =>
        set_uncertain false
        return .Durable

def authenticated_bytes (binding : ArtifactBinding) : Act σ Bytes := do
  let scan ← scan h store (some binding)
  match scan.matched with
  | none => Prog.stop .Unknown
  | some bytes => return bytes

end

inductive Call
  | Publish (binding : ArtifactBinding) (ciphertext : Bytes)
  | Reconcile (binding : ArtifactBinding)
  | AuthenticatedBytes (binding : ArtifactBinding)

section
variable {σ : Type} (h : Host σ) (store : Id)

/-- The store after a call, whatever the call answers. -/
def Call.after : Call → Store σ → Store σ
  | .Publish binding ciphertext, st => (publish h store binding ciphertext st).2
  | .Reconcile binding, st => (reconcile h store binding st).2
  | .AuthenticatedBytes binding, st => (authenticated_bytes h store binding st).2

def after_calls (calls : List Call) (st : Store σ) : Store σ :=
  calls.foldl (fun st call => call.after h store st) st

end

end openwrt_mcp_adapters.backups
