-- The workflow of `backups`: a captured archive is checked, sealed and published as a record, and
-- a record is read back, decrypted and checked again. The source, the checker and the stage are
-- ports of the sealer over one world; the cipher, the clock and the decryption are outside.
import OpenwrtMcp.GzipStream
import OpenwrtMcp.RecordStore
import OpenwrtMcp.Sealing

open programs slices text openwrt_mcp_runtime.backups openwrt_mcp_runtime.sealing
open openwrt_mcp_device_codec.archive openwrt_mcp_device_codec.gzip

namespace openwrt_mcp_adapters.backups

abbrev Bytes := List UInt8

structure BackupInspection where
  source_bytes : Nat
  payload_bytes : Nat
  files : Nat
  deriving DecidableEq

structure BackupFailure where
  cause : BackupError
  publication : RecordPublication
  deriving DecidableEq

/-! ## The check of an archive -/

inductive Validator (δ : Type)
  | Tar (v : ArchiveValidator)
  | Gzip (v : GzipArchiveValidator δ)

/-- The archive of one file that a binding expects. -/
def expected_archive (binding : ArtifactBinding) : Except ArchiveError ExpectedArchive := do
  let file ← ExpectedFile.new "etc/config/system".toList binding.file_bytes
  ExpectedArchive.new [file]

/-- `Check::new`, behind its test of the budget. -/
def Validator.new (δ : Type) (binding : ArtifactBinding) : Except BackupError (Validator δ) :=
  match expected_archive binding with
  | .error _ => .error .Invalid
  | .ok expected =>
    match binding.format with
    | .Tar => .ok (.Tar (.new expected))
    | .Gzip => .ok (.Gzip (.new δ expected))

/-- A result whose error is not looked at. -/
def port_result {ε α : Type} : Except ε α → Except SealPortError α
  | .ok a => .ok a
  | .error _ => .error .mk

section
variable {δ : Type} (d : Decoder δ)

/-- `Check::feed`, between its two tests of the budget. -/
def Validator.feed (v : Validator δ) (bytes : Bytes) : Validator δ × Except SealPortError Unit :=
  match v with
  | .Tar v => (.Tar (v.feed bytes).1, port_result (v.feed bytes).2)
  | .Gzip v => (.Gzip (v.feed d bytes).1, port_result (v.feed d bytes).2)

/-- `Check::finish`, between its two tests of the budget. -/
def Validator.finish (v : Validator δ) : Except SealPortError CheckCounts :=
  match v with
  | .Tar v => (port_result v.finish).map fun s =>
    ⟨s.archive_bytes, s.archive_bytes, s.payload_bytes, s.files⟩
  | .Gzip v => (port_result v.finish).map fun s =>
    ⟨s.compressed_bytes, s.archive_bytes, s.payload_bytes, s.files⟩

end

/-! ## The ports -/

/-- What is outside of the workflow: the host of the record store with the budget, the clock of
the sealer and the code of the cipher. -/
structure Outside (σ : Type) where
  host : Host σ
  now_ms : σ → Nat × σ
  cipher_step : σ → CipherStep × σ
  cipher_told : CipherAnswer → σ → σ

/-- `Source`, `Memory`, `Check` and the store. The archive has been read up to `position`. -/
structure Work (σ δ : Type) where
  st : Store σ
  data : Bytes
  position : Nat
  memory : Bytes
  validator : Validator δ

section
variable {σ δ α : Type} (o : Outside σ) (d : Decoder δ) (store : Id) (binding : ArtifactBinding)

/-- A test of the budget. -/
def Work.check (w : Work σ δ) : Except BackupError Unit × Work σ δ :=
  ((o.host.check w.st.world).1,
    { w with st := { w.st with world := (o.host.check w.st.world).2 } })

/-- A call that starts with a test of the budget. -/
def Work.checked (call : Work σ δ → Except SealPortError α × Work σ δ) (w : Work σ δ) :
    Reply (Except SealPortError α) × Work σ δ :=
  match w.check o with
  | (.error _, w) => (.ret (.error .mk), w)
  | (.ok (), w) => (.ret (call w).1, (call w).2)

/-- What a read copies into a buffer of this length. -/
def Work.piece (w : Work σ δ) (len : Nat) : Bytes := (w.data.drop w.position).take len

theorem length_piece_append (w : Work σ δ) (output : Bytes) :
    (w.piece output.length ++ output.drop (w.piece output.length).length).length =
      output.length := by
  unfold Work.piece
  simp only [List.length_append, List.length_take, List.length_drop]
  omega

/-- `Source::read` -/
def Work.read (output : Bytes) (w : Work σ δ) : Reply (ReadReply output.length) × Work σ δ :=
  match w.check o with
  | (.error _, w) => (.ret ⟨output, rfl, .error .mk⟩, w)
  | (.ok (), w) =>
    (.ret ⟨w.piece output.length ++ output.drop (w.piece output.length).length,
        length_piece_append w output, .ok (w.piece output.length).length⟩,
      { w with position := w.position + (w.piece output.length).length })

def Work.complete : Work σ δ → Reply (Except SealPortError Nat) × Work σ δ :=
  Work.checked o fun w => (.ok w.data.length, w)

/-- The bytes are wiped, and the vector is empty. -/
def Work.cancel (w : Work σ δ) : Reply CleanupOutcome × Work σ δ :=
  (.ret .Cleaned, { w with data := [] })

/-- `Check::feed` -/
def Work.feed (bytes : Bytes) (w : Work σ δ) : Reply (Except SealPortError Unit) × Work σ δ :=
  Work.checked o (fun w =>
    let w' := { w with validator := (w.validator.feed d bytes).1 }
    match (w.validator.feed d bytes).2 with
    | .error e => (.error e, w')
    | .ok () => (port_result (w'.check o).1, (w'.check o).2)) w

/-- `Check::finish` -/
def Work.finish : Work σ δ → Reply (Except SealPortError CheckCounts) × Work σ δ :=
  Work.checked o fun w =>
    match w.validator.finish with
    | .error e => (.error e, w)
    | .ok counts => ((port_result (w.check o).1).map fun _ => counts, (w.check o).2)

/-- `Memory::write` for the ciphertext. -/
def Work.write (input : Bytes) : Work σ δ → Reply (Except SealPortError Nat) × Work σ δ :=
  Work.checked o fun w =>
    if input.length > 65536 ∨ input.length > MAX_CIPHERTEXT - w.memory.length then (.error .mk, w)
    else (.ok input.length, { w with memory := w.memory ++ input })

def Work.flush : Work σ δ → Reply (Except SealPortError Unit) × Work σ δ :=
  Work.checked o fun w => (.ok (), w)

def RecordPublication.outcome : RecordPublication → PublishOutcome
  | .Durable => .Published
  | .NotPublished => .NotPublished
  | .Unknown => .Unknown

/-- `Stage::publish` -/
def Work.publish (counts : SealedCounts) (w : Work σ δ) : Reply PublishOutcome × Work σ δ :=
  if counts.source_bytes ≠ binding.source_bytes ∨ counts.payload_bytes ≠ binding.file_bytes ∨
      counts.files ≠ 1 ∨ counts.ciphertext_bytes ≠ w.memory.length then
    (.ret .NotPublished, w)
  else
    match backups.publish o.host store binding w.memory w.st with
    | (.ok publication, st) => (.ret publication.outcome, { w with st := st })
    -- the store always answers
    | (.error _, st) => (.unwind, { w with st := st })

def Work.abort (w : Work σ δ) : Reply CleanupOutcome × Work σ δ :=
  (.ret .Cleaned, { w with memory := [] })

/-- A step of what is outside. -/
def Work.outside (step : σ → α × σ) (w : Work σ δ) : α × Work σ δ :=
  ((step w.st.world).1, { w with st := { w.st with world := (step w.st.world).2 } })

def work_ports : Ports (Work σ δ) where
  now_ms w := (.ret (w.outside o.now_ms).1, (w.outside o.now_ms).2)
  read := Work.read o
  complete := Work.complete o
  cancel := Work.cancel
  feed := Work.feed o d
  finish := Work.finish o
  cipher_step := Work.outside o.cipher_step
  cipher_told answer w := { w with st := { w.st with world := o.cipher_told answer w.st.world } }
  capabilities w := (.ret ⟨true, true, true⟩, w)
  write := Work.write o
  flush := Work.flush o
  publish := Work.publish o store binding
  abort := Work.abort

end

/-! ## The workflow -/

/-- The sealer of `seal_capture`. -/
def capture_sealer : ArchiveSealer :=
  ⟨⟨MAX_PLAINTEXT, MAX_CIPHERTEXT, 30000⟩, by decide⟩

def Publication.record : Publication → RecordPublication
  | .Published => .Durable
  | .Unknown => .Unknown
  | .NotAttempted => .NotPublished
  | .NotPublished => .NotPublished

section
variable {σ δ : Type} (o : Outside σ) (d : Decoder δ) (store : Id)

/-- The run of the sealer in `seal_capture`. -/
def seal_run (capture : CapturedArchive) (validator : Validator δ) (steps : Nat) (st : Store σ) :
    Ended × Run (Work σ δ) :=
  capture_sealer.seal_with_clock (work_ports o d store capture.binding) steps
    { st := st, data := capture.bytes, position := 0, memory := [], validator := validator }

/-- The two tests of the budget before the run, and the validator. -/
def seal_start (δ : Type) (capture : CapturedArchive) : Act σ (Validator δ) := do
  check o.host
  check o.host
  Prog.lift (Validator.new δ capture.binding)

/-- `seal_capture`. No result: the cipher unwinds, or is still running after `steps` of its
steps. -/
def seal_capture (capture : CapturedArchive) (steps : Nat) (st : Store σ) :
    Option (Except BackupFailure BackupInspection) × Store σ :=
  match seal_start o δ capture st with
  | (.error cause, st) => (some (.error ⟨cause, .NotPublished⟩), st)
  | (.ok validator, st) =>
    match seal_run o d store capture validator steps st with
    | (.returned (.ok counts), run) =>
      (some (.ok ⟨counts.source_bytes, counts.payload_bytes, counts.files⟩), run.world.st)
    | (.returned (.error report), run) =>
      match check o.host run.world.st with
      | (.error cause, st) => (some (.error ⟨cause, Publication.record report.publication⟩), st)
      | (.ok (), st) => (some (.error ⟨.Integrity, Publication.record report.publication⟩), st)
    | (_, run) => (none, run.world.st)

end

end openwrt_mcp_adapters.backups
