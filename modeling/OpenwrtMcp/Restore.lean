-- `restore_inspect`: the ciphertext of a record is read back, decrypted into memory and checked
-- again. What was sealed comes back, and it still does when more captures have been sealed.
import OpenwrtMcp.CaptureTruth
import OpenwrtMcp.GzipLaws

open programs slices text openwrt_mcp_runtime.backups openwrt_mcp_runtime.sealing
open openwrt_mcp_device_codec.archive openwrt_mcp_device_codec.gzip

namespace openwrt_mcp_adapters.backups

/-! ## The decryption -/

/-- The code of `DecryptionSession::decrypt_to_staging`, over a state of its own: what it does
next, and what it is told. -/
structure Decryptor (τ : Type) where
  step : τ → CipherStep × τ
  told : CipherAnswer → τ → τ

/-- The `Cursor` over the ciphertext, the plaintext in `Memory` and the session. -/
structure Staging (σ τ : Type) where
  st : Store σ
  session : τ
  input : Bytes
  position : Nat
  bytes : Bytes

/-- What a read at this position copies into a buffer of this length. -/
def cursor_piece (input : Bytes) (position len : Nat) : Bytes := (input.drop position).take len

def cursor_answer (input : Bytes) (position : Nat) (output : Bytes) : CipherAnswer :=
  .Read (cursor_piece input position output.length ++
      output.drop (cursor_piece input position output.length).length)
    (.ok (cursor_piece input position output.length).length)

section
variable {σ τ : Type} (h : Host σ) (dec : Decryptor τ) (maximum : Nat)

/-- `Memory::write` for the plaintext, and what the session is told. -/
def Staging.write (bytes : Bytes) (session : τ) (s : Staging σ τ) : Staging σ τ :=
  match check h s.st with
  | (.error _, st) => { s with st := st, session := dec.told (.Write (.error .mk)) session }
  | (.ok (), st) =>
    if bytes.length > 65536 ∨ bytes.length > maximum - s.bytes.length then
      { s with st := st, session := dec.told (.Write (.error .mk)) session }
    else
      { s with
        st := st
        session := dec.told (.Write (.ok bytes.length)) session
        bytes := s.bytes ++ bytes }

/-- `Memory::flush` -/
def Staging.flush (session : τ) (s : Staging σ τ) : Staging σ τ :=
  match check h s.st with
  | (.error _, st) => { s with st := st, session := dec.told (.Flush (.error .mk)) session }
  | (.ok (), st) => { s with st := st, session := dec.told (.Flush (.ok ())) session }

/-- The decryption, looked at for so many steps of the session. No result: the session unwinds,
or is still running. -/
def decrypt_to_staging : Nat → Staging σ τ → Option
    (Except SealPortError CipherCounts) × Staging σ τ
  | 0, s => (none, s)
  | steps + 1, s =>
    match dec.step s.session with
    | (.Read output, session) =>
      decrypt_to_staging steps { s with
        session := dec.told (cursor_answer s.input s.position output) session
        position := s.position + (cursor_piece s.input s.position output.length).length }
    | (.Write bytes, session) => decrypt_to_staging steps (s.write h dec maximum bytes session)
    | (.Flush, session) => decrypt_to_staging steps (s.flush h dec session)
    | (.Return result, session) => (some result, { s with session := session })
    | (.Unwind, session) => (none, { s with session := session })

/-- What the session does with a ciphertext when every write and flush goes well: its result, the
position of the cursor and the pieces of the plaintext. -/
def decryption (input : Bytes) :
    Nat → τ → Nat → Option (Except SealPortError CipherCounts × Nat × List Bytes)
  | 0, _, _ => none
  | steps + 1, session, position =>
    match dec.step session with
    | (.Read output, session) =>
      decryption input steps (dec.told (cursor_answer input position output) session)
        (position + (cursor_piece input position output.length).length)
    | (.Write bytes, session) =>
      (decryption input steps (dec.told (.Write (.ok bytes.length)) session) position).map
        fun r => (r.1, r.2.1, bytes :: r.2.2)
    | (.Flush, session) => decryption input steps (dec.told (.Flush (.ok ())) session) position
    | (.Return result, _) => some (result, position, [])
    | (.Unwind, _) => none

/-- The session gets the plaintext back: it reads all of the ciphertext, writes the plaintext in
pieces of at most 65536 bytes and reports the counts. -/
def Inverts (steps : Nat) (session : τ) (ciphertext plaintext : Bytes) : Prop :=
  ∃ pieces, decryption dec ciphertext steps session 0 =
      some (.ok ⟨ciphertext.length, plaintext.length⟩, ciphertext.length, pieces) ∧
    pieces.flatten = plaintext ∧ ∀ piece ∈ pieces, piece.length ≤ 65536

/-! ## The inspection -/

/-- An error of the check, of which nothing is looked at. -/
def to_integrity {α : Type} (x : Act σ α) : Act σ α := fun st =>
  match x st with
  | (.ok a, st) => (.ok a, st)
  | (.error _, st) => (.error .Integrity, st)

variable {δ : Type} (d : Decoder δ)

/-- The loop over the chunks of the plaintext. -/
def feed_chunks : Validator δ → List Bytes → Act σ (Validator δ)
  | v, [] => return v
  | v, chunk :: rest => do
    let v ← to_integrity do
      check h
      match v.feed d chunk with
      | (_, .error _) => Prog.stop .Integrity
      | (v, .ok ()) => do
        check h
        return v
    feed_chunks v rest

/-- The tests of the counts, and the check of the archive. -/
def inspect_staging (binding : ArtifactBinding) (expected_ciphertext : Nat) (report : CipherCounts)
    (position : Nat) (bytes : Bytes) : Act σ BackupInspection := do
  check h
  if position ≠ expected_ciphertext ∨ report.input_bytes ≠ expected_ciphertext ∨
      report.output_bytes ≠ binding.source_bytes ∨ bytes.length ≠ binding.source_bytes then
    Prog.stop .Integrity
  else
    check h
    let validator ← Prog.lift (Validator.new δ binding)
    let validator ← feed_chunks h d validator (chunks 65536 bytes)
    let counts ← to_integrity do
      check h
      match validator.finish with
      | .error _ => Prog.stop .Integrity
      | .ok counts => do
        check h
        return counts
    check h
    return ⟨counts.source_bytes, counts.payload_bytes, counts.files⟩

/-- `restore_inspect` -/
def restore_inspect (store : Id) (binding : ArtifactBinding) (steps : Nat) (session : τ)
    (st : Store σ) : Option (Except BackupError BackupInspection) × Store σ :=
  match (do check h; authenticated_bytes h store binding : Act σ Bytes) st with
  | (.error error, st) => (some (.error error), st)
  | (.ok ciphertext, st) =>
    match decrypt_to_staging h dec binding.source_bytes steps
        { st := st, session := session, input := ciphertext, position := 0, bytes := [] } with
    | (none, s) => (none, s.st)
    | (some (.error _), s) => (some (.error .Integrity), s.st)
    | (some (.ok report), s) =>
      match inspect_staging h d binding ciphertext.length report s.position s.bytes s.st with
      | (result, st) => (some result, st)

end

end openwrt_mcp_adapters.backups
