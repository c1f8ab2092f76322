-- The data of `sealing` and its ports. A port is code that the sealer is given: each call
-- may answer anything, and may unwind. `Ports` has one function for each call, over a
-- world of any type that all of them share.
import OpenwrtMcp.Programs
import OpenwrtMcp.Text

open programs

namespace openwrt_mcp_runtime.sealing

abbrev Bytes := List UInt8

def CHUNK : Nat := 65536

structure SealLimits where
  source_bytes : Nat
  ciphertext_bytes : Nat
  timeout_ms : Nat
  deriving DecidableEq

structure CheckCounts where
  source_bytes : Nat
  expanded_bytes : Nat
  payload_bytes : Nat
  files : Nat
  deriving DecidableEq

structure CipherCounts where
  input_bytes : Nat
  output_bytes : Nat
  deriving DecidableEq

structure SealedCounts where
  source_bytes : Nat
  ciphertext_bytes : Nat
  expanded_bytes : Nat
  payload_bytes : Nat
  files : Nat
  deriving DecidableEq

structure StageCapabilities where
  private_staging : Bool
  atomic_publication : Bool
  durability : Bool
  deriving DecidableEq

inductive PublishOutcome
  | Published
  | NotPublished
  | Unknown
  deriving DecidableEq

inductive Publication
  | NotAttempted
  | NotPublished
  | Published
  | Unknown
  deriving DecidableEq

inductive CleanupOutcome
  | Cleaned
  | Unknown
  deriving DecidableEq

inductive Cleanup
  | NotRequired
  | Cleaned
  | Unknown
  deriving DecidableEq

/-- `Cleanup::from` -/
def CleanupOutcome.into : CleanupOutcome → Cleanup
  | .Cleaned => .Cleaned
  | .Unknown => .Unknown

/-- Also stands for an error of `std::io`, of which the sealer reads nothing. -/
inductive SealPortError
  | mk
  deriving DecidableEq

inductive SealFailure
  | InvalidLimits
  | StageUnsupported
  | SourceRead
  | SourceCompletion
  | Check
  | Cipher
  | StageWrite
  | StageFlush
  | SourceLimit
  | CiphertextLimit
  | InvalidIoCount
  | ZeroWrite
  | IncompleteInput
  | EmptyStream
  | CountMismatch
  | InvalidSummary
  | Deadline
  | ClockReversed
  | PublicationNotConfirmed
  deriving DecidableEq

structure SealFailureReport where
  cause : SealFailure
  publication : Publication
  source_cleanup : Cleanup
  stage_cleanup : Cleanup
  deriving DecidableEq

def SealLimits.validate (limits : SealLimits) : Except SealFailure Unit :=
  if limits.source_bytes = 0 ∨ limits.source_bytes > 75497472 ∨ limits.ciphertext_bytes = 0 ∨
      limits.ciphertext_bytes > 76546048 ∨ limits.timeout_ms = 0 ∨ limits.timeout_ms > 300000 then
    .error .InvalidLimits
  else .ok ()

def CheckCounts.validate (counts : CheckCounts) (source : Nat) : Except SealFailure Unit :=
  if counts.source_bytes ≠ source then .error .CountMismatch
  else if counts.files = 0 ∨ counts.files > 4096 ∨ counts.expanded_bytes = 0 ∨
      counts.expanded_bytes > 75497472 ∨ counts.payload_bytes > 67108864 ∨
      counts.payload_bytes > counts.expanded_bytes then
    .error .InvalidSummary
  else .ok ()

/-- The limits of an `ArchiveSealer`: `new` lets no others in. -/
structure ArchiveSealer where
  limits : SealLimits
  valid : limits.validate = .ok ()

/-! ## The ports -/

inductive Reply (α : Type)
  | ret (value : α)
  | unwind
  deriving DecidableEq

/-- The buffer after a `read`, of the same length, and the count or error. -/
structure ReadReply (size : Nat) where
  buffer : Bytes
  length_eq : buffer.length = size
  result : Except SealPortError Nat

/-- What the code of the cipher does next, inside of `encrypt`. -/
inductive CipherStep
  | Read (output : Bytes)
  | Write (input : Bytes)
  | Flush
  | Return (result : Except SealPortError CipherCounts)
  | Unwind

/-- What the cipher gets back: for a read also the buffer. -/
inductive CipherAnswer
  | Read (output : Bytes) (result : Except SealPortError Nat)
  | Write (result : Except SealPortError Nat)
  | Flush (result : Except SealPortError Unit)

/-- The traits `SealSource`, `SealCheck`, `SealCipher`, `SealStage` and `SealClock`. -/
structure Ports (σ : Type) where
  now_ms : σ → Reply Nat × σ
  read (output : Bytes) : σ → Reply (ReadReply output.length) × σ
  complete : σ → Reply (Except SealPortError Nat) × σ
  cancel : σ → Reply CleanupOutcome × σ
  feed (bytes : Bytes) : σ → Reply (Except SealPortError Unit) × σ
  finish : σ → Reply (Except SealPortError CheckCounts) × σ
  cipher_step : σ → CipherStep × σ
  cipher_told : CipherAnswer → σ → σ
  capabilities : σ → Reply StageCapabilities × σ
  write (input : Bytes) : σ → Reply (Except SealPortError Nat) × σ
  flush : σ → Reply (Except SealPortError Unit) × σ
  publish (counts : SealedCounts) : σ → Reply PublishOutcome × σ
  abort : σ → Reply CleanupOutcome × σ

/-! ## What happened -/

/-- A call of a port with its reply. Five events are no calls: the bytes that the cipher asks
to write, the bytes that a read gave to it, its return, an unwinding of its own code, and a
failure that the budget recorded. -/
inductive Event
  | Now (reply : Reply Nat)
  | Read (size : Nat) (buffer : Bytes) (reply : Reply (Except SealPortError Nat))
  | Complete (reply : Reply (Except SealPortError Nat))
  | Cancel (reply : Reply CleanupOutcome)
  | Feed (bytes : Bytes) (reply : Reply (Except SealPortError Unit))
  | Finish (reply : Reply (Except SealPortError CheckCounts))
  | Capabilities (reply : Reply StageCapabilities)
  | Write (input : Bytes) (reply : Reply (Except SealPortError Nat))
  | Flush (reply : Reply (Except SealPortError Unit))
  | Publish (counts : SealedCounts) (reply : Reply PublishOutcome)
  | Abort (reply : Reply CleanupOutcome)
  | Asked (input : Bytes)
  | Returned (bytes : Bytes)
  | Encrypted (result : Except SealPortError CipherCounts)
  | EncryptUnwound
  | Recorded (failure : SealFailure)

abbrev Trace := List Event

/-- The state of a run: the world of the ports, the `Budget`, the counts of `CheckedRead` and
`CountedWrite`, the `Guard`, and the trace of what happened. -/
structure Run (σ : Type) where
  world : σ
  trace : Trace
  start : Nat
  last : Nat
  error : Option SealFailure
  input_count : Nat
  eof : Bool
  output_count : Nat
  source_complete : Bool
  source_cancelled : Bool
  stage_aborted : Bool
  publication : Publication
  source_cleanup : Cleanup
  stage_cleanup : Cleanup

/-- Why a run does not go on: a failure, an unwinding port, or a cipher that is still running
when the steps that we look at are used up. -/
inductive Stop
  | fail (failure : SealFailure)
  | unwind
  | running
  deriving DecidableEq

abbrev Seal (σ α : Type) := Prog (Run σ) Stop α

section
variable {σ α : Type}

/-- A failure as a value; the other stops go on. -/
def Stop.failure : Stop → Except Stop SealFailure
  | .fail failure => .ok failure
  | stop => .error stop

def attempt (x : Seal σ α) : Seal σ (Except SealFailure α) := Prog.attempt Stop.failure x

/-- A call of a port. -/
def call (port : σ → Reply α × σ) (event : Reply α → Event) : Seal σ α := fun run =>
  match port run.world with
  | (.ret value, world) =>
    (.ok value, { run with world := world, trace := run.trace ++ [event (.ret value)] })
  | (.unwind, world) =>
    (.error .unwind, { run with world := world, trace := run.trace ++ [event .unwind] })

def record (event : Event) : Seal σ Unit :=
  Prog.modify fun run => { run with trace := run.trace ++ [event] }

end

end openwrt_mcp_runtime.sealing
