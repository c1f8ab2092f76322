-- The workflow of `sealing`: the budget with its clock and latched failure, the two wrappers
-- that the cipher reads and writes through, the run, and the guard that cleans up.
import OpenwrtMcp.SealPorts

open programs

namespace openwrt_mcp_runtime.sealing

section
variable {σ α : Type} (p : Ports σ) (limits : SealLimits)

/-! ## The budget -/

/-- `Budget::new`: the first reading of the clock. -/
def Budget.new : Seal σ Unit := do
  let start ← call p.now_ms .Now
  Prog.modify fun run => { run with start := start, last := start, error := none }

/-- The first failure stays. -/
def Budget.fail (error : SealFailure) : Seal σ SealFailure := do
  let run ← Prog.get
  let first := run.error.getD error
  Prog.modify fun run => { run with error := some first }
  record (.Recorded error)
  return first

def Budget.check : Seal σ Unit := do
  let run ← Prog.get
  match run.error with
  | some error => Prog.stop (.fail error)
  | none =>
    let now ← call p.now_ms .Now
    if now < run.last then
      let error ← Budget.fail .ClockReversed
      Prog.stop (.fail error)
    else
      Prog.modify fun run => { run with last := now }
      if now - run.start ≥ limits.timeout_ms then
        let error ← Budget.fail .Deadline
        Prog.stop (.fail error)
      else return ()

def Budget.after (result : Except SealFailure α) : Seal σ α :=
  match result with
  | .error error => do
    let error ← Budget.fail error
    Prog.stop (.fail error)
  | .ok value => do
    Budget.check p limits
    return value

/-- `result.map_err(|_| failure)` -/
def map_err (failure : SealFailure) : Except SealPortError α → Except SealFailure α
  | .ok value => .ok value
  | .error _ => .error failure

/-! ## The wrappers -/

/-- The event of a read of the source. -/
def read_event (output : Bytes) : Reply (ReadReply output.length) → Event
  | .ret reply => .Read output.length reply.buffer (.ret reply.result)
  | .unwind => .Read output.length [] .unwind

def zeroized (size : Nat) : Bytes := List.replicate size 0

/-- `self.budget.fail(failure)`, and an error for the cipher. -/
def fail_read (output : Bytes) (failure : SealFailure) :
    Seal σ (Bytes × Except SealPortError Nat) := do
  let _ ← Budget.fail failure
  return (output, .error .mk)

/-- The read at the limit: one byte of a probe, which must not come. -/
def CheckedRead.probe (output : Bytes) : Seal σ (Bytes × Except SealPortError Nat) := do
  let reply ← call (p.read [0]) (read_event [0])
  match ← attempt (Budget.after p limits (map_err .SourceRead reply.result)) with
  | .error _ => return (output, .error .mk)
  | .ok count =>
    if count > 1 then fail_read output .InvalidIoCount
    else if count ≠ 0 then fail_read output .SourceLimit
    else
      Prog.modify fun run => { run with eof := true }
      return (output, .ok 0)

/-- The read of `size` bytes; `rest` is the part of the buffer behind them. -/
def CheckedRead.take (output rest : Bytes) : Seal σ (Bytes × Except SealPortError Nat) := do
  let reply ← call (p.read output) (read_event output)
  match ← attempt (Budget.after p limits (map_err .SourceRead reply.result)) with
  | .error error => fail_read (zeroized output.length ++ rest) error
  | .ok count =>
    if count > output.length then fail_read (zeroized output.length ++ rest) .InvalidIoCount
    else if count = 0 then
      Prog.modify fun run => { run with eof := true }
      return (reply.buffer ++ rest, .ok 0)
    else
      let run ← Prog.get
      if run.input_count + count < 2 ^ 64 then
        let checked ← call (p.feed (reply.buffer.take count)) (.Feed (reply.buffer.take count))
        match ← attempt (Budget.after p limits (map_err .Check checked)) with
        | .error _ => return (zeroized output.length ++ rest, .error .mk)
        | .ok () =>
          Prog.modify fun run => { run with input_count := run.input_count + count }
          return (reply.buffer ++ rest, .ok count)
      else fail_read (zeroized output.length ++ rest) .SourceLimit

/-- `CheckedRead::read`: the buffer after it, and what the cipher is told. -/
def CheckedRead.read (output : Bytes) : Seal σ (Bytes × Except SealPortError Nat) := do
  match ← attempt (Budget.check p limits) with
  | .error _ => return (output, .error .mk)
  | .ok () =>
    let run ← Prog.get
    if output.isEmpty || run.eof then return (output, .ok 0)
    else if run.input_count = limits.source_bytes then CheckedRead.probe p limits output
    else
      let size := min (min output.length CHUNK) (limits.source_bytes - run.input_count)
      CheckedRead.take p limits (output.take size) (output.drop size)

def fail_write (failure : SealFailure) : Seal σ (Except SealPortError Nat) := do
  let _ ← Budget.fail failure
  return .error .mk

/-- The write of the bytes that the limit leaves room for. -/
def CountedWrite.put (input : Bytes) : Seal σ (Except SealPortError Nat) := do
  let result ← call (p.write input) (.Write input)
  match ← attempt (Budget.after p limits (map_err .StageWrite result)) with
  | .error _ => return .error .mk
  | .ok count =>
    if count > input.length then fail_write .InvalidIoCount
    else if count = 0 then fail_write .ZeroWrite
    else
      let run ← Prog.get
      if run.output_count + count < 2 ^ 64 then
        Prog.modify fun run => { run with output_count := run.output_count + count }
        return .ok count
      else fail_write .CiphertextLimit

def CountedWrite.write (input : Bytes) : Seal σ (Except SealPortError Nat) := do
  match ← attempt (Budget.check p limits) with
  | .error _ => return .error .mk
  | .ok () =>
    let run ← Prog.get
    if input.isEmpty then return .ok 0
    else if run.output_count = limits.ciphertext_bytes then fail_write .CiphertextLimit
    else
      let size := min (min input.length CHUNK) (limits.ciphertext_bytes - run.output_count)
      CountedWrite.put p limits (input.take size)

def CountedWrite.flush : Seal σ (Except SealPortError Unit) := do
  match ← attempt (Budget.check p limits) with
  | .error _ => return .error .mk
  | .ok () =>
    let result ← call p.flush .Flush
    match ← attempt (Budget.after p limits (map_err .StageFlush result)) with
    | .error _ => return .error .mk
    | .ok () => return .ok ()

/-- The world moves on by itself: the cipher runs its own code. -/
def CipherStep.next : Seal σ CipherStep := fun run =>
  (.ok (p.cipher_step run.world).1, { run with world := (p.cipher_step run.world).2 })

def CipherAnswer.tell (answer : CipherAnswer) : Seal σ Unit :=
  Prog.modify fun run => { run with world := p.cipher_told answer run.world }

/-- The bytes of a read that went well. -/
def given (output : Bytes) : Except SealPortError Nat → Bytes
  | .ok count => output.take count
  | .error _ => []

/-- `cipher.encrypt(&mut input, &mut output)`, looked at for `steps` steps of the cipher. -/
def encrypt : Nat → Seal σ (Except SealPortError CipherCounts)
  | 0 => Prog.stop .running
  | steps + 1 => do
    match ← CipherStep.next p with
    | .Read output =>
      let (output, result) ← CheckedRead.read p limits output
      record (.Returned (given output result))
      CipherAnswer.tell p (.Read output result)
      encrypt steps
    | .Write input =>
      record (.Asked input)
      let result ← CountedWrite.write p limits input
      CipherAnswer.tell p (.Write result)
      encrypt steps
    | .Flush =>
      let result ← CountedWrite.flush p limits
      CipherAnswer.tell p (.Flush result)
      encrypt steps
    | .Return result =>
      record (.Encrypted result)
      return result
    | .Unwind =>
      record .EncryptUnwound
      Prog.stop .unwind

/-! ## The run -/

/-- `?` on a result that the budget does not see. -/
def question : Except SealFailure α → Seal σ α
  | .ok value => return value
  | .error failure => Prog.stop (.fail failure)

def StageCapabilities.all (caps : StageCapabilities) : Bool :=
  caps.private_staging && caps.atomic_publication && caps.durability

def PublishOutcome.publication : PublishOutcome → Publication
  | .Published => .Published
  | .NotPublished => .NotPublished
  | .Unknown => .Unknown

/-- The stage is asked for its capabilities. -/
def run_capabilities : Seal σ Unit := do
  Budget.check p limits
  let caps ← call p.capabilities .Capabilities
  Budget.check p limits
  if !caps.all then Prog.stop (.fail .StageUnsupported)
  else Budget.check p limits

/-- The cipher runs; the counts of the two wrappers after it. -/
def run_encrypt (steps : Nat) : Seal σ (Nat × Nat) := do
  let encrypted ← encrypt p limits steps
  let reported ← Budget.after p limits (map_err .Cipher encrypted)
  let run ← Prog.get
  if !run.eof then Prog.stop (.fail .IncompleteInput)
  else if run.input_count = 0 ∨ run.output_count = 0 then Prog.stop (.fail .EmptyStream)
  else if reported.input_bytes ≠ run.input_count ∨ reported.output_bytes ≠ run.output_count then
    Prog.stop (.fail .CountMismatch)
  else return (run.input_count, run.output_count)

/-- The checker and the source end. -/
def run_complete (input_count : Nat) : Seal σ CheckCounts := do
  Budget.check p limits
  let checked ← call p.finish .Finish
  let summary ← Budget.after p limits (map_err .Check checked)
  question (summary.validate input_count)
  Budget.check p limits
  let completed ← call p.complete .Complete
  Prog.modify fun run => { run with source_complete := completed.isOk }
  let completed ← Budget.after p limits (map_err .SourceCompletion completed)
  if completed ≠ input_count then Prog.stop (.fail .CountMismatch)
  else return summary

/-- The stage is flushed and its content published. -/
def run_publish (counts : SealedCounts) : Seal σ SealedCounts := do
  Budget.check p limits
  let flushed ← call p.flush .Flush
  Budget.after p limits (map_err .StageFlush flushed)
  Budget.check p limits
  Prog.modify fun run => { run with publication := .Unknown }
  let outcome ← call (p.publish counts) (.Publish counts)
  Prog.modify fun run => { run with publication := outcome.publication }
  Budget.check p limits
  if outcome ≠ .Published then Prog.stop (.fail .PublicationNotConfirmed)
  else return counts

/-- `ArchiveSealer::run` -/
def ArchiveSealer.run (steps : Nat) : Seal σ SealedCounts := do
  run_capabilities p limits
  let (input_count, output_count) ← run_encrypt p limits steps
  let summary ← run_complete p limits input_count
  run_publish p limits {
    source_bytes := input_count
    ciphertext_bytes := output_count
    expanded_bytes := summary.expanded_bytes
    payload_bytes := summary.payload_bytes
    files := summary.files }

/-! ## The guard -/

def Guard.cancel_source : Seal σ Unit := do
  let run ← Prog.get
  if !run.source_complete && !run.source_cancelled then
    Prog.modify fun run => { run with source_cancelled := true, source_cleanup := .Unknown }
    let outcome ← call p.cancel .Cancel
    Prog.modify fun run => { run with source_cleanup := outcome.into }
  else return ()

def Guard.abort_stage : Seal σ Unit := do
  let run ← Prog.get
  if !run.stage_aborted &&
    (run.publication == .NotAttempted || run.publication == .NotPublished) then
    Prog.modify fun run => { run with stage_aborted := true, stage_cleanup := .Unknown }
    let outcome ← call p.abort .Abort
    Prog.modify fun run => { run with stage_cleanup := outcome.into }
  else return ()

def Guard.cleanup : Seal σ Unit := do
  Guard.cancel_source p
  Guard.abort_stage p

/-- The body of `seal_with_clock`, without the drop of the guard at its end. -/
def sealed (steps : Nat) : Seal σ (Except SealFailureReport SealedCounts) := do
  Budget.new p
  match ← attempt (ArchiveSealer.run p limits steps) with
  | .ok counts => return .ok counts
  | .error cause =>
    Guard.cleanup p
    let run ← Prog.get
    return .error {
      cause := cause
      publication := run.publication
      source_cleanup := run.source_cleanup
      stage_cleanup := run.stage_cleanup }

end

/-- How `seal_with_clock` ends. A port that unwinds in the drop of an unwinding call ends the
process. -/
inductive Ended
  | returned (result : Except SealFailureReport SealedCounts)
  | unwound
  | aborted
  | running

/-- `Guard::new` -/
def Run.new {σ : Type} (world : σ) : Run σ where
  world := world
  trace := []
  start := 0
  last := 0
  error := none
  input_count := 0
  eof := false
  output_count := 0
  source_complete := false
  source_cancelled := false
  stage_aborted := false
  publication := .NotAttempted
  source_cleanup := .NotRequired
  stage_cleanup := .NotRequired

/-- The guard is dropped at the end of the body, also when the body unwinds. -/
def ArchiveSealer.seal_with_clock {σ : Type} (sealer : ArchiveSealer) (p : Ports σ) (steps : Nat)
    (world : σ) : Ended × Run σ :=
  match sealed p sealer.limits steps (Run.new world) with
  | (.ok result, run) =>
    match Guard.cleanup p run with
    | (.ok (), run) => (.returned result, run)
    | (.error _, run) => (.unwound, run)
  | (.error .running, run) => (.running, run)
  | (.error _, run) =>
    match Guard.cleanup p run with
    | (.ok (), run) => (.unwound, run)
    | (.error _, run) => (.aborted, run)

end openwrt_mcp_runtime.sealing
