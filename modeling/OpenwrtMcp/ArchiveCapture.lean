-- The capture of an archive over a session that is already authenticated: its channel repeats
-- the binding and goes on with the bytes of the archive.
import OpenwrtMcp.BackupBinding
import OpenwrtMcp.SshSession

open message_loops openwrt_mcp_runtime.backups

namespace openwrt_mcp_backend_ssh

/-- What a capture uses of the backend. The state is locked while another call is at work. -/
structure SshBackend where
  capture_target : Option Id
  control : Control
  locked : Bool

namespace transactions

/-- One turn of the loop as it meets the clock and the channel: the two checks of the budget,
and the message between them, if there is one within 20 milliseconds. -/
structure Wait where
  before : Except BackupError Unit
  message : Option ChannelMsg
  after : Except BackupError Unit

/-- The far end and the clock: how every call ends, and what is waited for until the channel
ends. -/
structure CaptureRemote where
  entered : Except BackupError Unit
  capture_channel : Except BackupError Unit
  requested : Except BackupError Unit
  waits : List Wait
  ended : Except BackupError Unit
  close : Except BackupError Unit
  closed : Except BackupError Unit

def CaptureRemote.messages (remote : CaptureRemote) : List ChannelMsg :=
  remote.waits.filterMap Wait.message

/-- The variables of the loop of `capture_archive`. -/
structure Capture where
  prefix_buffer : Bytes
  prefix_bytes : Nat
  bytes : Bytes
  accepted : Bool
  eof : Bool
  status : Option UInt32
  stderr_bytes : Nat

def Capture.new : Capture :=
  ⟨List.replicate BINDING_BYTES 0, 0, [], false, false, none, 0⟩

def failed {α : Type} (e : BackupError) : Except (Fault BackupError) α := .error (.Failed e)

def called (call : Except BackupError Unit) : Except (Fault BackupError) Unit :=
  call.mapError .Failed

namespace Capture

/-- What a message of data adds: first to the prefix, as far as it is not full, and then to the
bytes. -/
def on_data (binding : ArtifactBinding) (maximum : Nat) (c : Capture) (data : Bytes) :
    Except (Fault BackupError) Capture := do
  if data.length > 65536 then failed .Limit
  else
    let behind ← subtract maximum c.prefix_bytes
    let room ← subtract behind c.bytes.length
    if data.length > room then failed .Limit
    else
      let missing ← subtract BINDING_BYTES c.prefix_bytes
      let count := min missing data.length
      let prefix_buffer := c.prefix_buffer.take c.prefix_bytes ++ data.take count ++
        c.prefix_buffer.drop (c.prefix_bytes + count)
      let prefix_bytes := c.prefix_bytes + count
      if prefix_bytes = BINDING_BYTES ∧ prefix_buffer ≠ binding.encoded then failed .Integrity
      else .ok { c with prefix_buffer, prefix_bytes, bytes := c.bytes ++ data.drop count }

def on_stderr (c : Capture) (data : Bytes) : Except (Fault BackupError) Capture := do
  let room ← subtract 16384 c.stderr_bytes
  if data.length > room then failed .Limit
  else .ok { c with stderr_bytes := c.stderr_bytes + data.length }

/-- The `match` on a message. -/
def on_message (binding : ArtifactBinding) (maximum : Nat) (remote : CaptureRemote)
    (c : Capture) : ChannelMsg → Except (Fault BackupError) (Turn Capture CapturedArchive)
  | .WindowAdjusted _ => .ok (.Continue c)
  | .Success =>
    if !c.accepted then .ok (.Continue { c with accepted := true }) else failed .Integrity
  | .Data data =>
    if c.accepted && !c.eof then do
      let c ← c.on_data binding maximum data
      .ok (.Continue c)
    else failed .Integrity
  | .ExtendedData data ext =>
    if ext = 1 ∧ c.accepted && !c.eof then do
      let c ← c.on_stderr data
      .ok (.Continue c)
    else failed .Integrity
  | .ExitStatus exit_status =>
    if c.status.isNone then .ok (.Continue { c with status := some exit_status })
    else failed .Integrity
  | .Eof =>
    if c.accepted && !c.eof then .ok (.Continue { c with eof := true }) else failed .Integrity
  | .Close =>
    if c.accepted && c.eof && c.status = some 0 &&
        c.prefix_bytes + c.bytes.length = maximum then do
      called remote.close
      called remote.closed
      let captured ← (CapturedArchive.completed binding c.bytes c.bytes.length).mapError .Failed
      .ok (.Return captured)
    else failed .Integrity
  | .Failure | .Other _ => failed .Integrity

def turn (binding : ArtifactBinding) (maximum : Nat) (remote : CaptureRemote) (c : Capture)
    (wait : Wait) : Except (Fault BackupError) (Turn Capture CapturedArchive) := do
  called wait.before
  match wait.message with
  | none => .ok (.Continue c)
  | some message => do
    called wait.after
    c.on_message binding maximum remote message

end Capture

/-- The part behind the guard. -/
def capture (binding : ArtifactBinding) (remote : CaptureRemote) :
    Except (Fault BackupError) CapturedArchive := do
  called remote.capture_channel
  called remote.requested
  let maximum := binding.source_bytes + BINDING_BYTES
  if maximum > MAX_PLAINTEXT + BINDING_BYTES then failed .Limit
  else
    let ended := match remote.ended with
      | .ok () => Fault.Failed .Unavailable
      | .error e => .Failed e
    receive (Capture.turn binding maximum remote) ended .new remote.waits

end transactions

namespace SshBackend

open transactions

/-- The part before the guard. -/
def check_capture (backend : SshBackend) (binding : ArtifactBinding) (remote : CaptureRemote) :
    Except (Fault BackupError) Unit := do
  called remote.entered
  if backend.capture_target.all (fun id => binding.target ≠ id.1) ∨
      backend.control.epoch.isNone then transactions.failed .Invalid
  else if backend.locked then transactions.failed .Busy
  else backend.control.check.mapError fun _ => .Failed .Unavailable

/-- A guard that is not completed invalidates when it is dropped. -/
def capture_archive (backend : SshBackend) (binding : ArtifactBinding)
    (remote : CaptureRemote) : Except (Fault BackupError) CapturedArchive × SshBackend :=
  match backend.check_capture binding remote with
  | .error e => (.error e, backend)
  | .ok () =>
    match capture binding remote with
    | .ok captured => (.ok captured, backend)
    | .error e => (.error e, { backend with control := backend.control.invalidate })

end SshBackend

end openwrt_mcp_backend_ssh
