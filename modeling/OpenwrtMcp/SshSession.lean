-- One command over a session: the messages of its channel, up to the one that closes it, say
-- whether it has completed.
import OpenwrtMcp.MessageLoops
import Mathlib

open message_loops

namespace openwrt_mcp_backend_ssh

abbrev Bytes := List UInt8

inductive RuntimeError
  | BackendFailed
  | OutputLimit
  deriving DecidableEq

/-- What the requests and the driver of the connection share. -/
structure Control where
  failed : Bool
  authenticated : Bool
  socket : Bool
  deriving DecidableEq

namespace Control

def epoch (control : Control) : Option Nat :=
  if !control.failed && control.authenticated then some 1 else none

def check (control : Control) : Except RuntimeError Unit :=
  if control.failed then .error .BackendFailed else .ok ()

/-- The socket is shut down, whether or not there was one. -/
def invalidate (_ : Control) : Control where
  failed := true
  authenticated := false
  socket := false

end Control

/-- What a channel tells. The messages that no function here tells apart are `Other`. -/
inductive ChannelMsg
  | Data (data : Bytes)
  | ExtendedData (data : Bytes) (ext : UInt32)
  | Eof
  | Close
  | ExitStatus (exit_status : UInt32)
  | WindowAdjusted (new_size : UInt32)
  | Success
  | Failure
  | Other (kind : Nat)
  deriving DecidableEq

def is_flow_control : ChannelMsg → Bool
  | .WindowAdjusted _ => true
  | _ => false

/-- An error of the program, or a difference of two lengths that is below zero. -/
inductive Fault (ε : Type)
  | Underflow
  | Failed (e : ε)
  deriving DecidableEq

/-- `a - b` on lengths. -/
def subtract {ε : Type} (a b : Nat) : Except (Fault ε) Nat :=
  if b ≤ a then .ok (a - b) else .error .Underflow

/-- The far end: which calls on the channel succeed, and what it sends until it ends. -/
structure Remote where
  channel_open_session : Bool
  exec : Bytes → Bool
  eof : Bool
  messages : List ChannelMsg
  close : Bool

/-- Whether the source of the identity is still there, and whether a session is. -/
structure State where
  identity : Bool
  handle : Bool

/-- The variables of the loop of `execute`. -/
structure Completion where
  stdout : Bytes
  stderr_count : Nat
  exit_status : Option UInt32
  accepted : Bool
  eof : Bool

def Completion.new : Completion := ⟨[], 0, none, false, false⟩

/-- What `execute` tells of a completed command. -/
abbrev Outcome := Except RuntimeError Bytes

def failed {α : Type} : Except (Fault RuntimeError) α := .error (.Failed .BackendFailed)

/-- `.map_err(|_| RuntimeError::BackendFailed)?` -/
def succeeded (call : Bool) : Except (Fault RuntimeError) Unit := if call then .ok () else failed

namespace Completion

/-- The `match` on a message. -/
def on_message (maximum : Nat) (close : Bool) (c : Completion) :
    ChannelMsg → Except (Fault RuntimeError) (Turn Completion Outcome)
  | .Success => if !c.accepted then .ok (.Continue { c with accepted := true }) else failed
  | .Data data =>
    if !c.eof then do
      let room ← subtract maximum c.stdout.length
      if data.length > room then .error (.Failed .OutputLimit)
      else .ok (.Continue { c with stdout := c.stdout ++ data })
    else failed
  | .ExtendedData data ext =>
    if ext = 1 ∧ !c.eof then do
      let room ← subtract maximum c.stderr_count
      if data.length > room then .error (.Failed .OutputLimit)
      else .ok (.Continue { c with stderr_count := c.stderr_count + data.length })
    else failed
  | .ExitStatus code =>
    if c.exit_status.isNone then .ok (.Continue { c with exit_status := some code }) else failed
  | .Eof => if !c.eof then .ok (.Continue { c with eof := true }) else failed
  | .Close =>
    if !c.accepted then failed
    else
      match c.exit_status with
      | none => failed
      | some status => do
        succeeded close
        if status ≠ 0 then .ok (.Return (.error .BackendFailed))
        else .ok (.Return (.ok c.stdout))
  | .WindowAdjusted _ | .Failure | .Other _ => failed

def turn (maximum : Nat) (close : Bool) (c : Completion) (message : ChannelMsg) :
    Except (Fault RuntimeError) (Turn Completion Outcome) :=
  if is_flow_control message then .ok (.Continue c) else c.on_message maximum close message

end Completion

/-- The outer error is an uncertain completion, the inner one that of a completed command. -/
def State.execute (state : State) (remote : Remote) (command : Bytes) (maximum : Nat) :
    Except (Fault RuntimeError) Outcome := do
  succeeded state.handle
  succeeded remote.channel_open_session
  succeeded (remote.exec command)
  succeeded remote.eof
  receive (Completion.turn maximum remote.close) (.Failed .BackendFailed) .new remote.messages

/-! ## What a channel told -/

def ChannelMsg.stdout : ChannelMsg → Bytes
  | .Data data => data
  | _ => []

def ChannelMsg.stderr : ChannelMsg → Bytes
  | .ExtendedData data _ => data
  | _ => []

def ChannelMsg.exit_code : ChannelMsg → Option UInt32
  | .ExitStatus code => some code
  | _ => none

/-- Data of either stream. -/
def ChannelMsg.output : ChannelMsg → Bool
  | .Data _ => true
  | .ExtendedData _ _ => true
  | _ => false

def stdout_of (body : List ChannelMsg) : Bytes := body.flatMap ChannelMsg.stdout

def stderr_of (body : List ChannelMsg) : Bytes := body.flatMap ChannelMsg.stderr

def exit_codes (body : List ChannelMsg) : List UInt32 := body.filterMap ChannelMsg.exit_code

/-- The messages that are not about the flow of others. -/
def heard (messages : List ChannelMsg) : List ChannelMsg :=
  messages.filter fun message => !is_flow_control message

section
variable (body : List ChannelMsg) (m : ChannelMsg)

@[simp] theorem stdout_snoc : stdout_of (body ++ [m]) = stdout_of body ++ m.stdout := by
  simp [stdout_of]

@[simp] theorem stderr_snoc : stderr_of (body ++ [m]) = stderr_of body ++ m.stderr := by
  simp [stderr_of]

@[simp] theorem exit_codes_snoc :
    exit_codes (body ++ [m]) = exit_codes body ++ m.exit_code.toList := by
  cases h : m.exit_code <;> simp [exit_codes, h]

end

end openwrt_mcp_backend_ssh
