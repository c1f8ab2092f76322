-- What the requests of a dispatcher share: the audit sink and its gate, the permits, the
-- observations, the package snapshot, the clock, and the device behind the backend.
import OpenwrtMcp.Catalog
import OpenwrtMcp.FallibleTasks
import OpenwrtMcp.Packages
import OpenwrtMcp.Prepare

open json maps tasks text
open openwrt_mcp_core openwrt_mcp_core.packages

namespace openwrt_mcp_core

theorem ReviewedObject.ctorIdx_injective : Function.Injective ReviewedObject.ctorIdx := by
  intro a b h
  cases a <;> cases b <;> first | rfl | cases h

instance reviewed_object_order : LinearOrder ReviewedObject :=
  LinearOrder.lift' ReviewedObject.ctorIdx ReviewedObject.ctorIdx_injective

end openwrt_mcp_core

namespace openwrt_mcp_runtime

inductive RuntimeError
  | InvalidCursor
  | EntropyUnavailable
  | Core (error : CoreError)
  | UnknownOperation
  | CapabilityUnknown
  | CapabilityUnsupported
  | InvalidConfig
  | TargetNotConfigured
  | UnsupportedTarget
  | HostKeyRejected
  | AuthenticationFailed
  | UnsupportedAuditDestination
  | Busy
  | BackendFailed
  | Timeout
  | OutputLimit
  | InvalidOutput
  | AuditUnavailable
  | CompletionAuditFailed
  deriving DecidableEq

structure Limits where
  timeout_ms : Nat
  max_output_bytes : Nat
  max_concurrent : Nat
  deriving DecidableEq

def Limits.default : Limits where
  timeout_ms := 10000
  max_output_bytes := 65536
  max_concurrent := 2

def Limits.validate (limits : Limits) : Except RuntimeError Unit :=
  if !(1 ≤ limits.timeout_ms && limits.timeout_ms ≤ 300000) ||
      !(1 ≤ limits.max_output_bytes && limits.max_output_bytes ≤ 16777216) ||
      !(1 ≤ limits.max_concurrent && limits.max_concurrent ≤ 64) then .error .InvalidConfig
  else .ok ()

/-! ## Audit -/

inductive AuditKind
  | Invocation
  | Capability
  deriving DecidableEq

inductive AuditPhase
  | Start
  | Finish
  | Rejection
  deriving DecidableEq

inductive AuditOutcome
  | Attempt
  | Success
  | Denied
  | InvalidArguments
  | UnknownOperation
  | Busy
  | Failed
  deriving DecidableEq

structure AuditEvent where
  kind : AuditKind
  timestamp_ms : Nat
  request_sequence : Nat
  phase : AuditPhase
  operation : Str
  outcome : AuditOutcome
  duration_ms : Option Nat
  deriving DecidableEq

def safe_operation_name (name : Str) : Str :=
  if name ≠ [] && len name ≤ 128 &&
      (bytes name).all fun byte => is_ascii_alphanumeric byte || byte ∈ ascii "._-" then name
  else "unknown".toList

/-- The time of the event is read before: `timestamp_ms`. -/
def AuditEvent.new (timestamp_ms request_sequence : Nat) (phase : AuditPhase) (operation : Str)
    (outcome : AuditOutcome) (duration_ms : Option Nat) : AuditEvent where
  kind := .Invocation
  timestamp_ms := timestamp_ms
  request_sequence := request_sequence
  phase := phase
  operation := safe_operation_name operation
  outcome := outcome
  duration_ms := duration_ms

def AuditEvent.with_kind (event : AuditEvent) (kind : AuditKind) : AuditEvent :=
  { event with kind := kind }

/-! ## Evidence -/

/-- `valid` names the flag that all clones of the observation share. -/
structure Observation where
  value : CapabilityObservation
  epoch : Option Nat
  started : Nat
  valid : Nat

structure Snapshot where
  records : PackageObservation
  nonce : Nonce
  operation : Str
  epoch : Nat
  started : Nat

/-! ## Calls -/

/-- `probe(ProbeRequest::DescribeUbusObject(object), limits)` and the other calls of a backend. -/
inductive BackendCall
  | probe (object : ReviewedObject) (limits : Limits)
  | execute (action : PreparedAction) (limits : Limits)
  | capture_apk_installed (limits : Limits)
  | capture_opkg_status (limits : Limits)

@[reducible] def BackendCall.Output : BackendCall → Type
  | .probe _ _ => CapabilityObservation
  | .execute _ _ => Value
  | .capture_apk_installed _ => PackageObservation
  | .capture_opkg_status _ => PackageObservation

/-- The steps in which a request meets what it shares with others. A call of the backend begins
in one step and returns in a later one. -/
inductive Call
  | fetch_add
  | now
  | system_now
  | load_failed
  | store_failed
  | try_acquire_waiter
  | release_waiter
  | acquire_gate
  | release_gate
  | spawn_record (event : AuditEvent)
  | join (worker : Nat)
  | try_acquire_permit
  | release_permit
  | lock_entries
  | unlock_entries
  | get_entry (object : ReviewedObject)
  | remove_entry (object : ReviewedObject)
  | insert_entry (object : ReviewedObject) (entry : Observation)
  | new_flag
  | load_flag (valid : Nat)
  | clear_flag (valid : Nat)
  | set_issued (observation : Observation)
  | issued
  | try_lock_slot
  | unlock_slot
  | slot
  | set_slot (snapshot : Option Snapshot)
  | nonce
  | capability_epoch
  | begins (call : BackendCall)
  | returns (call : BackendCall)

@[reducible] def Answer : Call → Type
  | .fetch_add | .now | .system_now | .spawn_record _ | .new_flag => Nat
  | .load_failed | .try_acquire_waiter | .join _ | .try_acquire_permit | .load_flag _
  | .try_lock_slot => Bool
  | .store_failed | .release_waiter | .acquire_gate | .release_gate | .release_permit
  | .unlock_entries | .insert_entry _ _ | .clear_flag _ | .set_issued _
  | .unlock_slot | .set_slot _ | .begins _ => Unit
  | .lock_entries => BTreeMap ReviewedObject Observation
  | .get_entry _ | .remove_entry _ | .issued => Option Observation
  | .slot => Option Snapshot
  | .nonce => Except RuntimeError Nonce
  | .capability_epoch => Option Nat
  | .returns call => Except RuntimeError call.Output

/-- The time is in nanoseconds. -/
abbrev Program := Fallible Call Answer Nat RuntimeError

abbrev ask (c : Call) : Program (Answer c) := Fallible.ask c

abbrev await (c : Call) : Program (Answer c) := Fallible.await c

def MILLISECOND : Nat := 1000000
def SECOND : Nat := 1000 * MILLISECOND

/-- A result that is there already. -/
def settled {α : Type} : Except RuntimeError α → Program α
  | .ok a => pure a
  | .error e => throw e

/-- `.map_err(Into::into)` -/
def from_core {α : Type} : Except CoreError α → Except RuntimeError α
  | .ok a => .ok a
  | .error e => .error (.Core e)

/-! ## The world -/

/-- How far the thread is that writes a record: it waits for its turn, writes, has failed but not
said so, has only to give back the gate, or has ended. -/
inductive Phase
  | Queued
  | Recording
  | Failing
  | Closing (ok : Bool)
  | Finished (ok : Bool)
  deriving DecidableEq

structure Worker where
  event : AuditEvent
  phase : Phase

structure World where
  time : Nat
  epoch : Option Nat
  sequence : Nat
  audit_failed : Bool
  audit_waiters : Nat
  audit_gate : Bool
  workers : List Worker
  permits : Nat
  entries_locked : Bool
  entries : BTreeMap ReviewedObject Observation
  flags : List Bool
  issued : Nat → Option Observation
  slot_locked : Bool
  slot : Option Snapshot

namespace World

def set_phase (s : World) (worker : Nat) (phase : Phase) : World :=
  { s with workers := s.workers.modify worker fun w => { w with phase := phase } }

def phase (s : World) (worker : Nat) : Option Phase := (s.workers[worker]?).map Worker.phase

end World

/-- What a call does. One that has to wait has no answer yet. The clock of the system, the source
of the nonces and the backend answer as they will. -/
def exec (i : Nat) : (c : Call) → World → Answer c → World → Prop
  | .fetch_add, s, a, s' => a = s.sequence ∧ s' = { s with sequence := (s.sequence + 1) % 2 ^ 64 }
  | .now, s, a, s' => a = s.time ∧ s' = s
  | .system_now, s, a, s' => a < 2 ^ 64 ∧ s' = s
  | .load_failed, s, a, s' => a = s.audit_failed ∧ s' = s
  | .store_failed, s, _, s' => s' = { s with audit_failed := true }
  | .try_acquire_waiter, s, a, s' =>
    a = decide (0 < s.audit_waiters) ∧ s' = { s with audit_waiters := s.audit_waiters - 1 }
  | .release_waiter, s, _, s' => s' = { s with audit_waiters := s.audit_waiters + 1 }
  | .acquire_gate, s, _, s' => s.audit_gate = true ∧ s' = { s with audit_gate := false }
  | .release_gate, s, _, s' => s' = { s with audit_gate := true }
  | .spawn_record event, s, a, s' =>
    a = s.workers.length ∧ s' = { s with workers := s.workers ++ [⟨event, .Queued⟩] }
  | .join worker, s, a, s' => s.phase worker = some (.Finished a) ∧ s' = s
  | .try_acquire_permit, s, a, s' =>
    a = decide (0 < s.permits) ∧ s' = { s with permits := s.permits - 1 }
  | .release_permit, s, _, s' => s' = { s with permits := s.permits + 1 }
  | .lock_entries, s, a, s' =>
    s.entries_locked = false ∧ a = s.entries ∧ s' = { s with entries_locked := true }
  | .unlock_entries, s, _, s' => s' = { s with entries_locked := false }
  | .get_entry object, s, a, s' => a = s.entries.get object ∧ s' = s
  | .remove_entry object, s, a, s' =>
    a = s.entries.get object ∧ s' = { s with entries := s.entries.remove object }
  | .insert_entry object entry, s, _, s' =>
    s' = { s with entries := s.entries.insert object entry }
  | .new_flag, s, a, s' => a = s.flags.length ∧ s' = { s with flags := s.flags ++ [true] }
  | .load_flag valid, s, a, s' => s.flags[valid]? = some a ∧ s' = s
  | .clear_flag valid, s, _, s' =>
    valid < s.flags.length ∧ s' = { s with flags := s.flags.set valid false }
  | .set_issued observation, s, _, s' =>
    s' = { s with issued := Function.update s.issued i (some observation) }
  | .issued, s, a, s' => a = s.issued i ∧ s' = s
  | .try_lock_slot, s, a, s' => a = !s.slot_locked ∧ s' = { s with slot_locked := true }
  | .unlock_slot, s, _, s' => s' = { s with slot_locked := false }
  | .slot, s, a, s' => a = s.slot ∧ s' = s
  | .set_slot snapshot, s, _, s' => s' = { s with slot := snapshot }
  | .nonce, s, _, s' => s' = s
  | .capability_epoch, s, a, s' => a = s.epoch ∧ s' = s
  | .begins _, s, _, s' => s' = s
  | .returns _, s, _, s' => s' = s

/-- What happens besides: time passes, the device is another one, a thread goes on. -/
inductive Event
  | passes (time : Nat)
  | turns (epoch : Option Nat)
  | record_begins (worker : Nat)
  | record_returns (worker : Nat) (ok : Bool)
  | record_panics (worker : Nat)
  | latches (worker : Nat)
  | gives_back (worker : Nat)
  deriving DecidableEq

def outside (s : World) : Event → World → Prop
  | .passes time, s' => s.time ≤ time ∧ s' = { s with time := time }
  | .turns epoch, s' => s' = { s with epoch := epoch }
  | .record_begins worker, s' =>
    s.phase worker = some .Queued ∧ s' = s.set_phase worker .Recording
  | .record_returns worker ok, s' =>
    s.phase worker = some .Recording ∧
      s' = s.set_phase worker (if ok then .Closing true else .Failing)
  | .record_panics worker, s' =>
    s.phase worker = some .Recording ∧ s' = s.set_phase worker (.Closing false)
  | .latches worker, s' =>
    s.phase worker = some .Failing ∧
      s' = { s.set_phase worker (.Closing false) with audit_failed := true }
  | .gives_back worker, s' => ∃ ok, s.phase worker = some (.Closing ok) ∧
      s' = { s.set_phase worker (.Finished ok) with audit_gate := true }

end openwrt_mcp_runtime
