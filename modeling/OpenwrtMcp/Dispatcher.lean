-- A dispatcher answers the requests of a client: it authorizes, admits, records what it starts and
-- how it ended, and asks the device in between.
import OpenwrtMcp.CapabilityCache
import OpenwrtMcp.PackageSlot

open json tasks text
open openwrt_mcp_core
open tasks.Fallible (attempt)

namespace openwrt_mcp_runtime

/-- `tokens` says whether there is a source of nonces. -/
structure Dispatcher where
  catalog : Catalog
  policy : Policy
  limits : Limits
  tokens : Bool
  limits_valid : limits.validate = .ok ()
  policy_valid : policy.validate catalog = .ok ()

inductive Request
  | invoke (name : Str) (arguments : Value)
  | capability_status (arguments : Value)

inductive Reply
  | output (value : Value)
  | status (status : CapabilityStatus)

/-- The result, if it is there in time. One that comes late revokes what it rests on. -/
def enforce_deadline {α : Type} (deadline : Nat) (observation : Option Observation)
    (result : Except RuntimeError α) : Program α := do
  if deadline ≤ (← ask .now) then do
    match observation with
    | some observation => observation.revoke
    | none => pure ()
    throw .Timeout
  else settled result

namespace Dispatcher

/-- `Dispatcher::new` and `with_snapshot_tokens` -/
def new (catalog : Catalog) (policy : Policy) (limits : Limits) (tokens : Bool) :
    Except RuntimeError Dispatcher :=
  match hlimits : limits.validate with
  | .error e => .error e
  | .ok () => match hpolicy : policy.validate catalog with
    | .error e => .error (.Core e)
    | .ok () => .ok ⟨catalog, policy, limits, tokens, hlimits, hpolicy⟩

def available_operations (d : Dispatcher) : List Operation :=
  d.catalog.operations.filter fun operation => d.policy.authorize operation = .ok ()

/-! ## The audit -/

/-- The part of a record that has a time limit. The thread holds the gate until it has written, also
when nobody waits for it any more. -/
def record (event : AuditEvent) : Program Unit := do
  await .acquire_gate
  if ← ask .load_failed then do
    ask .release_gate
    throw .AuditUnavailable
  else do
    let worker ← ask (.spawn_record event)
    if ← await (.join worker) then pure () else throw .AuditUnavailable

/-- The part of a record that holds one of the places to wait. -/
def record_waiting (d : Dispatcher) (event : AuditEvent) : Program Unit := do
  let deadline := (← ask .now) + min d.limits.timeout_ms 1000 * MILLISECOND
  match ← attempt (Fallible.timeout deadline .Timeout (record event)) with
  | .ok () => pure ()
  | .error _ => do
    ask .store_failed
    throw .AuditUnavailable

def record_audit (d : Dispatcher) (event : AuditEvent) : Program Unit := do
  if ← ask .load_failed then throw .AuditUnavailable
  else if ← ask .try_acquire_waiter then
    Fallible.holding [.release_waiter] (d.record_waiting event)
  else throw .AuditUnavailable

/-- `self.record_audit(AuditEvent::new(...).with_kind(kind))` -/
def record_event (d : Dispatcher) (sequence : Nat) (phase : AuditPhase) (operation : Str)
    (outcome : AuditOutcome) (duration_ms : Option Nat) (kind : AuditKind) : Program Unit := do
  let timestamp_ms ← ask .system_now
  d.record_audit
    ((AuditEvent.new timestamp_ms sequence phase operation outcome duration_ms).with_kind kind)

def reject (d : Dispatcher) (sequence : Nat) (operation : Str) (outcome : AuditOutcome)
    (kind : AuditKind) : Program Unit :=
  d.record_event sequence .Rejection operation outcome none kind

def finish {α : Type} (d : Dispatcher) (sequence : Nat) (operation : Operation)
    (kind : AuditKind) (started : Nat) (result : Except RuntimeError α) : Program α := do
  let outcome := if result.toBool then AuditOutcome.Success else .Failed
  let elapsed := ((← ask .now) - started) / MILLISECOND
  match ← attempt (d.record_event sequence .Finish operation.name outcome
      (some (min elapsed (2 ^ 64 - 1))) kind) with
  | .error _ => throw .CompletionAuditFailed
  | .ok () => settled result

/-! ## What comes before the device -/

def authorize (d : Dispatcher) (name : Str) (sequence : Nat) (kind : AuditKind) :
    Program Operation :=
  match d.catalog.get name with
  | none => do
    d.reject sequence "unknown".toList .UnknownOperation kind
    throw .UnknownOperation
  | some operation =>
    match d.policy.authorize operation with
    | .error error => do
      d.reject sequence operation.name .Denied kind
      throw (.Core error)
    | .ok () => pure operation

/-- The permit is held afterwards, unless the start could not be recorded. -/
def admit_operation (d : Dispatcher) (operation : Operation) (sequence : Nat) (kind : AuditKind) :
    Program Unit := do
  if ← ask .try_acquire_permit then
    Fallible.guarding [.release_permit]
      (d.record_event sequence .Start operation.name .Attempt none kind)
  else do
    d.reject sequence operation.name .Busy kind
    throw .Busy

/-! ## An invocation -/

/-- A page of the packages, under a lease of the slot. -/
def invoke_page (d : Dispatcher) (operation : Operation) (request : PackageProfile × Option Str)
    (sequence started deadline : Nat) : Program Value := do
  if ← ask .try_lock_slot then do
    let value ← Fallible.guarding packages.drop_lease (do
      let result ← attempt (Fallible.timeout deadline .Timeout
        (packages.page d.limits d.tokens operation.name request deadline))
      let result ← attempt (enforce_deadline deadline none result)
      let value ← d.finish sequence operation .Invocation started result
      packages.preserve
      pure value)
    ask .unlock_slot
    pure value
  else d.finish sequence operation .Invocation started (.error .Busy)

/-- The device is asked only when what was observed of it fits the action. -/
def execute_observed (d : Dispatcher) (operation : Operation) (invocation : PreparedInvocation)
    (observation : Observation) (deadline : Nat) : Program Value := do
  enforce_deadline deadline (some observation) (.ok ())
  match ← observation.verdict operation.capability (some invocation.action) with
  | .Compatible => do
    enforce_deadline deadline (some observation) (.ok ())
    ask (.begins (.execute invocation.action d.limits))
    let output ← enforce_deadline deadline (some observation)
      (← await (.returns (.execute invocation.action d.limits)))
    enforce_deadline deadline (some observation) (from_core (invocation.project output))
  | .Unknown _ => throw .CapabilityUnknown
  | .Incompatible _ => throw .CapabilityUnsupported

def execute (d : Dispatcher) (operation : Operation) (invocation : PreparedInvocation)
    (deadline : Nat) : Program Value := do
  let observation ← CapabilityCache.observe d.limits operation.capability false
  ask (.set_issued observation)
  d.execute_observed operation invocation observation deadline

/-- A program that ends by the deadline, or whose observation is revoked. -/
def within {α : Type} (d : Dispatcher) (operation : Operation) (kind : AuditKind)
    (sequence started deadline : Nat) (p : Program α) : Program α := do
  let result ← attempt (Fallible.timeout deadline .Timeout p)
  let issued ← ask .issued
  let result ← attempt (enforce_deadline deadline issued result)
  d.finish sequence operation kind started result

/-- The part of an invocation that holds a permit. -/
def admitted_invocation (d : Dispatcher) (operation : Operation) (invocation : PreparedInvocation)
    (sequence : Nat) : Program Value := do
  let started ← ask .now
  let now ← ask .now
  let deadline := now + d.limits.timeout_ms * MILLISECOND
  match invocation.action.package_page with
  | some request => d.invoke_page operation request sequence started deadline
  | none =>
    d.within operation .Invocation sequence started deadline
      (d.execute operation invocation deadline)

def invoke (d : Dispatcher) (name : Str) (arguments : Value) : Program Value := do
  let sequence ← ask .fetch_add
  let operation ← d.authorize name sequence .Invocation
  match operation.prepare_invocation arguments with
  | .error error => do
    d.reject sequence operation.name .InvalidArguments .Invocation
    throw (.Core error)
  | .ok invocation => do
    d.admit_operation operation sequence .Invocation
    Fallible.holding [.release_permit] (d.admitted_invocation operation invocation sequence)

/-! ## The status of a capability -/

/-- The answer for the packages, which are never probed. -/
def capture_required (requirement : CapabilityRequirement) (scope : String) : CapabilityStatus where
  compatibility := "unknown"
  reason := "capture_required"
  scope := scope
  response_contract := requirement.response_contract
  remaining_ttl_ms := none

def captured_status (requirement : CapabilityRequirement) : Option CapabilityStatus :=
  match requirement with
  | .ApkInstalledQuery => some (capture_required requirement "closed_query_response")
  | .OpkgRootStatusFile => some (capture_required requirement "closed_file_response")
  | _ => none

def status_observed (operation : Operation) (observation : Observation) (deadline : Nat) :
    Program CapabilityStatus := do
  enforce_deadline deadline (some observation) (.ok ())
  let status ← observation.status operation.capability
  enforce_deadline deadline (some observation) (.ok status)

def observed_status (d : Dispatcher) (operation : Operation) (refresh : Bool) (deadline : Nat) :
    Program CapabilityStatus := do
  let observation ← CapabilityCache.observe d.limits operation.capability refresh
  ask (.set_issued observation)
  status_observed operation observation deadline

/-- The part of a status request that holds a permit. -/
def admitted_status (d : Dispatcher) (operation : Operation) (refresh : Bool) (sequence : Nat) :
    Program CapabilityStatus := do
  let started ← ask .now
  match captured_status operation.capability with
  | some status => d.finish sequence operation .Capability started (.ok status)
  | none => do
    let now ← ask .now
    let deadline := now + d.limits.timeout_ms * MILLISECOND
    d.within operation .Capability sequence started deadline
      (d.observed_status operation refresh deadline)

/-- The request names no operation. -/
def unnamed (d : Dispatcher) (sequence : Nat) : Program CapabilityStatus := do
  d.reject sequence "unknown".toList .InvalidArguments .Capability
  throw (.Core .InvalidArguments)

/-- `refresh` is the only other member, and it says yes or no. -/
def status_arguments (fields : Map) : Bool :=
  (fields.keys.all fun key => key = "operation".toList || key = "refresh".toList) &&
    (Map.get fields "refresh".toList).all fun value => (as_bool value).isSome

def capability_status (d : Dispatcher) (arguments : Value) : Program CapabilityStatus := do
  let sequence ← ask .fetch_add
  match as_object arguments with
  | none => d.unnamed sequence
  | some fields =>
    match (Map.get fields "operation".toList).bind as_str with
    | none => d.unnamed sequence
    | some name => do
      let operation ← d.authorize name sequence .Capability
      if status_arguments fields then do
        let refresh := ((Map.get fields "refresh".toList).bind as_bool).getD false
        d.admit_operation operation sequence .Capability
        Fallible.holding [.release_permit] (d.admitted_status operation refresh sequence)
      else do
        d.reject sequence operation.name .InvalidArguments .Capability
        throw (.Core .InvalidArguments)

/-! ## The system -/

def program (d : Dispatcher) : Request → Task Call Answer Nat (Except RuntimeError Reply)
  | .invoke name arguments =>
    (d.invoke name arguments >>= fun value => pure (.output value) : Program Reply).run
  | .capability_status arguments =>
    (d.capability_status arguments >>= fun status => pure (.status status) : Program Reply).run

/-- A dispatcher that has answered nothing yet. -/
def initial (d : Dispatcher) (time : Nat) (epoch : Option Nat) : World where
  time := time
  epoch := epoch
  sequence := 1
  audit_failed := false
  audit_waiters := d.limits.max_concurrent + 1
  audit_gate := true
  workers := []
  permits := d.limits.max_concurrent
  entries_locked := false
  entries := .empty
  flags := []
  issued := fun _ => none
  slot_locked := false
  slot := none

/-- Any number of requests at once, on a device that answers as it will. -/
def system (d : Dispatcher) (time : Nat) (epoch : Option Nat) :
    System World Call Answer Nat Event Request (Except RuntimeError Reply) where
  initial := d.initial time epoch
  exec := exec
  outside := outside
  expired s limit := limit ≤ s.time
  program := d.program

end Dispatcher

end openwrt_mcp_runtime
