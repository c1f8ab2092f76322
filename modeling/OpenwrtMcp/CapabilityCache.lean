-- What was observed of the device, for how long it counts, and the cache that probes again when
-- there is nothing that counts.
import OpenwrtMcp.RuntimePorts

open json maps tasks text
open openwrt_mcp_core

namespace openwrt_mcp_core

def UnknownReason.code : UnknownReason → String
  | .NotObservedOrHidden => "not_observed_or_hidden"
  | .IncompleteSignature => "incomplete_signature"
  | .UnrecognizedType => "unrecognized_type"
  | .UnreviewedProbe => "unreviewed_probe"
  | .ProbeUnavailable => "probe_unavailable"
  | .InvalidObservation => "invalid_observation"
  | .StaleObservation => "stale_observation"

def IncompatibilityReason.code : IncompatibilityReason → String
  | .ArgumentTypeMismatch => "argument_type_mismatch"
  | .InvalidPreparedAction => "invalid_prepared_action"

def PACKAGE_RESPONSE_CONTRACT : Str := "packages_apk_installed.v1".toList
def OPKG_RESPONSE_CONTRACT : Str := "packages_opkg_status.v1".toList

def CapabilityRequirement.response_contract : CapabilityRequirement → Option Str
  | .UbusMethod _ _ _ response_contract => some response_contract
  | .Unverified => none
  | .ApkInstalledQuery => some PACKAGE_RESPONSE_CONTRACT
  | .OpkgRootStatusFile => some OPKG_RESPONSE_CONTRACT

end openwrt_mcp_core

namespace openwrt_mcp_runtime

/-- How long an observation counts. -/
def TTL : Nat := 30 * SECOND

structure CapabilityStatus where
  compatibility : String
  reason : String
  scope : String
  response_contract : Option Str
  remaining_ttl_ms : Option Nat

namespace Observation

def unknown (reason : UnknownReason) : Program Observation := do
  let started ← ask .now
  let valid ← ask .new_flag
  pure ⟨.Unknown reason, none, started, valid⟩

/-- The first reading that says no is the last one. -/
def fresh (observation : Observation) : Program Bool :=
  if observation.epoch.isNone then pure false
  else do
    if ← ask (.load_flag observation.valid) then
      if observation.epoch = (← ask .capability_epoch) then
        pure ((← ask .now) - observation.started < TTL)
      else pure false
    else pure false

def revoke (observation : Observation) : Program Unit := ask (.clear_flag observation.valid)

def verdict (observation : Observation) (requirement : CapabilityRequirement)
    (action : Option PreparedAction) : Program Verdict := do
  let fresh ← observation.fresh
  if observation.epoch.isSome && !fresh then pure (.Unknown .StaleObservation)
  else pure (requirement.evaluate observation.value action)

def compatibility : Verdict → String × String
  | .Compatible => ("compatible", "signature_matched")
  | .Incompatible reason => ("incompatible", reason.code)
  | .Unknown reason => ("unknown", reason.code)

def remaining_ttl_ms (observation : Observation) : Program (Option Nat) := do
  if ← observation.fresh then
    let now ← ask .now
    pure (some ((TTL - (now - observation.started)) / MILLISECOND))
  else pure none

def status (observation : Observation) (requirement : CapabilityRequirement) :
    Program CapabilityStatus := do
  let verdict ← observation.verdict requirement none
  let remaining_ttl_ms ← observation.remaining_ttl_ms
  pure {
    compatibility := (compatibility verdict).1
    reason := (compatibility verdict).2
    scope := "input_signature_only"
    response_contract := requirement.response_contract
    remaining_ttl_ms := remaining_ttl_ms }

end Observation

/-! ## The cache -/

namespace CapabilityCache

/-- `entries.retain(...)`: what does not count any more is revoked and taken out. -/
def retain : List (ReviewedObject × Observation) → Program Unit
  | [] => pure ()
  | (object, entry) :: rest => do
    if ← entry.fresh then retain rest
    else do
      entry.revoke
      let _ ← ask (.remove_entry object)
      retain rest

/-- The prior success is removed before the probe, and all clones of it are revoked. -/
def forget (object : ReviewedObject) : Program Unit := do
  match ← ask (.remove_entry object) with
  | some previous => previous.revoke
  | none => pure ()

/-- An observation of another object or of an invalid shape is none. -/
def checked (object : ReviewedObject) : CapabilityObservation → CapabilityObservation
  | .Ubus observed =>
    if observed.object ≠ object || observed.validate ≠ .ok () then .Unknown .InvalidObservation
    else .Ubus observed
  | .Unknown reason => .Unknown reason

/-- `backend.probe(...)` up to the new entry. The device has to be the same one all the while. -/
def probe (limits : Limits) (object : ReviewedObject) : Program Observation := do
  let started ← ask .now
  let previous_epoch ← ask .capability_epoch
  ask (.begins (.probe object limits))
  let value ← settled (← await (.returns (.probe object limits)))
  match ← ask .capability_epoch with
  | none => Observation.unknown .ProbeUnavailable
  | some epoch =>
    if previous_epoch.any (· ≠ epoch) then Observation.unknown .StaleObservation
    else if TTL ≤ (← ask .now) - started then Observation.unknown .StaleObservation
    else do
      let valid ← ask .new_flag
      let entry : Observation := ⟨checked object value, some epoch, started, valid⟩
      ask (.insert_entry object entry)
      pure entry

/-- A refresh asks the device in any case. -/
def cached (object : ReviewedObject) (refresh : Bool) : Program (Option Observation) :=
  if refresh then pure none else ask (.get_entry object)

/-- The part of `observe` that holds the lock. -/
def observe_locked (limits : Limits) (object : ReviewedObject) (refresh : Bool)
    (entries : BTreeMap ReviewedObject Observation) : Program Observation := do
  retain entries.entries
  match ← cached object refresh with
  | some entry => pure entry
  | none => do
    forget object
    probe limits object

def observe (limits : Limits) (requirement : CapabilityRequirement) (refresh : Bool) :
    Program Observation :=
  match requirement.probe_object with
  | none => Observation.unknown .UnreviewedProbe
  | some object => do
    let entries ← await .lock_entries
    Fallible.holding [.unlock_entries] (observe_locked limits object refresh entries)

end CapabilityCache

end openwrt_mcp_runtime
