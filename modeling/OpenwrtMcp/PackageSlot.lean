-- The one snapshot of the packages that a dispatcher keeps, and the pages that are given out of it.
import OpenwrtMcp.RuntimePorts

open json tasks text
open openwrt_mcp_core openwrt_mcp_core.packages

namespace openwrt_mcp_runtime.packages

/-- How long a snapshot is kept. -/
def TTL : Nat := 120 * SECOND

/-- A lease that is dropped clears the slot, unless it is kept. -/
def drop_lease : List Call := [.set_slot none, .unlock_slot]

/-- What is checked before the lease keeps the snapshot. -/
def preserve : Program Unit := do
  match ← ask .slot with
  | none => throw .InvalidCursor
  | some snapshot =>
    if TTL ≤ (← ask .now) - snapshot.started then throw .InvalidCursor
    else if (← ask .capability_epoch) ≠ some snapshot.epoch then throw .InvalidCursor
    else pure ()

/-- The place in the snapshot that a cursor leads to. -/
def continued (operation : Str) (profile : PackageProfile) (cursor : Str) : Program Nat := do
  let cursor ← settled (from_core (PackageCursor.parse cursor))
  match ← ask .slot with
  | none => throw .InvalidCursor
  | some snapshot =>
    if cursor.nonce ≠ snapshot.nonce || profile ≠ snapshot.records.profile ||
        operation ≠ snapshot.operation then throw .InvalidCursor
    else if TTL ≤ (← ask .now) - snapshot.started then throw .InvalidCursor
    else if (← ask .capability_epoch) ≠ some snapshot.epoch then throw .InvalidCursor
    else pure cursor.offset

def capture (limits : Limits) : PackageProfile → Program PackageObservation
  | .Apk3_0_5 => do
    ask (.begins (.capture_apk_installed limits))
    settled (← await (.returns (.capture_apk_installed limits)))
  | .Opkg38eccbb1RootStatus => do
    ask (.begins (.capture_opkg_status limits))
    settled (← await (.returns (.capture_opkg_status limits)))

/-- A nonce of the source of tokens, if there is one. -/
def draw (tokens : Bool) : Program Nonce := do
  if tokens then settled (← await .nonce)
  else throw .EntropyUnavailable

/-- The slot is emptied first and filled only when all has gone well. -/
def captured (limits : Limits) (tokens : Bool) (operation : Str) (profile : PackageProfile)
    (deadline : Nat) : Program Nat := do
  ask (.set_slot none)
  let started ← ask .now
  let nonce ← draw tokens
  if deadline ≤ (← ask .now) then throw .Timeout
  else if nonce = zero then throw .EntropyUnavailable
  else do
    let previous ← ask .capability_epoch
    let records ← capture limits profile
    if records.profile ≠ profile then throw .InvalidOutput
    else do
      match ← ask .capability_epoch with
      | none => throw .CapabilityUnknown
      | some epoch =>
        if deadline ≤ (← ask .now) then throw .Timeout
        else if previous.any (· ≠ epoch) then throw .InvalidCursor
        else if TTL ≤ (← ask .now) - started then throw .InvalidCursor
        else do
          ask (.set_slot (some ⟨records, nonce, operation, epoch, started⟩))
          pure 0

/-- Where the page starts: a cursor goes on, and without one there is a new snapshot. -/
def offset (limits : Limits) (tokens : Bool) (operation : Str)
    (request : PackageProfile × Option Str) (deadline : Nat) : Program Nat :=
  match request.2 with
  | some cursor => continued operation request.1 cursor
  | none => captured limits tokens operation request.1 deadline

def page (limits : Limits) (tokens : Bool) (operation : Str)
    (request : PackageProfile × Option Str) (deadline : Nat) : Program Value := do
  let offset ← offset limits tokens operation request deadline
  match ← ask .slot with
  | none => throw .InvalidCursor
  | some snapshot => settled (from_core (snapshot.records.page snapshot.nonce offset))

end openwrt_mcp_runtime.packages
