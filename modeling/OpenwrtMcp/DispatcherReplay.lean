-- Runs of a dispatcher by a script, in front of a device that always answers the same.
import OpenwrtMcp.Dispatcher
import OpenwrtMcp.InputLaws
import OpenwrtMcp.Replays

open json maps tasks text
open openwrt_mcp_core openwrt_mcp_core.packages

namespace openwrt_mcp_runtime

/-- What a device answers, and the nonce that is drawn. -/
structure Device where
  probed : CapabilityObservation
  executed : Value
  captured : PackageObservation
  nonce : Nonce

namespace Device

def returned (device : Device) : (call : BackendCall) → call.Output
  | .probe _ _ => device.probed
  | .execute _ _ => device.executed
  | .capture_apk_installed _ => device.captured
  | .capture_opkg_status _ => device.captured

/-- The answer of a call, if it does not have to wait. -/
def respond (device : Device) (i : Nat) : (c : Call) → World → Option (Answer c × World)
  | .fetch_add, s => some (s.sequence, { s with sequence := (s.sequence + 1) % 2 ^ 64 })
  | .now, s => some (s.time, s)
  | .system_now, s => some (s.time % 2 ^ 64, s)
  | .load_failed, s => some (s.audit_failed, s)
  | .store_failed, s => some ((), { s with audit_failed := true })
  | .try_acquire_waiter, s =>
    some (decide (0 < s.audit_waiters), { s with audit_waiters := s.audit_waiters - 1 })
  | .release_waiter, s => some ((), { s with audit_waiters := s.audit_waiters + 1 })
  | .acquire_gate, s => if s.audit_gate then some ((), { s with audit_gate := false }) else none
  | .release_gate, s => some ((), { s with audit_gate := true })
  | .spawn_record event, s =>
    some (s.workers.length, { s with workers := s.workers ++ [⟨event, .Queued⟩] })
  | .join worker, s =>
    match s.phase worker with
    | some (.Finished ok) => some (ok, s)
    | _ => none
  | .try_acquire_permit, s => some (decide (0 < s.permits), { s with permits := s.permits - 1 })
  | .release_permit, s => some ((), { s with permits := s.permits + 1 })
  | .lock_entries, s =>
    if s.entries_locked then none else some (s.entries, { s with entries_locked := true })
  | .unlock_entries, s => some ((), { s with entries_locked := false })
  | .get_entry object, s => some (s.entries.get object, s)
  | .remove_entry object, s =>
    some (s.entries.get object, { s with entries := s.entries.remove object })
  | .insert_entry object entry, s =>
    some ((), { s with entries := s.entries.insert object entry })
  | .new_flag, s => some (s.flags.length, { s with flags := s.flags ++ [true] })
  | .load_flag valid, s => (s.flags[valid]?).map fun a => (a, s)
  | .clear_flag valid, s =>
    if valid < s.flags.length then some ((), { s with flags := s.flags.set valid false }) else none
  | .set_issued observation, s =>
    some ((), { s with issued := Function.update s.issued i (some observation) })
  | .issued, s => some (s.issued i, s)
  | .try_lock_slot, s => some (!s.slot_locked, { s with slot_locked := true })
  | .unlock_slot, s => some ((), { s with slot_locked := false })
  | .slot, s => some (s.slot, s)
  | .set_slot snapshot, s => some ((), { s with slot := snapshot })
  | .nonce, s => some (.ok device.nonce, s)
  | .capability_epoch, s => some (s.epoch, s)
  | .begins _, s => some ((), s)
  | .returns call, s => some (.ok (device.returned call), s)

/-- A step of a thread, if it is at this phase. -/
def moved (s : World) (worker : Nat) (before after : Phase) : Option World :=
  if s.phase worker = some before then some (s.set_phase worker after) else none

def occur (s : World) : Event → Option World
  | .passes time => if s.time ≤ time then some { s with time := time } else none
  | .turns epoch => some { s with epoch := epoch }
  | .record_begins worker => moved s worker .Queued .Recording
  | .record_returns worker ok => moved s worker .Recording (if ok then .Closing true else .Failing)
  | .record_panics worker => moved s worker .Recording (.Closing false)
  | .latches worker =>
    (moved s worker .Failing (.Closing false)).map fun s => { s with audit_failed := true }
  | .gives_back worker =>
    match s.phase worker with
    | some (.Closing ok) => some { s.set_phase worker (.Finished ok) with audit_gate := true }
    | _ => none

theorem respond_exec {device : Device} {i : Nat} {c : Call} {s s' : World} {a : Answer c}
    (h : device.respond i c s = some (a, s')) : exec i c s a s' := by
  cases c with
  | system_now =>
    cases h
    exact ⟨Nat.mod_lt _ (by decide), rfl⟩
  | acquire_gate =>
    simp only [respond] at h
    split at h
    · rename_i hgate
      cases h
      exact ⟨hgate, rfl⟩
    · cases h
  | join worker =>
    simp only [respond] at h
    split at h
    · rename_i hphase
      cases h
      exact ⟨hphase, rfl⟩
    · cases h
  | lock_entries =>
    simp only [respond] at h
    split at h
    · cases h
    · rename_i hfree
      cases h
      exact ⟨Bool.eq_false_of_not_eq_true hfree, rfl, rfl⟩
  | load_flag valid =>
    obtain ⟨b, hb, heq⟩ := Option.map_eq_some_iff.1 h
    cases heq
    exact ⟨hb, rfl⟩
  | clear_flag valid =>
    simp only [respond] at h
    split at h
    · rename_i hlt
      cases h
      exact ⟨hlt, rfl⟩
    · cases h
  | fetch_add | now | load_failed | try_acquire_waiter | spawn_record | try_acquire_permit
  | get_entry | remove_entry | new_flag | issued | try_lock_slot | slot | capability_epoch =>
    cases h
    exact ⟨rfl, rfl⟩
  | store_failed | release_waiter | release_gate | release_permit | unlock_entries | insert_entry
  | set_issued | unlock_slot | set_slot | nonce | begins | returns =>
    cases h
    rfl

theorem moved_eq {s s' : World} {worker : Nat} {before after : Phase}
    (h : moved s worker before after = some s') :
    s.phase worker = some before ∧ s' = s.set_phase worker after := by
  unfold moved at h
  split at h
  · rename_i hphase
    cases h
    exact ⟨hphase, rfl⟩
  · cases h

theorem occur_outside {s s' : World} {e : Event} (h : occur s e = some s') : outside s e s' := by
  cases e with
  | passes time =>
    simp only [occur] at h
    split at h
    · rename_i hle
      cases h
      exact ⟨hle, rfl⟩
    · cases h
  | turns epoch =>
    cases h
    rfl
  | record_begins worker => exact moved_eq h
  | record_returns worker ok => exact moved_eq h
  | record_panics worker => exact moved_eq h
  | latches worker =>
    obtain ⟨s₁, hmoved, rfl⟩ := Option.map_eq_some_iff.1 h
    obtain ⟨hphase, rfl⟩ := moved_eq hmoved
    exact ⟨hphase, rfl⟩
  | gives_back worker =>
    simp only [occur] at h
    split at h
    · rename_i ok hphase
      cases h
      exact ⟨ok, hphase, rfl⟩
    · cases h

end Device

/-- The requests of a dispatcher in front of this device. -/
def Dispatcher.player (d : Dispatcher) (device : Device) (time : Nat) (epoch : Option Nat) :
    Player (d.system time epoch) where
  respond := device.respond
  occur := Device.occur
  respond_exec := Device.respond_exec
  occur_outside := Device.occur_outside

/-! ## A dispatcher of one operation -/

def scanning : Catalog := (Catalog.new [wireless_scan]).toOption.getD ⟨[], .empty⟩

def granted : Policy where
  categories := .collect [(.Wireless, ⟨.Read, false⟩), (.Extensions, ⟨.ReadWrite, true⟩)]
  allow_operations := none
  deny_operations := ∅

def scanner : Dispatcher where
  catalog := scanning
  policy := granted
  limits := .default
  tokens := true
  limits_valid := rfl
  policy_valid := by
    unfold Policy.validate granted
    simp

/-- A radio that takes a scan and hears no network. -/
def radio : Device where
  probed := .Ubus ⟨.Iwinfo, ⟨[("scan".toList,
    ⟨⟨[("channel".toList, .Integer), ("device".toList, .String)], by decide⟩⟩)], by decide⟩⟩
  executed := .Object [("results".toList, .Array [])]
  captured := ⟨.Apk []⟩
  nonce := zero

def scan_request : Request :=
  .invoke "wireless_scan".toList (.Object [("device".toList, .String "radio0".toList)])

def refresh_request : Request :=
  .capability_status (.Object [("operation".toList, .String "wireless_scan".toList),
    ("refresh".toList, .Bool true)])

/-- The thread writes its record. -/
def written (worker : Nat) : List (Cue Event Request) :=
  [.event (.record_begins worker), .event (.record_returns worker true),
    .event (.gives_back worker)]

/-- The script is played from the start, with nobody else there. -/
def played (script : List (Cue Event Request)) : Option (Scene (scanner.system 0 (some 1))) :=
  (scanner.player radio 0 (some 1)).plays ([], ⟨scanner.initial 0 (some 1), []⟩) script

theorem played_reached {script : List (Cue Event Request)}
    {scene : Scene (scanner.system 0 (some 1))} (h : played script = some scene) :
    Reached (scanner.system 0 (some 1)) scene.1 scene.2 :=
  Player.plays_reached .start h

/-- A scan, up to so many steps after its start was written. -/
def scan_script (turns : Nat) : List (Cue Event Request) :=
  .request scan_request :: List.replicate 9 (.turn 0) ++ written 0 ++ List.replicate turns (.turn 0)

/-- A script that can be played to its end, and what can be seen there. -/
theorem played_to (script : List (Cue Event Request))
    (seen : Scene (scanner.system 0 (some 1)) → Bool) (h : (played script).any seen = true) :
    ∃ scene, played script = some scene ∧ Reached (scanner.system 0 (some 1)) scene.1 scene.2 ∧
      seen scene = true := by
  obtain ⟨scene, hscene, hseen⟩ := (Option.any_eq_true _ _).1 h
  exact ⟨scene, hscene, played_reached hscene, hseen⟩

end openwrt_mcp_runtime
