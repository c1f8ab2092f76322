-- The device is asked only for a request whose start was written before, and an action is executed
-- only on what was observed of the device not long ago and has not been revoked.
import OpenwrtMcp.CacheInvariant
import OpenwrtMcp.RequestTrail

open json maps tasks text
open openwrt_mcp_core

namespace openwrt_mcp_runtime

/-! ## The threads that write -/

def Happening.event : Happening → Option AuditEvent
  | .answered _ c _ => c.event
  | _ => none

/-- The events that were given to threads, each to the next one. -/
def spawned (history : History) : List AuditEvent := history.filterMap Happening.event

/-- The sink has taken the event. -/
def Written (history : History) (event : AuditEvent) : Prop :=
  ∃ worker : Nat, (spawned history)[worker]? = some event ∧
    .happened (.record_returns worker true) ∈ history

/-- Each thread has its event, and has closed well only after the sink took it. -/
structure Threads (history : History) (s : World) : Prop where
  events : s.workers.map Worker.event = spawned history
  closed : ∀ worker, s.phase worker = some (.Closing true) ∨
    s.phase worker = some (.Finished true) →
    .happened (.record_returns worker true) ∈ history

section
variable {history later : History} {m : Happening} {s s' : World} {event : AuditEvent}

theorem spawned_append : spawned (history ++ later) = spawned history ++ spawned later :=
  List.filterMap_append

theorem spawned_snoc : spawned (history ++ [m]) = spawned history ++ m.event.toList := by
  rw [spawned_append]
  unfold spawned
  cases hm : m.event with
  | none => rw [List.filterMap_cons_none hm]; rfl
  | some event => rw [List.filterMap_cons_some hm]; rfl

theorem Written.mono (h : Written history event) : Written (history ++ later) event := by
  obtain ⟨worker, hevent, hreturned⟩ := h
  refine ⟨worker, ?_, List.mem_append_left _ hreturned⟩
  rw [spawned_append]
  exact List.getElem?_append_left (List.getElem?_eq_some_iff.1 hevent).1 ▸ hevent

/-- Nothing is given to a thread, and the threads are as they were. -/
theorem Threads.quiet (h : Threads history s) (hm : m.event = none) (hs : s'.workers = s.workers) :
    Threads (history ++ [m]) s' where
  events := by
    rw [hs, spawned_snoc, hm, h.events]
    exact (List.append_nil _).symm
  closed worker hclosed := by
    unfold World.phase at hclosed
    rw [hs] at hclosed
    exact List.mem_append_left _ (h.closed worker hclosed)

theorem exec_workers {i : Nat} {c : Call} {a : Answer c} (h : exec i c s a s')
    (hc : c.event = none) : s'.workers = s.workers := by
  cases c with
  | spawn_record event => cases hc
  | lock_entries =>
    obtain ⟨-, -, rfl⟩ := h
    rfl
  | store_failed | release_waiter | release_gate | release_permit | set_issued | unlock_slot
  | set_slot | nonce | begins | returns | unlock_entries | insert_entry =>
    obtain rfl := h
    rfl
  | _ =>
    obtain ⟨-, rfl⟩ := h
    rfl

theorem phase_set_phase (s : World) (worker other : Nat) (phase : Phase) :
    (s.set_phase worker phase).phase other =
      if worker = other then (s.phase other).map fun _ => phase else s.phase other := by
  unfold World.phase World.set_phase
  rw [List.getElem?_modify]
  cases s.workers[other]? with
  | none => split <;> rfl
  | some w => split <;> rfl

theorem event_set_phase (s : World) (worker : Nat) (phase : Phase) :
    (s.set_phase worker phase).workers.map Worker.event = s.workers.map Worker.event := by
  refine List.ext_getElem? fun other => ?_
  unfold World.set_phase
  rw [List.getElem?_map, List.getElem?_map, List.getElem?_modify]
  cases s.workers[other]? with
  | none => rfl
  | some w => split <;> rfl

/-- A thread goes on; when it is to close well, its event has been taken. -/
theorem Threads.moves (h : Threads history s) {e : Event} {worker : Nat} {phase : Phase}
    (hs : s'.workers = (s.set_phase worker phase).workers)
    (hphase : phase = .Closing true ∨ phase = .Finished true →
      .happened (.record_returns worker true) ∈ history ++ [(.happened e : Happening)]) :
    Threads (history ++ [.happened e]) s' where
  events := by
    rw [hs, event_set_phase, spawned_snoc, h.events]
    exact (List.append_nil _).symm
  closed other hclosed := by
    have heq : s'.phase other = (s.set_phase worker phase).phase other := by
      unfold World.phase
      rw [hs]
    rw [heq, phase_set_phase] at hclosed
    split at hclosed
    · rename_i hother
      subst hother
      refine hphase (hclosed.imp ?_ ?_)
      · intro hc
        obtain ⟨_, _, hc⟩ := Option.map_eq_some_iff.1 hc
        exact hc
      · intro hc
        obtain ⟨_, _, hc⟩ := Option.map_eq_some_iff.1 hc
        exact hc
    · exact List.mem_append_left _ (h.closed other hclosed)

theorem threads_kept (d : Dispatcher) (time : Nat) (epoch : Option Nat) :
    Invariant (d.system time epoch) Threads where
  initial := ⟨rfl, fun worker h => by rcases h with h | h <;> cases h⟩
  start _ _ h := h.quiet rfl rfl
  late _ h := h.quiet rfl rfl
  cancelled _ h := h.quiet rfl rfl
  call := by
    intro history s i c a s' h hexec
    cases hc : c.event with
    | none => exact h.quiet hc (exec_workers hexec hc)
    | some event =>
      cases c with
      | spawn_record _ =>
        obtain ⟨rfl, rfl⟩ := hexec
        cases hc
        refine ⟨?_, ?_⟩
        · rw [spawned_snoc, List.map_append, h.events]
          rfl
        · intro worker hclosed
          refine List.mem_append_left _ (h.closed worker ?_)
          unfold World.phase at hclosed ⊢
          rw [List.getElem?_append] at hclosed
          split at hclosed
          · exact hclosed
          · cases hnew : [Worker.mk event .Queued][worker - s.workers.length]? with
            | none =>
              rw [hnew] at hclosed
              rcases hclosed with hclosed | hclosed <;> cases hclosed
            | some w =>
              obtain rfl := List.mem_singleton.1 (List.mem_of_getElem? hnew)
              rw [hnew] at hclosed
              rcases hclosed with hclosed | hclosed <;> cases hclosed
      | _ => cases hc
  outside := by
    intro history s e s' h hout
    cases e with
    | passes time =>
      obtain ⟨-, rfl⟩ := hout
      exact h.quiet rfl rfl
    | turns epoch =>
      obtain rfl := hout
      exact h.quiet rfl rfl
    | record_begins worker =>
      obtain ⟨-, rfl⟩ := hout
      exact h.moves rfl fun hphase => by rcases hphase with hphase | hphase <;> cases hphase
    | record_returns worker ok =>
      obtain ⟨-, rfl⟩ := hout
      refine h.moves rfl fun hphase => ?_
      cases ok with
      | true => exact List.mem_append_right _ (List.mem_singleton.2 rfl)
      | false => rcases hphase with hphase | hphase <;> cases hphase
    | record_panics worker =>
      obtain ⟨-, rfl⟩ := hout
      exact h.moves rfl fun hphase => by rcases hphase with hphase | hphase <;> cases hphase
    | latches worker =>
      obtain ⟨-, rfl⟩ := hout
      exact h.moves rfl fun hphase => by rcases hphase with hphase | hphase <;> cases hphase
    | gives_back worker =>
      obtain ⟨ok, hphase, rfl⟩ := hout
      refine h.moves rfl fun hok => List.mem_append_left _ (h.closed worker (.inl ?_))
      rw [hphase]
      rcases hok with hok | hok
      · cases hok
      · cases hok
        rfl

end

/-! ## What a request has learned -/

section
variable {d : Dispatcher} {time : Nat} {epoch : Option Nat} {history : History} {event : AuditEvent}
  {p : Pool World Call Answer Nat (Except RuntimeError Reply)} {i : Nat}

theorem mem_events {told : Told} (h : event ∈ events told) :
    ∃ worker : Nat, ⟨.spawn_record event, worker⟩ ∈ told := by
  obtain ⟨⟨c, a⟩, hmem, hevent⟩ := List.mem_filterMap.1 h
  cases c with
  | spawn_record given =>
    cases hevent
    exact ⟨a, hmem⟩
  | _ => cases hevent

/-- The thread of an event is the one that the event was given to. -/
theorem spawned_at (h : Reached (d.system time epoch) history p) {worker : Nat}
    (hmem : .answered i (.spawn_record event) worker ∈ history) :
    (spawned history)[worker]? = some event := by
  obtain ⟨before, later, rfl⟩ := List.append_of_mem hmem
  obtain ⟨q, s', hreached, rfl, -⟩ := h.exec_at rfl
  have hlength := congrArg List.length ((threads_kept d time epoch).reached hreached).events
  rw [List.length_map] at hlength
  rw [spawned_append, hlength, List.getElem?_append_right (Nat.le_refl _), Nat.sub_self]
  rfl

/-- What a request knows to be recorded, the sink has taken. -/
theorem Recorded.written (h : Reached (d.system time epoch) history p)
    (hrecorded : Recorded event (answers i history)) : Written history event := by
  obtain ⟨worker, hspawn, hjoin⟩ := hrecorded
  refine ⟨worker, spawned_at h (mem_answers.1 hspawn), ?_⟩
  obtain ⟨before, later, hsplit⟩ := List.append_of_mem (mem_answers.1 hjoin)
  obtain ⟨q, s', hreached, hphase, -⟩ := h.exec_at hsplit
  rw [hsplit]
  exact List.mem_append_left _
    (((threads_kept d time epoch).reached hreached).closed worker (.inr hphase))

/-- What was given out to write of a request has its number and its kind. -/
theorem event_numbered (h : Reached (d.system time epoch) history p) {r : Request}
    (hstarted : .started i r ∈ history) (hevent : event ∈ events (answers i history)) :
    (answers i history).head? = some ⟨.fetch_add, event.request_sequence⟩ ∧
      event.kind = r.kind := by
  obtain ⟨worker, hspawn⟩ := mem_events hevent
  obtain ⟨before, later, rfl⟩ := List.append_of_mem (mem_answers.1 hspawn)
  obtain ⟨r', hstarted', hrecords⟩ := (h.decided (program_spec d)).1 before later i _ _ rfl
  obtain rfl := h.started.2 i r r' hstarted (List.mem_append_left _ hstarted')
  refine ⟨?_, hrecords.kind⟩
  rw [answers_append, List.head?_append, hrecords.sequence]
  rfl

/-- Every call of a device belongs to a request of an operation that the catalog has, that the
policy authorizes and that takes the arguments, and the sink had taken the start of the request
before. -/
theorem the_device_is_asked_only_for_a_started_request
    (h : Reached (d.system time epoch) history p) :
    ∀ before later i call, history = before ++ .answered i (.begins call) () :: later →
      ∃ r operation start, .started i r ∈ before ∧ d.Accepts r operation ∧
        d.Grounds r operation (answers i before) call ∧
        events (answers i before) = [start] ∧ start.phase = .Start ∧ start.kind = r.kind ∧
        (answers i before).head? = some ⟨.fetch_add, start.request_sequence⟩ ∧
        Written before start := by
  rintro before later i call rfl
  obtain ⟨r, hstarted, operation, ⟨haccepts, start, hevents, hphase, hrecorded⟩, hgrounds⟩ :=
    (h.decided (program_spec d)).1 before later i _ _ rfl
  obtain ⟨q, s', hreached, -⟩ := h.exec_at rfl
  have hmem : start ∈ events (answers i before) := by
    rw [hevents]
    exact List.mem_singleton.2 rfl
  obtain ⟨hnumber, hkind⟩ := event_numbered hreached hstarted hmem
  exact ⟨r, operation, start, hstarted, haccepts, hgrounds, hevents, hphase, hkind, hnumber,
    hrecorded.written hreached⟩

def asks : Happening → Bool
  | .answered _ (.begins (.execute _ _)) _ => true
  | _ => false

theorem a_scan_is_asked_for_after_its_start :
    ∃ scene, played (scan_script 24) = some scene ∧ scene.1.any asks = true ∧
      ∀ before later i call, scene.1 = before ++ .answered i (.begins call) () :: later →
        ∃ r operation start, .started i r ∈ before ∧ scanner.Accepts r operation ∧
          scanner.Grounds r operation (answers i before) call ∧
          events (answers i before) = [start] ∧ start.phase = .Start ∧ start.kind = r.kind ∧
          (answers i before).head? = some ⟨.fetch_add, start.request_sequence⟩ ∧
          Written before start := by
  obtain ⟨scene, hscene, hreached, hasks⟩ :=
    played_to (scan_script 24) (fun scene => scene.1.any asks) (by decide +kernel)
  exact ⟨scene, hscene, hasks, the_device_is_asked_only_for_a_started_request hreached⟩

/-! ## What an action rests on -/

theorem ReviewedObject.from_name_eq_some {name : Str} {object : ReviewedObject}
    (h : ReviewedObject.from_name name = some object) : name = object.as_str := by
  have hfound := List.find?_some h
  exact (of_decide_eq_true hfound).symm

/-- Only a call of a reviewed object is compatible, and only with what was observed of it. -/
theorem evaluate_compatible {requirement : CapabilityRequirement} {action : PreparedAction}
    {observation : CapabilityObservation}
    (h : requirement.evaluate observation (some action) = .Compatible) :
    ∃ (object : ReviewedObject) (method : Str) (arguments : Value) (observed : ObjectObservation),
      action = .Ubus object.as_str method arguments ∧ requirement.probe_object = some object ∧
        observation = .Ubus observed ∧ observed.object = object := by
  unfold CapabilityRequirement.evaluate at h
  split at h
  · rename_i name method arguments contract
    split at h
    · cases h
    split at h
    · cases h
    rename_i object hobject
    split at h
    · cases h
    rename_i actual hactual
    unfold CapabilityRequirement.observed_verdict at h
    split at h
    · cases h
    rename_i observed
    split at h
    · cases h
    rename_i hsame
    cases action with
    | Ubus actual_object actual_method actual_arguments =>
      simp only [CapabilityRequirement.actual_arguments] at hactual
      split at hactual
      · rename_i hnames
        obtain ⟨rfl, rfl⟩ := hnames
        refine ⟨object, actual_method, actual_arguments, observed, ?_, hobject, rfl, ?_⟩
        · rw [ReviewedObject.from_name_eq_some hobject]
        · by_contra hne
          exact hsame (by simp [hne])
      · cases hactual
    | _ => cases hactual
  · cases h

theorem checked_ubus {object : ReviewedObject} {value : CapabilityObservation}
    {observed : ObjectObservation} (h : CapabilityCache.checked object value = .Ubus observed) :
    observed.object = object := by
  cases value with
  | Unknown reason => cases h
  | Ubus other =>
    simp only [CapabilityCache.checked] at h
    split at h
    · cases h
    · rename_i hsame
      cases h
      by_contra hne
      exact hsame (by simp [hne])

/-- An action that is executed is a call of a reviewed object, and fits what was observed of the
object. The object was probed while the device was the same one, and the observation was, when the
request read it last, not revoked, of the device that there is now and not long ago. -/
theorem only_what_was_observed_lately_is_acted_on
    (h : Reached (d.system time epoch) history p) :
    ∀ before later i action limits,
      history = before ++ .answered i (.begins (.execute action limits)) () :: later →
      ∃ r operation invocation observation object method arguments j earlier between,
        .started i r ∈ before ∧ d.Accepts r operation ∧ r.Acts operation invocation ∧
        action = invocation.action ∧ limits = d.limits ∧
        action = .Ubus (ReviewedObject.as_str object) method arguments ∧
        operation.capability.evaluate observation.value (some action) = .Compatible ∧
        observation.epoch.isSome = true ∧ Dispatcher.Checked observation (answers i before) ∧
        before = earlier ++ .answered j (.insert_entry object observation) () :: between ∧
        Dispatcher.Probed object observation (answers j earlier) := by
  rintro before later i action limits rfl
  have hdecided := (h.decided (program_spec d)).1
  obtain ⟨r, hstarted, operation, ⟨haccepts, -⟩, hlimits, invocation, observation, hacts, haction,
    hchecked, hcompatible⟩ := hdecided before later i _ _ rfl
  obtain ⟨object, method, arguments, observed, hubus, hobject, hvalue, hsame⟩ :=
    evaluate_compatible hcompatible
  obtain ⟨q, s', hreached, -⟩ := h.exec_at rfl
  obtain ⟨ls, hgood⟩ := (Keeper.protocol_kept (d := d)).reached hreached
  rcases hgood.inv.shared.issued observation ⟨i, mem_answers.1 hchecked.issued⟩ with
    ⟨-, reason, hblank⟩ | ⟨other, hin⟩
  · rw [hvalue] at hblank
    cases hblank
  have hepoch := (hgood.inv.shared.observed other observation hin).1
  obtain ⟨j, hmem⟩ := hin
  obtain ⟨earlier, between, rfl⟩ := List.append_of_mem hmem
  obtain ⟨_, -, hprobed⟩ := hdecided earlier
    (between ++ .answered i (.begins (.execute action limits)) () :: later) j
    (.insert_entry other observation) () (List.append_assoc ..)
  obtain ⟨limits', value, previous, epoch', now, hcalls, hchecked', hrest⟩ := hprobed
  have hother : other = object :=
    (checked_ubus (hchecked'.symm.trans hvalue)).symm.trans hsame
  subst hother
  exact ⟨r, operation, invocation, observation, other, method, arguments, j, earlier, between,
    hstarted, haccepts, hacts, haction, hlimits, hubus, hcompatible, hepoch, hchecked, rfl,
    limits', value, previous, epoch', now, hcalls, hchecked', hrest⟩

theorem a_scan_is_acted_on_what_was_observed :
    ∃ scene, played (scan_script 24) = some scene ∧ scene.1.any asks = true ∧
      ∀ before later i action limits,
        scene.1 = before ++ .answered i (.begins (.execute action limits)) () :: later →
        ∃ r operation invocation observation object method arguments j earlier between,
          .started i r ∈ before ∧ scanner.Accepts r operation ∧ r.Acts operation invocation ∧
          action = invocation.action ∧ limits = scanner.limits ∧
          action = .Ubus (ReviewedObject.as_str object) method arguments ∧
          operation.capability.evaluate observation.value (some action) = .Compatible ∧
          observation.epoch.isSome = true ∧ Dispatcher.Checked observation (answers i before) ∧
          before = earlier ++ .answered j (.insert_entry object observation) () :: between ∧
          Dispatcher.Probed object observation (answers j earlier) := by
  obtain ⟨scene, hscene, hreached, hasks⟩ :=
    played_to (scan_script 24) (fun scene => scene.1.any asks) (by decide +kernel)
  exact ⟨scene, hscene, hasks, only_what_was_observed_lately_is_acted_on hreached⟩

end

end openwrt_mcp_runtime
