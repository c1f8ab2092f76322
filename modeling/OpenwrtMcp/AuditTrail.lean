-- What a request has recorded when it asks the device, and when it ends.
import OpenwrtMcp.DispatcherCalls

open json tasks text
open openwrt_mcp_core
open tasks.Fallible (attempt)

namespace openwrt_mcp_runtime

abbrev Told := List (Σ c : Call, Answer c)
abbrev Memory := Past Call Answer Request

/-- The event that a call gives to a thread to write. -/
def Call.event : Call → Option AuditEvent
  | .spawn_record event => some event
  | _ => none

def events (told : Told) : List AuditEvent := told.filterMap fun x => x.1.event

/-- The program has learned that this event was written. -/
def Recorded (event : AuditEvent) (told : Told) : Prop :=
  ∃ worker : Nat, ⟨.spawn_record event, worker⟩ ∈ told ∧ ⟨.join worker, true⟩ ∈ told

/-- Why nothing could be recorded: the audit had failed, nobody could wait any more, or this very
record has made it fail. -/
def Unavailable (told : Told) : Prop :=
  ⟨.load_failed, true⟩ ∈ told ∨ ⟨.try_acquire_waiter, false⟩ ∈ told ∨ ⟨.store_failed, ()⟩ ∈ told

namespace Request

def name : Request → Option Str
  | .invoke name _ => some name
  | .capability_status arguments =>
    (as_object arguments).bind fun fields => (Map.get fields "operation".toList).bind as_str

def kind : Request → AuditKind
  | .invoke _ _ => .Invocation
  | .capability_status _ => .Capability

/-- The arguments are ones that the operation takes. -/
def Takes (operation : Operation) : Request → Prop
  | .invoke _ arguments => ∃ invocation, operation.prepare_invocation arguments = .ok invocation
  | .capability_status arguments =>
    ∃ fields, as_object arguments = some fields ∧ Dispatcher.status_arguments fields = true

/-- The action that the request invokes. -/
def Acts (operation : Operation) (invocation : PreparedInvocation) : Request → Prop
  | .invoke _ arguments => operation.prepare_invocation arguments = .ok invocation
  | .capability_status _ => False

end Request

/-- The operation is in the catalog, the policy authorizes it, and it takes the arguments. -/
structure Dispatcher.Accepts (d : Dispatcher) (r : Request) (operation : Operation) : Prop where
  name : r.name.bind d.catalog.get = some operation
  policy : d.policy.authorize operation = .ok ()
  arguments : r.Takes operation

namespace Dispatcher

variable (d : Dispatcher) (r : Request)

/-- The start of the request was written, and nothing else was given out to write. -/
structure Started (operation : Operation) (told : Told) : Prop where
  accepts : d.Accepts r operation
  start : ∃ start, events told = [start] ∧ start.phase = .Start ∧ Recorded start told

/-- What may be recorded next. -/
inductive Fits (told : Told) (event : AuditEvent) : Prop
  | rejection (nothing : events told = []) (phase : event.phase = .Rejection)
  | start {operation : Operation} (accepts : d.Accepts r operation) (nothing : events told = [])
      (phase : event.phase = .Start)
  | finish {operation : Operation} (started : d.Started r operation told)
      (phase : event.phase = .Finish)

/-- An event of this request, which fits what was recorded before. -/
structure Records (told : Told) (event : AuditEvent) : Prop where
  sequence : told.head? = some ⟨.fetch_add, event.request_sequence⟩
  kind : event.kind = r.kind
  fits : d.Fits r told event

/-- The last readings before an action is executed: the observation was issued to this request,
and if it is one of a device, it is not revoked, the device is the same, and it is not long ago. -/
structure Checked (observation : Observation) (told : Told) : Prop where
  issued : ⟨.set_issued observation, ()⟩ ∈ told
  readings : observation.epoch.isSome = true → ∃ time late : Nat, time < observation.started + TTL ∧
    [⟨.load_flag observation.valid, true⟩, ⟨.capability_epoch, observation.epoch⟩, ⟨.now, time⟩,
      ⟨.now, late⟩] <:+ told

/-- Why the device may be asked this. -/
def Grounds (operation : Operation) (told : Told) : BackendCall → Prop
  | .probe object limits => operation.capability.probe_object = some object ∧ limits = d.limits
  | .execute action limits => limits = d.limits ∧ ∃ invocation observation,
      r.Acts operation invocation ∧ action = invocation.action ∧ Checked observation told ∧
        operation.capability.evaluate observation.value (some action) = .Compatible
  | .capture_apk_installed limits => limits = d.limits ∧ ∃ invocation,
      r.Acts operation invocation ∧ invocation.action = .ApkInstalledPage none
  | .capture_opkg_status limits => limits = d.limits ∧ ∃ invocation,
      r.Acts operation invocation ∧ invocation.action = .OpkgStatusPage none

/-- Where a new entry of the cache comes from: the device was probed since, it was the same one
before, as far as was known, and after, and it did not take too long. -/
def Probed (object : ReviewedObject) (entry : Observation) (told : Told) : Prop :=
  ∃ (limits : Limits) (value : CapabilityObservation) (previous : Option Nat) (epoch now : Nat),
    [⟨.now, entry.started⟩, ⟨.capability_epoch, previous⟩, ⟨.begins (.probe object limits), ()⟩,
      ⟨.returns (.probe object limits), .ok value⟩, ⟨.capability_epoch, some epoch⟩, ⟨.now, now⟩,
      ⟨.new_flag, entry.valid⟩] <:+ told ∧
    entry.value = CapabilityCache.checked object value ∧ entry.epoch = some epoch ∧
    (previous = none ∨ previous = some epoch) ∧ now < entry.started + TTL

def may (told : Told) : Call → Prop
  | .insert_entry object entry => Probed object entry told
  | .spawn_record event => d.Records r told event
  | .begins call => ∃ operation, d.Started r operation told ∧ d.Grounds r operation told call
  | _ => True

end Dispatcher

/-! ## Pasts -/

/-- Nothing was given out to write since. -/
structure Quiet (l l' : Memory) : Prop where
  le : l.Le l'
  same : events l'.calls = events l.calls

theorem events_append (told later : Told) : events (told ++ later) = events told ++ events later :=
  List.filterMap_append

theorem Quiet.refl (l : Memory) : Quiet l l := ⟨.refl l, rfl⟩

theorem Quiet.trans {l l' l'' : Memory} (h : Quiet l l') (h' : Quiet l' l'') : Quiet l l'' :=
  ⟨h.le.trans h'.le, h'.same.trans h.same⟩

section
variable {d : Dispatcher} {r : Request} {told told' : Told} {event : AuditEvent}
  {operation : Operation}

theorem Recorded.mono (h : Recorded event told) (hle : told <+: told') : Recorded event told' := by
  obtain ⟨worker, hspawn, hjoin⟩ := h
  exact ⟨worker, hle.subset hspawn, hle.subset hjoin⟩

theorem Unavailable.mono (h : Unavailable told) (hle : told <+: told') : Unavailable told' :=
  h.imp (fun hmem => hle.subset hmem)
    (.imp (fun hmem => hle.subset hmem) fun hmem => hle.subset hmem)

theorem Dispatcher.Started.mono (h : d.Started r operation told) (hle : told <+: told')
    (hevents : events told' = events told) : d.Started r operation told' := by
  obtain ⟨haccepts, start, hstart, hphase, hrecorded⟩ := h
  exact ⟨haccepts, start, hevents.trans hstart, hphase, hrecorded.mono hle⟩

theorem Dispatcher.Fits.mono (h : d.Fits r told event) (hle : told <+: told')
    (hevents : events told' = events told) : d.Fits r told' event := by
  cases h with
  | rejection hnothing hphase => exact .rejection (hevents.trans hnothing) hphase
  | start haccepts hnothing hphase => exact .start haccepts (hevents.trans hnothing) hphase
  | finish hstarted hphase => exact .finish (hstarted.mono hle hevents) hphase

theorem Dispatcher.Records.mono (h : d.Records r told event) (hle : told <+: told')
    (hevents : events told' = events told) : d.Records r told' event := by
  obtain ⟨hsequence, hkind, hfits⟩ := h
  obtain ⟨later, rfl⟩ := hle
  exact ⟨by rw [List.head?_append, hsequence]; rfl, hkind,
    hfits.mono (List.prefix_append _ _) hevents⟩

end

section
variable {d : Dispatcher} {l l' : Memory} {operation : Operation}

theorem Quiet.started (h : Quiet l l') (hs : d.Started l.request operation l.calls) :
    d.Started l'.request operation l'.calls := by
  rw [h.le.request]
  exact hs.mono h.le.calls h.same

theorem told_mem (l : Memory) (c : Call) (a : Answer c) :
    (⟨c, a⟩ : Σ c : Call, Answer c) ∈ (l.told c a).calls :=
  List.mem_append_right _ (List.mem_singleton.2 rfl)

theorem events_told (l : Memory) (c : Call) (a : Answer c) :
    events (l.told c a).calls = events l.calls ++ c.event.toList := by
  show events (l.calls ++ [⟨c, a⟩]) = _
  rw [events_append]
  cases h : c.event with
  | none => simp [events, h]
  | some event => simp [events, h]

theorem Quiet.told (h : Quiet l l') {c : Call} (a : Answer c) (hc : c.event = none) :
    Quiet l (l'.told c a) := by
  refine ⟨h.le.trans (l'.le_told c a), ?_⟩
  rw [events_told, hc, h.same]
  exact List.append_nil _

theorem Quiet.records {event : AuditEvent} (h : Quiet l l')
    (hr : d.Records l.request l.calls event) : d.Records l'.request l'.calls event := by
  rw [h.le.request]
  exact hr.mono h.le.calls h.same

/-- Calls of these parts record nothing and ask no device. -/
def quiet_parts : List Part := [.Sequence, .Readings, .Permits, .Entries, .Flags, .Issued, .Slot]

theorem quiet_event {c : Call} (h : c.In quiet_parts) : c.event = none := by
  cases c with
  | spawn_record event => cases h
  | _ => rfl

theorem quiet_may {r : Request} {told : Told} {c : Call} (h : c.In quiet_parts) :
    d.may r told c := by
  cases c with
  | spawn_record event => cases h
  | begins call => cases call <;> cases h
  | insert_entry object entry => cases h
  | _ => trivial

theorem quiet_spec {α : Type} {t : Task Call Answer Nat α} {parts : List Part}
    (h : t.Calls (Call.In parts)) (hsub : parts ⊆ quiet_parts) :
    Safe (by_past d.may) (fun l' _ => Quiet l l') (Quiet l) t l :=
  Safe.of_calls (calls_widen h hsub)
    (fun _ _ hq hc => ⟨quiet_may hc, fun a _ => hq.told a (quiet_event hc)⟩) (.refl l)

end

/-! ## The parts of a record -/

/-- One event at most was given out to write since, and it is such a one. -/
structure Touched (P : AuditEvent → Prop) (l l' : Memory) : Prop where
  le : l.Le l'
  given : events l'.calls = events l.calls ∨
    ∃ event, P event ∧ events l'.calls = events l.calls ++ [event]

/-- How the writing of such an event ended: it was written, or it may not even have begun. -/
def Wrote {α : Type} (P : AuditEvent → Prop) (l l' : Memory) : Except RuntimeError α → Prop
  | .ok _ => l.Le l' ∧ ∃ event, P event ∧ events l'.calls = events l.calls ++ [event] ∧
      Recorded event l'.calls
  | .error _ => Touched P l l'

section
variable {d : Dispatcher} {l l' : Memory} {event : AuditEvent} {P : AuditEvent → Prop}
  {sequence : Nat} {phase : AuditPhase} {name : Str} {outcome : AuditOutcome}
  {duration_ms : Option Nat}

theorem Quiet.touched (h : Quiet l l') : Touched P l l' := ⟨h.le, .inl h.same⟩

theorem Touched.after_quiet {l'' : Memory} (h : Quiet l l') (ht : Touched P l' l'') :
    Touched P l l'' := ⟨h.le.trans ht.le, h.same ▸ ht.given⟩

theorem Touched.before_quiet {l'' : Memory} (ht : Touched P l l') (h : Quiet l' l'') :
    Touched P l l'' := ⟨ht.le.trans h.le, h.same.symm ▸ ht.given⟩

theorem Wrote.after_quiet {l'' : Memory} (h : Quiet l l') {α : Type}
    {result : Except RuntimeError α} (hw : Wrote P l' l'' result) : Wrote P l l'' result := by
  cases result with
  | ok a =>
    obtain ⟨hle, event, hP, hevents, hrecorded⟩ := hw
    exact ⟨h.le.trans hle, event, hP, h.same ▸ hevents, hrecorded⟩
  | error e => exact Touched.after_quiet h hw

theorem Wrote.before_quiet {l'' : Memory} {α : Type} {result : Except RuntimeError α}
    (hw : Wrote P l l' result) (h : Quiet l' l'') : Wrote P l l'' result := by
  cases result with
  | ok a =>
    obtain ⟨hle, event, hP, hevents, hrecorded⟩ := hw
    exact ⟨hle.trans h.le, event, hP, h.same.trans hevents, hrecorded.mono h.le.calls⟩
  | error e => exact Touched.before_quiet hw h

/-- An event of this phase and outcome. -/
def Of (phase : AuditPhase) (outcome : AuditOutcome) (event : AuditEvent) : Prop :=
  event.phase = phase ∧ event.outcome = outcome

/-- The request has its number. -/
def Numbered (l : Memory) (sequence : Nat) : Prop :=
  l.calls.head? = some ⟨.fetch_add, sequence⟩

theorem Numbered.mono (h : Numbered l sequence) (hle : l.Le l') : Numbered l' sequence := by
  obtain ⟨-, later, hcalls⟩ := hle
  unfold Numbered at h ⊢
  rw [← hcalls, List.head?_append, h]
  rfl

/-- The request was rejected, or the rejection could not be recorded. -/
def Rejected (l : Memory) : Prop :=
  events l.calls = [] ∨ ∃ rejection, events l.calls = [rejection] ∧ rejection.phase = .Rejection

theorem Touched.rejected (hnothing : events l.calls = [])
    (h : Touched (Of .Rejection outcome) l l') : Rejected l' := by
  obtain ⟨-, hsame | ⟨event, hphase, hevents⟩⟩ := h
  · exact .inl (hsame.trans hnothing)
  · exact .inr ⟨event, by rw [hevents, hnothing]; rfl, hphase.1⟩

theorem Wrote.rejected {α : Type} {result : Except RuntimeError α}
    (hnothing : events l.calls = []) (h : Wrote (Of .Rejection outcome) l l' result) :
    Rejected l' := by
  cases result with
  | ok a =>
    obtain ⟨-, event, hphase, hevents, -⟩ := h
    exact .inr ⟨event, by rw [hevents, hnothing]; rfl, hphase.1⟩
  | error e => exact Touched.rejected hnothing h

namespace Dispatcher

theorem record_spec (h : d.Records l.request l.calls event) :
    Safe (by_past d.may) (Wrote (· = event) l) (Touched (· = event) l) (record event).run l := by
  unfold record
  refine Safe.then_await trivial (Quiet.refl l).touched fun _ _ => ?_
  have hgate := (Quiet.refl l).told (c := .acquire_gate) () rfl
  refine Safe.then_ask trivial fun failed _ => ?_
  have hread := hgate.told (c := .load_failed) failed rfl
  split
  · refine Safe.then_ask trivial fun _ _ => ?_
    exact (hread.told (c := .release_gate) () rfl).touched
  · refine Safe.then_ask (h.mono hread.le.calls hread.same) fun worker _ => ?_
    have hspawn := (events_told _ (.spawn_record event) worker).trans
      (congrArg (· ++ [event]) hread.same)
    have hle := hread.le.trans (Past.le_told _ (.spawn_record event) worker)
    refine Safe.then_await trivial ⟨hle, .inr ⟨event, rfl, hspawn⟩⟩ fun ok _ => ?_
    split
    · rename_i hok
      refine ⟨hle.trans (Past.le_told _ (Call.join worker) ok), event, rfl, ?_, worker, ?_, ?_⟩
      · exact ((Quiet.refl _).told (c := .join worker) ok rfl).same.trans hspawn
      · simp [by_past, Past.told]
      · simp [by_past, Past.told, hok]
    · exact Touched.before_quiet ⟨hle, .inr ⟨event, rfl, hspawn⟩⟩
        ((Quiet.refl _).told (c := .join worker) ok rfl)

/-- How a record ended for the one who asked for it. -/
def Answered (P : AuditEvent → Prop) (l l' : Memory) (result : Except RuntimeError Unit) : Prop :=
  Wrote P l l' result ∧
    (result = .ok () ∨ result = .error .AuditUnavailable ∧ Unavailable l'.calls)

theorem Answered.after_quiet {l'' : Memory} (h : Quiet l l') {result : Except RuntimeError Unit}
    (ha : Answered P l' l'' result) : Answered P l l'' result := ⟨ha.1.after_quiet h, ha.2⟩

theorem Answered.before_quiet {l'' : Memory} {result : Except RuntimeError Unit}
    (ha : Answered P l l' result) (h : Quiet l' l'') : Answered P l l'' result :=
  ⟨ha.1.before_quiet h, ha.2.imp_right fun hunavailable =>
    ⟨hunavailable.1, hunavailable.2.mono h.le.calls⟩⟩

theorem record_waiting_spec (h : d.Records l.request l.calls event) :
    Safe (by_past d.may) (Answered (· = event) l) (fun _ => True) (d.record_waiting event).run
      l := by
  unfold record_waiting
  refine Safe.then_ask trivial fun now _ => ?_
  have hnow := (Quiet.refl l).told (c := .now) now rfl
  have hrecord := record_spec (hnow.records h)
  refine Safe.then_attempt ((Safe.fallible_timeout hrecord fun _ ht => ht).conseq
    (fun _ _ hw => hw) fun _ _ => trivial) ?_
  intro l' result hw
  split
  · exact ⟨hw.after_quiet hnow, .inl rfl⟩
  · refine Safe.then_ask trivial fun _ _ => ⟨?_, .inr ⟨rfl, .inr (.inr (told_mem _ _ _))⟩⟩
    exact Touched.before_quiet (.after_quiet hnow hw) ((Quiet.refl _).told _ rfl)

theorem record_audit_spec (h : d.Records l.request l.calls event) :
    Safe (by_past d.may) (Answered (· = event) l) (fun _ => True) (d.record_audit event).run l := by
  unfold record_audit
  refine Safe.then_ask trivial fun failed _ => ?_
  have hread := (Quiet.refl l).told (c := .load_failed) failed rfl
  split
  · rename_i hfailed
    exact ⟨hread.touched, .inr ⟨rfl, .inl (hfailed ▸ told_mem _ _ _)⟩⟩
  refine Safe.then_ask trivial fun place _ => ?_
  have hplace := hread.told (c := .try_acquire_waiter) place rfl
  split
  · rw [Safe.fallible_holding_iff]
    refine (record_waiting_spec (hplace.records h)).conseq ?_ ?_
    · intro l' result hw
      exact ⟨trivial, fun _ _ => .before_quiet (.after_quiet hplace hw) ((Quiet.refl _).told _ rfl)⟩
    · exact fun _ _ => ⟨trivial, fun _ _ => trivial⟩
  · rename_i hfull
    rw [Bool.not_eq_true] at hfull
    exact ⟨hplace.touched, .inr ⟨rfl, .inr (.inl (hfull ▸ told_mem _ _ _))⟩⟩

theorem record_event_spec (hnumber : Numbered l sequence)
    (hfits : ∀ event, Of phase outcome event → d.Fits l.request l.calls event) :
    Safe (by_past d.may) (Answered (Of phase outcome) l) (fun _ => True)
      (d.record_event sequence phase name outcome duration_ms l.request.kind).run l := by
  unfold record_event
  refine Safe.then_ask trivial fun timestamp_ms _ => ?_
  have htime := (Quiet.refl l).told (c := .system_now) timestamp_ms rfl
  refine (record_audit_spec (htime.records ?_)).conseq ?_ ?_
  · exact ⟨hnumber, rfl, hfits _ ⟨rfl, rfl⟩⟩
  · intro l' result hw
    refine Answered.after_quiet htime ⟨?_, hw.2⟩
    cases result with
    | ok a =>
      obtain ⟨hle, event, rfl, hevents, hrecorded⟩ := hw.1
      exact ⟨hle, _, ⟨rfl, rfl⟩, hevents, hrecorded⟩
    | error e =>
      obtain ⟨hle, hsame | ⟨event, rfl, hevents⟩⟩ := hw.1
      · exact ⟨hle, .inl hsame⟩
      · exact ⟨hle, .inr ⟨_, ⟨rfl, rfl⟩, hevents⟩⟩
  · exact fun _ _ => trivial

theorem reject_spec (hnumber : Numbered l sequence) (hnothing : events l.calls = []) :
    Safe (by_past d.may) (Wrote (Of .Rejection outcome) l) (fun _ => True)
      (d.reject sequence name outcome l.request.kind).run l :=
  (record_event_spec hnumber fun _ h => .rejection hnothing h.1).conseq (fun _ _ h => h.1)
    fun _ h => h

/-- A request that is rejected ends with an error. -/
theorem rejected_spec {α : Type} {e : RuntimeError} (hnumber : Numbered l sequence)
    (hnothing : events l.calls = []) {Q : Memory → Except RuntimeError α → Prop}
    (hQ : ∀ l' e, Rejected l' → Q l' (.error e)) :
    Safe (by_past d.may) Q (fun _ => True) (do
      d.reject sequence name outcome l.request.kind
      throw e : Program α).run l := by
  refine Safe.and_then (reject_spec hnumber hnothing) ?_ ?_
  · exact fun l' _ hw => hQ l' e (hw.rejected hnothing)
  · exact fun l' e hw => hQ l' e (hw.rejected hnothing)

/-- The operation is found and authorized, and nothing was recorded, or the request is rejected. -/
def Authorized (d : Dispatcher) (name : Str) (l l' : Memory) : Except RuntimeError Operation → Prop
  | .ok operation => l' = l ∧ d.catalog.get name = some operation ∧
      d.policy.authorize operation = .ok ()
  | .error _ => Rejected l'

theorem authorize_spec (hnumber : Numbered l sequence) (hnothing : events l.calls = []) :
    Safe (by_past d.may) (d.Authorized name l) (fun _ => True)
      (d.authorize name sequence l.request.kind).run l := by
  unfold authorize
  split
  · exact rejected_spec hnumber hnothing fun _ _ h => h
  · rename_i operation hfound
    split
    · exact rejected_spec hnumber hnothing fun _ _ h => h
    · rename_i hpolicy
      exact ⟨rfl, hfound, hpolicy⟩

/-- The request has started, or it ends with an error that says why not. -/
def Admitted (d : Dispatcher) (operation : Operation) (l l' : Memory) :
    Except RuntimeError Unit → Prop
  | .ok _ => l.Le l' ∧ d.Started l'.request operation l'.calls
  | .error e => Rejected l' ∨ e = .AuditUnavailable ∧ Unavailable l'.calls ∧
      ∃ start, events l'.calls = [start] ∧ start.phase = .Start

theorem admit_spec (hnumber : Numbered l sequence) (hnothing : events l.calls = [])
    {operation : Operation} (haccepts : d.Accepts l.request operation) :
    Safe (by_past d.may) (d.Admitted operation l) (fun _ => True)
      (d.admit_operation operation sequence l.request.kind).run l := by
  unfold admit_operation
  refine Safe.then_ask trivial fun permit _ => ?_
  have hpermit := (Quiet.refl l).told (c := .try_acquire_permit) permit rfl
  split
  · rw [Safe.guarding_iff]
    refine (record_event_spec (hnumber.mono hpermit.le) ?_).conseq ?_ ?_
    · exact fun event h => .start haccepts (hpermit.same.trans hnothing) h.1
    · intro l' result hw
      have hw := hw.after_quiet hpermit
      cases result with
      | ok a =>
        obtain ⟨hle, start, hphase, hevents, hrecorded⟩ := hw.1
        rw [hnothing] at hevents
        exact ⟨hle, hle.request ▸ haccepts, start, hevents, hphase.1, hrecorded⟩
      | error e =>
        refine ⟨trivial, fun _ _ => ?_⟩
        have hw := hw.before_quiet ((Quiet.refl l').told (c := .release_permit) () rfl)
        obtain ⟨⟨-, hsame | ⟨start, hphase, hevents⟩⟩, hdenied⟩ := hw
        · exact .inl (.inl (hsame.trans hnothing))
        · rw [hnothing] at hevents
          obtain ⟨herror, hunavailable⟩ := hdenied.resolve_left (by simp)
          exact .inr ⟨Except.error.inj herror, hunavailable, start, hevents, hphase.1⟩
    · exact fun _ _ => ⟨trivial, fun _ _ => trivial⟩
  · exact rejected_spec (hnumber.mono hpermit.le) (hpermit.same.trans hnothing)
      fun _ _ h => .inl h

end Dispatcher

end

end openwrt_mcp_runtime
