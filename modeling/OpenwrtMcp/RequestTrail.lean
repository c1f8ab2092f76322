-- A whole request, from its number to its result: the device is asked only after the start was
-- recorded, and the result agrees with what was recorded of it.
import OpenwrtMcp.AuditTrail

open json maps tasks text
open openwrt_mcp_core
open tasks.Fallible (attempt)

namespace openwrt_mcp_runtime

/-! ## Ends -/

/-- Start and end of the request were written, and nothing else. -/
structure Finished (outcome : AuditOutcome) (told : Told) : Prop where
  both : ∃ start finish, events told = [start, finish] ∧ start.phase = .Start ∧
    finish.phase = .Finish ∧ finish.outcome = outcome ∧ Recorded start told ∧ Recorded finish told

/-- The outcome that is recorded of a result. -/
def outcome_of {α : Type} : Except RuntimeError α → AuditOutcome
  | .ok _ => .Success
  | .error _ => .Failed

/-- How a request ends: it was rejected, or could not start, or its end could not be recorded, or
the end that was recorded is the one it had. Only a page can get lost after that. -/
inductive Ended {α : Type} (l : Memory) : Except RuntimeError α → Prop
  | rejected {e} (rejected : Rejected l) : Ended l (.error e)
  | unstarted {start} (given : events l.calls = [start]) (phase : start.phase = .Start)
      (why : Unavailable l.calls) : Ended l (.error .AuditUnavailable)
  | unrecorded {start} (given : events l.calls = [start] ∨
      ∃ finish, events l.calls = [start, finish] ∧ finish.phase = .Finish)
      (phase : start.phase = .Start) (why : Unavailable l.calls) :
      Ended l (.error .CompletionAuditFailed)
  | finished {result} (finished : Finished (outcome_of result) l.calls) : Ended l result
  | lost (finished : Finished .Success l.calls)
      (page : ∃ operation invocation, l.request.Acts operation invocation ∧
        invocation.action.package_page.isSome = true) : Ended l (.error .InvalidCursor)

section
variable {d : Dispatcher} {l l' : Memory} {α β : Type}

theorem Finished.quiet {outcome : AuditOutcome} (h : Finished outcome l.calls) (hq : Quiet l l') :
    Finished outcome l'.calls := by
  obtain ⟨start, finish, hevents, hstart, hfinish, houtcome, hrecorded, hended⟩ := h
  exact ⟨start, finish, hq.same.trans hevents, hstart, hfinish, houtcome,
    hrecorded.mono hq.le.calls, hended.mono hq.le.calls⟩

theorem Rejected.quiet (h : Rejected l) (hq : Quiet l l') : Rejected l' := by
  unfold Rejected at h ⊢
  rw [hq.same]
  exact h

theorem Ended.quiet {result : Except RuntimeError α} (h : Ended l result) (hq : Quiet l l') :
    Ended l' result := by
  cases h with
  | rejected hrejected => exact .rejected (hrejected.quiet hq)
  | unstarted hgiven hphase hwhy =>
    exact .unstarted (hq.same.trans hgiven) hphase (hwhy.mono hq.le.calls)
  | unrecorded hgiven hphase hwhy =>
    rw [← hq.same] at hgiven
    exact .unrecorded hgiven hphase (hwhy.mono hq.le.calls)
  | finished hfinished => exact .finished (hfinished.quiet hq)
  | lost hfinished hpage => exact .lost (hfinished.quiet hq) (hq.le.request ▸ hpage)

theorem Ended.map {result : Except RuntimeError α} (h : Ended l result) (f : α → β) :
    Ended l (result.map f) := by
  cases h with
  | rejected hrejected => exact .rejected hrejected
  | unstarted hgiven hphase hwhy => exact .unstarted hgiven hphase hwhy
  | unrecorded hgiven hphase hwhy => exact .unrecorded hgiven hphase hwhy
  | finished hfinished =>
    refine .finished ?_
    cases result with
    | ok a => exact hfinished
    | error e => exact hfinished
  | lost hfinished hpage => exact .lost hfinished hpage

end

namespace Dispatcher

section
variable {d : Dispatcher} {l : Memory} {operation : Operation} {sequence started : Nat} {α : Type}

theorem settled_spec {C : Contract Memory Call Answer} {result : Except RuntimeError α}
    {Q : Memory → Except RuntimeError α → Prop} {D : Memory → Prop} (h : Q l result) :
    Safe C Q D (settled result).run l := by
  cases result with
  | ok a => exact h
  | error e => exact h

theorem finish_spec (hnumber : Numbered l sequence)
    (hstarted : d.Started l.request operation l.calls)
    {result : Except RuntimeError α} :
    Safe (by_past d.may) Ended (fun _ => True)
      (d.finish sequence operation l.request.kind started result).run l := by
  unfold finish
  refine Safe.then_ask trivial fun now _ => ?_
  have hnow := (Quiet.refl l).told (c := .now) now rfl
  have houtcome : (if result.toBool then AuditOutcome.Success else .Failed) =
    outcome_of result := by
    cases result with
    | ok a => rfl
    | error e => rfl
  rw [houtcome]
  refine Safe.then_attempt (record_event_spec (hnumber.mono hnow.le)
    fun _ h => .finish (hnow.started hstarted) h.1) ?_
  intro l' recorded hrecorded
  obtain ⟨start, hstart, hphase, hwritten⟩ := hstarted.start
  have hwrote := (hrecorded.after_quiet hnow).1
  split
  · obtain ⟨-, hwhy⟩ := hrecorded.2.resolve_left (by simp)
    obtain ⟨-, hsame | ⟨finish, hfinish, hevents⟩⟩ := hwrote
    · exact .unrecorded (.inl (hsame.trans hstart)) hphase hwhy
    · rw [hstart] at hevents
      exact .unrecorded (.inr ⟨finish, hevents, hfinish.1⟩) hphase hwhy
  · obtain ⟨hle, finish, hfinish, hevents, hend⟩ := hwrote
    rw [hstart] at hevents
    exact settled_spec (.finished ⟨start, finish, hevents, hphase, hfinish.1, hfinish.2,
      hwritten.mono hle.calls, hend⟩)

end

end Dispatcher

/-! ## Observations -/

section
variable {d : Dispatcher} {l l' : Memory} {observation : Observation} {operation : Operation}
  {α β : Type}

/-- A part that records nothing, and then one that records nothing since. -/
theorem Quiet.extend {t : Task Call Answer Nat α} (h : Quiet l l')
    (hsafe : Safe (by_past d.may) (fun l'' _ => Quiet l' l'') (Quiet l') t l') :
    Safe (by_past d.may) (fun l'' _ => Quiet l l'') (Quiet l) t l' :=
  hsafe.conseq (fun _ _ hq => h.trans hq) fun _ hq => h.trans hq

/-- Two parts that record nothing. -/
theorem Quiet.and_then {p : Program α} {f : α → Program β} (h : Quiet l l')
    (hp : Safe (by_past d.may) (fun l'' _ => Quiet l' l'') (Quiet l') p.run l')
    (hf : ∀ l'' a, Quiet l l'' → Safe (by_past d.may) (fun l₃ _ => Quiet l l₃) (Quiet l)
      (f a).run l'') :
    Safe (by_past d.may) (fun l'' _ => Quiet l l'') (Quiet l) (p >>= f).run l' :=
  Safe.and_then (h.extend hp) (fun l'' a hq => hf l'' a hq) fun _ _ hq => hq

theorem unknown_spec {reason : UnknownReason} :
    Safe (by_past d.may) (fun l' _ => Quiet l l') (Quiet l) (Observation.unknown reason).run l :=
  quiet_spec calls_unknown (by decide)

theorem same_device {previous : Option Nat} {epoch : Nat}
    (h : ¬ previous.any (· ≠ epoch) = true) : previous = none ∨ previous = some epoch := by
  cases previous with
  | none => exact .inl rfl
  | some old => exact .inr (by simpa using h)

theorem not_long_ago {now started : Nat} (h : now - started < TTL) : now < started + TTL := by
  have hpositive : 0 < TTL := by decide
  omega

theorem probe_spec {object : ReviewedObject}
    (hstarted : d.Started l.request operation l.calls)
    (hobject : operation.capability.probe_object = some object) :
    Safe (by_past d.may) (fun l' _ => Quiet l l') (Quiet l)
      (CapabilityCache.probe d.limits object).run l := by
  unfold CapabilityCache.probe
  refine Safe.then_ask trivial fun started _ => ?_
  have h₁ := (Quiet.refl l).told (c := .now) started rfl
  refine Safe.then_ask trivial fun previous _ => ?_
  have h₂ := h₁.told (c := .capability_epoch) previous rfl
  refine Safe.then_ask ⟨operation, h₂.started hstarted, hobject, rfl⟩ fun _ _ => ?_
  have h₃ := h₂.told (c := .begins (.probe object d.limits)) () rfl
  refine Safe.then_await trivial h₃ fun value _ => ?_
  have h₄ := h₃.told (c := .returns (.probe object d.limits)) value rfl
  cases value with
  | error e => exact h₄
  | ok value =>
    refine Safe.then_ask trivial fun epoch _ => ?_
    have h₅ := h₄.told (c := .capability_epoch) epoch rfl
    split
    · exact h₅.extend unknown_spec
    rename_i epoch _
    split
    · exact h₅.extend unknown_spec
    rename_i hsame
    refine Safe.then_ask trivial fun now _ => ?_
    have h₆ := h₅.told (c := .now) now rfl
    split
    · exact h₆.extend unknown_spec
    rename_i hsoon
    refine Safe.then_ask trivial fun valid _ => ?_
    have h₇ := h₆.told (c := .new_flag) valid rfl
    refine Safe.then_ask ⟨d.limits, value, previous, epoch, now, ?_, rfl, rfl, ?_, ?_⟩
      fun _ _ => h₇.told _ rfl
    · exact ⟨l.calls, by simp [by_past, Past.told]⟩
    · exact same_device hsame
    · exact not_long_ago (Nat.not_le.1 hsoon)

theorem observe_locked_spec {object : ReviewedObject} {refresh : Bool}
    {entries : BTreeMap ReviewedObject Observation}
    (hstarted : d.Started l.request operation l.calls)
    (hobject : operation.capability.probe_object = some object) :
    Safe (by_past d.may) (fun l' _ => Quiet l l') (Quiet l)
      (CapabilityCache.observe_locked d.limits object refresh entries).run l := by
  unfold CapabilityCache.observe_locked
  refine (Quiet.refl l).and_then (quiet_spec (calls_retain _) (by decide)) fun l₁ _ h₁ => ?_
  refine h₁.and_then (quiet_spec calls_cached (by decide)) fun l₂ entry h₂ => ?_
  split
  · exact h₂
  · refine h₂.and_then (quiet_spec calls_forget (by decide)) fun l₃ _ h₃ => ?_
    exact h₃.extend (probe_spec (h₃.started hstarted) hobject)

theorem observe_spec {refresh : Bool} (hstarted : d.Started l.request operation l.calls) :
    Safe (by_past d.may) (fun l' _ => Quiet l l') (Quiet l)
      (CapabilityCache.observe d.limits operation.capability refresh).run l := by
  unfold CapabilityCache.observe
  split
  · exact unknown_spec
  · rename_i object hobject
    refine Safe.then_await trivial (.refl l) fun entries _ => ?_
    have hlock := (Quiet.refl l).told (c := .lock_entries) entries rfl
    rw [Safe.fallible_holding_iff]
    refine (observe_locked_spec (hlock.started hstarted) hobject).conseq ?_ ?_
    · exact fun l' _ hq => ⟨trivial, fun _ _ => (hlock.trans hq).told _ rfl⟩
    · exact fun l' hq => ⟨trivial, fun _ _ => (hlock.trans hq).told _ rfl⟩

/-- The readings that found the observation fresh. -/
def ReadFresh (observation : Observation) (l l' : Memory) : Prop :=
  ∃ time : Nat, time < observation.started + TTL ∧ l'.calls = l.calls ++
    [⟨.load_flag observation.valid, true⟩, ⟨.capability_epoch, observation.epoch⟩, ⟨.now, time⟩]

theorem fresh_spec : Safe (by_past d.may)
    (fun l' r => Quiet l l' ∧ (r = .ok true → ReadFresh observation l l')) (Quiet l)
    observation.fresh.run l := by
  unfold Observation.fresh
  split
  · exact ⟨.refl l, fun h => by cases h⟩
  refine Safe.then_ask trivial fun valid _ => ?_
  have hvalid := (Quiet.refl l).told (c := .load_flag observation.valid) valid rfl
  split
  · rename_i htrue
    refine Safe.then_ask trivial fun epoch _ => ?_
    have hread := hvalid.told (c := .capability_epoch) epoch rfl
    split
    · rename_i hsame
      refine Safe.then_ask trivial fun now _ => ?_
      refine ⟨hread.told (c := .now) now rfl, fun hfresh => ⟨now, ?_, ?_⟩⟩
      · exact not_long_ago (of_decide_eq_true (Except.ok.inj hfresh))
      · subst htrue hsame
        simp [by_past, Past.told]
    · exact ⟨hread, fun h => by cases h⟩
  · exact ⟨hvalid, fun h => by cases h⟩

theorem verdict_spec {requirement : CapabilityRequirement} {action : Option PreparedAction} :
    Safe (by_past d.may) (fun l' r => Quiet l l' ∧ (r = .ok .Compatible →
      (observation.epoch.isSome = true → ReadFresh observation l l') ∧
      requirement.evaluate observation.value action = .Compatible)) (Quiet l)
      (observation.verdict requirement action).run l := by
  unfold Observation.verdict
  refine Safe.and_then fresh_spec ?_ ?_
  · intro l' fresh hfresh
    split
    · exact ⟨hfresh.1, fun h => by cases h⟩
    · rename_i hstale
      refine ⟨hfresh.1, fun h => ⟨fun hepoch => hfresh.2 ?_, Except.ok.inj h⟩⟩
      simpa [hepoch] using hstale
  · exact fun l' e hfresh => ⟨hfresh.1, fun h => by cases h⟩

theorem enforce_deadline_spec {deadline : Nat} {issued : Option Observation}
    {result : Except RuntimeError α} :
    Safe (by_past d.may) (fun l' r => Quiet l l' ∧ (∀ a, r = .ok a →
      ∃ late : Nat, l'.calls = l.calls ++ [⟨.now, late⟩])) (Quiet l)
      (enforce_deadline deadline issued result).run l := by
  unfold enforce_deadline
  refine Safe.then_ask trivial fun now _ => ?_
  have hnow := (Quiet.refl l).told (c := .now) now rfl
  split
  · cases issued with
    | none => exact ⟨hnow, fun a h => by cases h⟩
    | some observation =>
      refine Safe.then_ask trivial fun _ _ => ?_
      exact ⟨hnow.told _ rfl, fun a h => by cases h⟩
  · exact Dispatcher.settled_spec ⟨hnow, fun a h => ⟨now, rfl⟩⟩

theorem execute_observed_spec {invocation : PreparedInvocation} {deadline : Nat}
    (hstarted : d.Started l.request operation l.calls) (hacts : l.request.Acts operation invocation)
    (hissued : ⟨.set_issued observation, ()⟩ ∈ l.calls) :
    Safe (by_past d.may) (fun l' _ => Quiet l l') (Quiet l)
      (d.execute_observed operation invocation observation deadline).run l := by
  unfold Dispatcher.execute_observed
  refine (Quiet.refl l).and_then (quiet_spec calls_enforce_deadline (by decide)) fun l₁ _ h₁ => ?_
  refine Safe.and_then (verdict_spec.conseq (fun _ _ hv => hv) fun _ hq => h₁.trans hq) ?_
    fun _ _ hv => h₁.trans hv.1
  intro l₂ verdict hverdict
  have h₂ := h₁.trans hverdict.1
  split
  · obtain ⟨hfresh, hcompatible⟩ := hverdict.2 rfl
    refine Safe.and_then
      (enforce_deadline_spec.conseq (fun _ _ he => he) fun _ hq => h₂.trans hq) ?_
      fun _ _ he => h₂.trans he.1
    intro l₃ _ hintime
    have h₃ := h₂.trans hintime.1
    have hchecked : Dispatcher.Checked observation l₃.calls := by
      refine ⟨h₃.le.mem hissued, fun hepoch => ?_⟩
      obtain ⟨time, htime, hread⟩ := hfresh hepoch
      obtain ⟨late, hlate⟩ := hintime.2 _ rfl
      refine ⟨time, late, htime, ?_⟩
      rw [hlate, hread, List.append_assoc]
      exact List.suffix_append _ _
    refine Safe.then_ask ⟨operation, h₃.started hstarted, rfl, invocation, observation, ?_, rfl,
      hchecked, hcompatible⟩ fun _ _ => ?_
    · rw [h₃.le.request]
      exact hacts
    have h₄ := h₃.told (c := .begins (.execute invocation.action d.limits)) () rfl
    refine Safe.then_await trivial h₄ fun output _ => ?_
    have h₅ := h₄.told (c := .returns (.execute invocation.action d.limits)) output rfl
    refine h₅.and_then (quiet_spec calls_enforce_deadline (by decide)) fun l₆ _ h₆ => ?_
    exact h₆.extend (quiet_spec calls_enforce_deadline (by decide))
  · exact h₂
  · exact h₂

theorem execute_spec {invocation : PreparedInvocation} {deadline : Nat}
    (hstarted : d.Started l.request operation l.calls)
    (hacts : l.request.Acts operation invocation) :
    Safe (by_past d.may) (fun l' _ => Quiet l l') (Quiet l)
      (d.execute operation invocation deadline).run l := by
  unfold Dispatcher.execute
  refine (Quiet.refl l).and_then (observe_spec hstarted) fun l₁ observation h₁ => ?_
  refine Safe.then_ask trivial fun _ _ => ?_
  have h₂ := h₁.told (c := .set_issued observation) () rfl
  refine h₂.extend (execute_observed_spec (h₂.started hstarted) ?_ ?_)
  · rw [h₂.le.request]
    exact hacts
  · simp [Past.told]

theorem observed_status_spec {refresh : Bool} {deadline : Nat}
    (hstarted : d.Started l.request operation l.calls) :
    Safe (by_past d.may) (fun l' _ => Quiet l l') (Quiet l)
      (d.observed_status operation refresh deadline).run l := by
  unfold Dispatcher.observed_status
  refine (Quiet.refl l).and_then (observe_spec hstarted) fun l₁ observation h₁ => ?_
  refine Safe.then_ask trivial fun _ _ => ?_
  have h₂ := h₁.told (c := .set_issued observation) () rfl
  exact h₂.extend (quiet_spec Dispatcher.calls_status_observed (by decide))

/-! ## The snapshot -/

/-- The request for a page that an invocation makes. -/
structure Asks (operation : Operation) (request : PackageProfile × Option Str) (l : Memory) :
    Prop where
  page : ∃ invocation, l.request.Acts operation invocation ∧
    invocation.action.package_page = some request

theorem Asks.lost {request : PackageProfile × Option Str} (h : Asks operation request l) :
    ∃ operation invocation, l.request.Acts operation invocation ∧
      invocation.action.package_page.isSome = true := by
  obtain ⟨invocation, hacts, hpage⟩ := h.page
  exact ⟨operation, invocation, hacts, by rw [hpage]; rfl⟩

theorem Asks.quiet {request : PackageProfile × Option Str} (h : Asks operation request l)
    (hq : Quiet l l') : Asks operation request l' := by
  obtain ⟨invocation, hacts, hpage⟩ := h.page
  exact ⟨invocation, hq.le.request ▸ hacts, hpage⟩

theorem apk_page {action : PreparedAction} {cursor : Option Str}
    (h : action.package_page = some (.Apk3_0_5, cursor)) : action = .ApkInstalledPage cursor := by
  cases action with
  | ApkInstalledPage cursor' =>
    cases h
    rfl
  | _ => cases h

theorem opkg_page {action : PreparedAction} {cursor : Option Str}
    (h : action.package_page = some (.Opkg38eccbb1RootStatus, cursor)) :
    action = .OpkgStatusPage cursor := by
  cases action with
  | OpkgStatusPage cursor' =>
    cases h
    rfl
  | _ => cases h

theorem capture_spec {profile : PackageProfile} (hstarted : d.Started l.request operation l.calls)
    (hasks : Asks operation (profile, none) l) :
    Safe (by_past d.may) (fun l' _ => Quiet l l') (Quiet l)
      (packages.capture d.limits profile).run l := by
  obtain ⟨invocation, hacts, hpage⟩ := hasks.page
  unfold packages.capture
  split
  · refine Safe.then_ask ⟨operation, hstarted, rfl, invocation, hacts, apk_page hpage⟩ fun _ _ => ?_
    have h₁ := (Quiet.refl l).told (c := .begins (.capture_apk_installed d.limits)) () rfl
    refine Safe.then_await trivial h₁ fun records _ => ?_
    exact Dispatcher.settled_spec (h₁.told _ rfl)
  · refine Safe.then_ask ⟨operation, hstarted, rfl, invocation, hacts, opkg_page hpage⟩
      fun _ _ => ?_
    have h₁ := (Quiet.refl l).told (c := .begins (.capture_opkg_status d.limits)) () rfl
    refine Safe.then_await trivial h₁ fun records _ => ?_
    exact Dispatcher.settled_spec (h₁.told _ rfl)

theorem captured_spec {name : Str} {profile : PackageProfile} {deadline : Nat}
    (hstarted : d.Started l.request operation l.calls) (hasks : Asks operation (profile, none) l) :
    Safe (by_past d.may) (fun l' _ => Quiet l l') (Quiet l)
      (packages.captured d.limits d.tokens name profile deadline).run l := by
  unfold packages.captured
  refine Safe.then_ask trivial fun _ _ => ?_
  have h₁ := (Quiet.refl l).told (c := .set_slot none) () rfl
  refine Safe.then_ask trivial fun started _ => ?_
  have h₂ := h₁.told (c := .now) started rfl
  refine h₂.and_then (quiet_spec packages.calls_draw (by decide)) fun l₃ nonce h₃ => ?_
  refine Safe.then_ask trivial fun now _ => ?_
  have h₄ := h₃.told (c := .now) now rfl
  split
  · exact h₄
  split
  · exact h₄
  refine Safe.then_ask trivial fun previous _ => ?_
  have h₅ := h₄.told (c := .capability_epoch) previous rfl
  refine h₅.and_then (capture_spec (h₅.started hstarted) (hasks.quiet h₅)) fun l₆ records h₆ => ?_
  split
  · exact h₆
  refine Safe.then_ask trivial fun epoch _ => ?_
  have h₇ := h₆.told (c := .capability_epoch) epoch rfl
  split
  · exact h₇
  refine Safe.then_ask trivial fun now _ => ?_
  have h₈ := h₇.told (c := .now) now rfl
  split
  · exact h₈
  split
  · exact h₈
  refine Safe.then_ask trivial fun now _ => ?_
  have h₉ := h₈.told (c := .now) now rfl
  split
  · exact h₉
  · exact Safe.then_ask trivial fun _ _ => h₉.told _ rfl

theorem page_spec {name : Str} {request : PackageProfile × Option Str} {deadline : Nat}
    (hstarted : d.Started l.request operation l.calls) (hasks : Asks operation request l) :
    Safe (by_past d.may) (fun l' _ => Quiet l l') (Quiet l)
      (packages.page d.limits d.tokens name request deadline).run l := by
  obtain ⟨profile, cursor⟩ := request
  unfold packages.page packages.offset
  refine (Quiet.refl l).and_then ?_ fun l₁ offset h₁ => ?_
  · cases cursor with
    | some cursor => exact quiet_spec packages.calls_continued (by decide)
    | none => exact captured_spec hstarted hasks
  · refine Safe.then_ask trivial fun snapshot _ => ?_
    have h₂ := h₁.told (c := .slot) snapshot rfl
    split
    · exact h₂
    · exact Dispatcher.settled_spec h₂

theorem preserve_spec :
    Safe (by_past d.may) (fun l' r => Quiet l l' ∧ ∀ e, r = .error e → e = .InvalidCursor) (Quiet l)
      packages.preserve.run l := by
  unfold packages.preserve
  refine Safe.then_ask trivial fun snapshot _ => ?_
  have h₁ := (Quiet.refl l).told (c := .slot) snapshot rfl
  split
  · exact ⟨h₁, fun e h => (Except.error.inj h).symm⟩
  refine Safe.then_ask trivial fun now _ => ?_
  have h₂ := h₁.told (c := .now) now rfl
  split
  · exact ⟨h₂, fun e h => (Except.error.inj h).symm⟩
  refine Safe.then_ask trivial fun epoch _ => ?_
  have h₃ := h₂.told (c := .capability_epoch) epoch rfl
  split
  · exact ⟨h₃, fun e h => (Except.error.inj h).symm⟩
  · exact ⟨h₃, fun e h => by cases h⟩

/-! ## Requests -/

theorem within_spec {kind : AuditKind} {sequence started deadline : Nat} {p : Program α}
    (hkind : l.request.kind = kind) (hnumber : Numbered l sequence)
    (hstarted : d.Started l.request operation l.calls)
    (hp : Safe (by_past d.may) (fun l' _ => Quiet l l') (Quiet l) p.run l) :
    Safe (by_past d.may) Ended (fun _ => True)
      (d.within operation kind sequence started deadline p).run l := by
  subst hkind
  unfold Dispatcher.within
  refine Safe.then_attempt ((Safe.fallible_timeout hp fun _ hq => hq).conseq
    (fun _ _ hq => hq) fun _ _ => trivial) ?_
  intro l₁ result h₁
  refine Safe.then_ask trivial fun issued _ => ?_
  have h₂ := h₁.told (c := .issued) issued rfl
  refine Safe.then_attempt (Q := fun l' _ => Quiet l l') ?_ ?_
  · exact (h₂.extend (quiet_spec calls_enforce_deadline (by decide))).conseq (fun _ _ hq => hq)
      fun _ _ => trivial
  · intro l₃ result h₃
    rw [← h₃.le.request]
    exact Dispatcher.finish_spec (hnumber.mono h₃.le) (h₃.started hstarted)

/-- What the lease leaves when it is dropped. -/
theorem drop_lease_spec {Q : Memory → Prop} (hQ : ∀ l', Quiet l l' → Q l') :
    Unwinds (by_past d.may) Q packages.drop_lease l :=
  ⟨trivial, fun _ _ => ⟨trivial, fun _ _ => hQ _ (((Quiet.refl l).told _ rfl).told _ rfl)⟩⟩

theorem invoke_page_spec {request : PackageProfile × Option Str} {sequence started deadline : Nat}
    (hkind : l.request.kind = .Invocation) (hnumber : Numbered l sequence)
    (hstarted : d.Started l.request operation l.calls) (hasks : Asks operation request l) :
    Safe (by_past d.may) Ended (fun _ => True)
      (d.invoke_page operation request sequence started deadline).run l := by
  unfold Dispatcher.invoke_page
  refine Safe.then_ask trivial fun free _ => ?_
  have h₁ := (Quiet.refl l).told (c := .try_lock_slot) free rfl
  split
  · refine Safe.and_then (Q := Ended) ?_ ?_ fun _ _ hended => hended
    · rw [Safe.guarding_iff]
      refine Safe.then_attempt (Q := fun l' _ => Quiet l l') ?_ ?_
      · refine (Safe.fallible_timeout (page_spec (h₁.started hstarted) (hasks.quiet h₁))
          fun _ hq => hq).conseq (fun _ _ hq => h₁.trans hq) ?_
        exact fun _ _ => drop_lease_spec fun _ _ => trivial
      intro l₂ result h₂
      refine Safe.then_attempt (Q := fun l' _ => Quiet l l') ?_ ?_
      · refine (h₂.extend (quiet_spec calls_enforce_deadline (by decide))).conseq
          (fun _ _ hq => hq) ?_
        exact fun _ _ => drop_lease_spec fun _ _ => trivial
      intro l₃ result h₃
      refine Safe.and_then (Q := fun l' r => Ended l' r ∧ l₃.Le l') ?_ ?_ ?_
      · rw [← hkind, ← h₃.le.request]
        exact (Dispatcher.finish_spec (hnumber.mono h₃.le) (h₃.started hstarted)).remembered.conseq
          (fun _ _ hended => hended) fun _ _ => drop_lease_spec fun _ _ => trivial
      · intro l₄ value hended
        have hfinished : Finished .Success l₄.calls := by
          cases hended.1 with
          | finished hfinished => exact hfinished
        refine Safe.and_then (preserve_spec.conseq (fun _ _ hq => hq) ?_) ?_ ?_
        · exact fun _ _ => drop_lease_spec fun _ _ => trivial
        · exact fun l₅ _ hq => Ended.finished (hfinished.quiet hq.1)
        · intro l₅ e hq
          obtain rfl := hq.2 e rfl
          refine drop_lease_spec fun l₆ hdropped => ?_
          refine .lost (hfinished.quiet (hq.1.trans hdropped)) ?_
          rw [hdropped.le.request, hq.1.le.request, hended.2.request, h₃.le.request]
          exact hasks.lost
      · exact fun l₄ e hended => drop_lease_spec fun _ hdropped => hended.1.quiet hdropped
    · intro l₄ value hended
      exact Safe.then_ask trivial fun _ _ => hended.quiet ((Quiet.refl _).told _ rfl)
  · rw [← hkind, ← h₁.le.request]
    exact Dispatcher.finish_spec (hnumber.mono h₁.le) (h₁.started hstarted)

theorem admitted_invocation_spec {invocation : PreparedInvocation} {sequence : Nat}
    (hkind : l.request.kind = .Invocation) (hnumber : Numbered l sequence)
    (hstarted : d.Started l.request operation l.calls)
    (hacts : l.request.Acts operation invocation) :
    Safe (by_past d.may) Ended (fun _ => True)
      (d.admitted_invocation operation invocation sequence).run l := by
  unfold Dispatcher.admitted_invocation
  refine Safe.then_ask trivial fun started _ => ?_
  refine Safe.then_ask trivial fun now _ => ?_
  have h₁ := ((Quiet.refl l).told (c := .now) started rfl).told (c := .now) now rfl
  split
  · rename_i request hpage
    exact invoke_page_spec hkind (hnumber.mono h₁.le) (h₁.started hstarted)
      ⟨invocation, hacts, hpage⟩
  · exact within_spec hkind (hnumber.mono h₁.le) (h₁.started hstarted)
      (execute_spec (h₁.started hstarted) hacts)

/-- A request that has just got its number. -/
structure Fresh (l : Memory) (sequence : Nat) : Prop where
  numbered : Numbered l sequence
  nothing : events l.calls = []

theorem Fresh.quiet {sequence : Nat} (h : Fresh l sequence) (hq : Quiet l l') : Fresh l' sequence :=
  ⟨h.numbered.mono hq.le, hq.same.trans h.nothing⟩

/-- Every request first gets its number, and is then one that nothing was recorded of. -/
theorem first_spec {r : Request} {f : Nat → Program α}
    (h : ∀ (l : Memory) (sequence : Nat), l.request = r → Fresh l sequence →
      Safe (by_past d.may) Ended (fun _ => True) (f sequence).run l) :
    Safe (by_past d.may) Ended (fun _ => True) (ask .fetch_add >>= f).run ⟨r, []⟩ :=
  Safe.then_ask trivial fun sequence _ => h _ sequence rfl ⟨rfl, rfl⟩

/-- What is admitted gives back its permit when it ends. -/
theorem permitted_spec {p : Program α} {l₀ : Memory} {kind : AuditKind} {sequence : Nat}
    (hfresh : Fresh l₀ sequence) (hkind : l₀.request.kind = kind)
    (haccepts : d.Accepts l₀.request operation)
    (hp : ∀ l, l₀.Le l → d.Started l.request operation l.calls →
      Safe (by_past d.may) Ended (fun _ => True) p.run l) :
    Safe (by_past d.may) Ended (fun _ => True) (do
      d.admit_operation operation sequence kind
      Fallible.holding [.release_permit] p : Program α).run l₀ := by
  subst hkind
  refine Safe.and_then (Dispatcher.admit_spec hfresh.numbered hfresh.nothing haccepts) ?_ ?_
  · intro l _ hadmitted
    rw [Safe.fallible_holding_iff]
    refine (hp l hadmitted.1 hadmitted.2).conseq ?_ ?_
    · exact fun l' result hended => ⟨trivial, fun _ _ => hended.quiet ((Quiet.refl _).told _ rfl)⟩
    · exact fun _ _ => ⟨trivial, fun _ _ => trivial⟩
  · intro l e hrejected
    obtain hrejected | ⟨rfl, hwhy, start, hstart, hphase⟩ := hrejected
    · exact .rejected hrejected
    · exact .unstarted hstart hphase hwhy

theorem invoke_spec {name : Str} {arguments : Value} :
    Safe (by_past d.may) Ended (fun _ => True) (d.invoke name arguments).run
      ⟨.invoke name arguments, []⟩ := by
  refine first_spec fun l sequence hrequest hfresh => ?_
  have hkind : l.request.kind = .Invocation := by rw [hrequest]; rfl
  rw [← hkind]
  refine Safe.and_then (Dispatcher.authorize_spec hfresh.numbered hfresh.nothing) ?_
    fun _ _ hrejected => .rejected hrejected
  intro l₁ operation hauthorized
  obtain ⟨rfl, hfound, hpolicy⟩ := hauthorized
  split
  · exact Dispatcher.rejected_spec hfresh.numbered hfresh.nothing fun _ _ hrejected =>
      .rejected hrejected
  · rename_i invocation hprepared
    refine permitted_spec hfresh rfl ?_ ?_
    · rw [hrequest]
      exact ⟨hfound, hpolicy, invocation, hprepared⟩
    intro l₂ hle hstarted
    have hsame := hle.request.trans hrequest
    refine admitted_invocation_spec ?_ (hfresh.numbered.mono hle) hstarted ?_
    · rw [hsame]
      rfl
    · rw [hsame]
      exact hprepared

theorem admitted_status_spec {refresh : Bool} {sequence : Nat}
    (hkind : l.request.kind = .Capability) (hnumber : Numbered l sequence)
    (hstarted : d.Started l.request operation l.calls) :
    Safe (by_past d.may) Ended (fun _ => True)
      (d.admitted_status operation refresh sequence).run l := by
  unfold Dispatcher.admitted_status
  refine Safe.then_ask trivial fun started _ => ?_
  have h₁ := (Quiet.refl l).told (c := .now) started rfl
  split
  · rw [← hkind]
    exact Dispatcher.finish_spec (hnumber.mono h₁.le) (h₁.started hstarted)
  · refine Safe.then_ask trivial fun now _ => ?_
    have h₂ := h₁.told (c := .now) now rfl
    exact within_spec hkind (hnumber.mono h₂.le) (h₂.started hstarted)
      (observed_status_spec (h₂.started hstarted))

theorem unnamed_spec {sequence : Nat} (hfresh : Fresh l sequence)
    (hkind : l.request.kind = .Capability) :
    Safe (by_past d.may) Ended (fun _ => True) (d.unnamed sequence).run l := by
  unfold Dispatcher.unnamed
  rw [← hkind]
  exact Dispatcher.rejected_spec hfresh.numbered hfresh.nothing fun _ _ hrejected =>
    .rejected hrejected

theorem capability_status_spec {arguments : Value} :
    Safe (by_past d.may) Ended (fun _ => True) (d.capability_status arguments).run
      ⟨.capability_status arguments, []⟩ := by
  refine first_spec fun l sequence hrequest hfresh => ?_
  have hkind : l.request.kind = .Capability := by rw [hrequest]; rfl
  split
  · exact unnamed_spec hfresh hkind
  rename_i fields hfields
  split
  · exact unnamed_spec hfresh hkind
  rename_i name hname
  rw [← hkind]
  refine Safe.and_then (Dispatcher.authorize_spec hfresh.numbered hfresh.nothing) ?_
    fun _ _ hrejected => .rejected hrejected
  intro l₁ operation hauthorized
  obtain ⟨rfl, hfound, hpolicy⟩ := hauthorized
  split
  · rename_i harguments
    refine permitted_spec hfresh rfl ?_ ?_
    · rw [hrequest]
      refine ⟨?_, hpolicy, fields, hfields, harguments⟩
      simp only [Request.name, hfields, Option.bind_some, hname]
      exact hfound
    intro l₂ hle hstarted
    refine admitted_status_spec ?_ (hfresh.numbered.mono hle) hstarted
    rw [hle.request, hrequest]
    rfl
  · exact Dispatcher.rejected_spec hfresh.numbered hfresh.nothing fun _ _ hrejected =>
      .rejected hrejected

/-- Every request keeps to it, from its start on. -/
theorem program_spec (d : Dispatcher) (r : Request) :
    Safe (by_past d.may) Ended (fun _ => True) (d.program r) ⟨r, []⟩ := by
  cases r with
  | invoke name arguments =>
    exact Safe.and_then invoke_spec (fun _ _ h => h.map Reply.output) fun _ _ h =>
      h.map Reply.output
  | capability_status arguments =>
    exact Safe.and_then capability_status_spec (fun _ _ h => h.map Reply.status)
      fun _ _ h => h.map Reply.status

end

end openwrt_mcp_runtime
