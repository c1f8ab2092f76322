-- The end of a run of the sealer: the publication, the cleanup after a failure, and the drop of
-- the guard, up to the law of the cleanup.
import OpenwrtMcp.SealCleanup

open programs

namespace openwrt_mcp_runtime.sealing

/-! ## What a trace confirms -/

/-- The only call of `publish` in a trace. -/
theorem publish_split {before after before' after' : Trace} {counts counts' : SealedCounts}
    {reply reply' : Reply PublishOutcome} (hbefore : before.Unpublished)
    (hafter : after.Unpublished)
    (heq : before ++ .Publish counts reply :: after =
      before' ++ .Publish counts' reply' :: after') :
    before' = before ∧ counts' = counts ∧ reply' = reply ∧ after' = after := by
  rcases List.append_eq_append_iff.mp heq with ⟨as, rfl, hrest⟩ | ⟨bs, rfl, hrest⟩
  · cases as with
    | nil =>
      cases hrest
      simp
    | cons e as =>
      cases hrest
      have := hafter (.Publish counts' reply') (by simp)
      cases this
  · cases bs with
    | nil =>
      cases hrest
      simp
    | cons e bs =>
      cases hrest
      have := hbefore (.Publish counts' reply') (by simp)
      cases this

theorem confirmed_iff {timeout : Nat} {before after : Trace} {counts counts' : SealedCounts}
    {reply : Reply PublishOutcome} (hbefore : before.Unpublished) (hafter : after.Unpublished) :
    Trace.Confirmed timeout counts' (before ++ .Publish counts reply :: after) ↔
      counts = counts' ∧ reply = .ret .Published ∧ ∃ now rest, after = .Now (.ret now) :: rest ∧
        InTime timeout (before.readings ++ [now]) := by
  constructor
  · rintro ⟨before', now, rest, heq, htime⟩
    obtain ⟨rfl, rfl, rfl, rfl⟩ := publish_split hbefore hafter heq
    exact ⟨rfl, rfl, now, rest, rfl, htime⟩
  · rintro ⟨rfl, rfl, now, rest, rfl, htime⟩
    exact ⟨before, now, rest, rfl, htime⟩

theorem not_confirmed_of_unpublished {timeout : Nat} {counts : SealedCounts} {t : Trace}
    (h : t.Unpublished) : ¬ t.Confirmed timeout counts := by
  rintro ⟨before, now, after, rfl, -⟩
  have := h (.Publish counts (.ret .Published)) (by simp)
  cases this

/-- A call of the cleanup confirms nothing. -/
theorem confirmed_snoc {timeout : Nat} {counts : SealedCounts} {t : Trace} {e : Event}
    (hpub : e.is_publish = false) (hread : e.reading = []) :
    Trace.Confirmed timeout counts (t ++ [e]) ↔ t.Confirmed timeout counts := by
  constructor
  · rintro ⟨before, now, after, heq, htime⟩
    rcases List.eq_nil_or_concat after with rfl | ⟨rest, e', rfl⟩
    · have hsplit : t ++ [e] =
          (before ++ [.Publish counts (.ret .Published)]) ++ [.Now (.ret now)] := by
        simpa using heq
      obtain ⟨-, hlast⟩ := List.append_inj' hsplit rfl
      cases hlast
      cases hread
    · have hsplit : t ++ [e] =
          (before ++ .Publish counts (.ret .Published) :: .Now (.ret now) :: rest) ++ [e'] := by
        simpa using heq
      obtain ⟨rfl, -⟩ := List.append_inj' hsplit rfl
      exact ⟨before, now, rest, rfl, htime⟩
  · rintro ⟨before, now, after, rfl, htime⟩
    exact ⟨before, now, after ++ [e], by simp, htime⟩

section
variable {σ α : Type} {p : Ports σ} {limits : SealLimits} {run : Run σ} {n : Nat}
  {result : Option SealedCounts}

/-! ## The publication -/

/-- The trace confirms this result and no other. -/
def Confirms (limits : SealLimits) (result : Option SealedCounts) (run : Run σ) : Prop :=
  ∀ counts, Trace.Confirmed limits.timeout_ms counts run.trace ↔ result = some counts

/-- The run is over, `n` calls unwound, and no cleanup was called. -/
structure Over (limits : SealLimits) (result : Option SealedCounts) (n : Nat) (run : Run σ) :
    Prop where
  tracked : Tracked run
  not_cancelled : run.source_cancelled = false
  not_aborted : run.stage_aborted = false
  unwound : Trace.unwound run.trace = n
  confirms : Confirms limits result run

/-- The states in which the run stops. -/
def Stops (limits : SealLimits) : Stop → Run σ → Prop
  | .unwind, run => Over limits none 1 run
  | _, run => Over limits none 0 run

theorem Untouched.over {done : Bool} (h : Untouched done n run) : Over limits none n run where
  tracked := h.tracked
  not_cancelled := h.not_cancelled
  not_aborted := h.not_aborted
  unwound := h.unwound
  confirms := by
    intro counts
    simp [not_confirmed_of_unpublished h.unpublished]

theorem Halted.stops {done : Bool} {stop : Stop} (h : Halted limits done stop run) :
    Stops limits stop run := by
  cases stop with
  | fail failure => exact h.1.over
  | unwind => exact h.over
  | running => exact h.1.over

/-- The stage was asked to publish, and the guard knows the answer. -/
theorem Going.published (h : Going limits true run) (counts : SealedCounts)
    (reply : Reply PublishOutcome) (world : σ) :
    Tracked { run with
      world := world
      trace := run.trace ++ [.Publish counts reply]
      publication := reply.publication } := by
  have htracked := h.1.tracked
  refine ⟨?_, ?_, ?_, ?_, ?_⟩
  · simp [htracked.complete, Event.completes]
  · exact (Trace.publication_snoc_publish counts reply).symm
  · simp [Trace.publishes_of_unpublished h.1.unpublished, Event.publish]
  · apply Or.inl
    simpa [Event.cancel, h.1.not_cancelled] using htracked.not_cancelled h.1.not_cancelled
  · apply Or.inl
    simpa [Event.abort, h.1.not_aborted] using htracked.not_aborted h.1.not_aborted

/-- The run after the stage has answered. -/
def Run.asked (start : Run σ) (counts : SealedCounts) (reply : Reply PublishOutcome) (world : σ) :
    Run σ :=
  { start with
    world := world
    trace := start.trace ++ [.Publish counts reply]
    publication := reply.publication }

/-- What the events after the publication confirm. -/
theorem Going.confirms {start : Run σ} (h : Going limits true start) (counts : SealedCounts)
    (reply : Reply PublishOutcome) (after : Trace)
    (htrace : run.trace = start.trace ++ .Publish counts reply :: after)
    (hafter : after.Unpublished)
    (hresult : ∀ counts', (counts = counts' ∧ reply = .ret .Published ∧ ∃ now rest,
      after = .Now (.ret now) :: rest ∧
        InTime limits.timeout_ms (Trace.readings start.trace ++ [now])) ↔
      result = some counts') : Confirms limits result run := by
  intro counts'
  rw [htrace, confirmed_iff h.1.unpublished hafter]
  exact hresult counts'

theorem over_publish_unwinds {start : Run σ} (h : Going limits true start)
    (counts : SealedCounts) (world : σ) :
    Over limits none 1 (start.asked counts .unwind world) where
  tracked := h.published counts .unwind world
  not_cancelled := h.1.not_cancelled
  not_aborted := h.1.not_aborted
  unwound := by simp [Run.asked, h.1.unwound, Event.unwinds, Reply.came_back]
  confirms := by
    apply h.confirms counts .unwind [] rfl
    · simp [Trace.Unpublished]
    · simp

/-- The check after the publication fails. -/
theorem over_check_fails {start : Run σ} (h : Going limits true start)
    (hnone : start.error = none) (counts : SealedCounts) (outcome : PublishOutcome) (world : σ)
    {stop : Stop} (hfailed : Failed limits (start.asked counts (.ret outcome) world) stop run) :
    Stops limits stop run := by
  have hunwound : start.trace.countP Event.unwinds = 0 := h.1.unwound
  have htracked := h.published counts (.ret outcome) world
  obtain ⟨htime, hhead, hlast⟩ := h.2 hnone
  rcases hfailed with ⟨rfl, world', rfl⟩ | ⟨failure, world', now, last, rfl, hpasses, rfl⟩
  · refine ⟨htracked.step ⟨rfl, rfl, rfl, rfl⟩ world', h.1.not_cancelled, h.1.not_aborted, ?_, ?_⟩
    · simp [Run.asked, Trace.unwound, hunwound, Event.unwinds, Reply.came_back]
    · apply h.confirms counts (.ret outcome) [.Now .unwind] (by simp [Run.asked])
      · simp [Trace.Unpublished, Event.is_publish]
      · simp
  · have hnow := htracked.step (e := .Now (.ret now)) ⟨rfl, rfl, rfl, rfl⟩ world'
    have hrecorded := hnow.step (e := .Recorded failure) ⟨rfl, rfl, rfl, rfl⟩ world'
    refine ⟨{ hrecorded with }, h.1.not_cancelled, h.1.not_aborted, ?_, ?_⟩
    · simp [Run.asked, Trace.unwound, hunwound, Event.unwinds, Reply.came_back]
    · apply h.confirms counts (.ret outcome) [.Now (.ret now), .Recorded failure]
        (by simp [Run.asked])
      · simp [Trace.Unpublished, Event.is_publish]
      · intro counts'
        constructor
        · rintro ⟨-, -, now', rest, heq, hin⟩
          cases heq
          exact absurd ((inTime_snoc htime hhead hlast).mp hin) hpasses
        · intro hresult
          cases hresult

/-- The check after the publication passes. -/
theorem over_check_passes {start : Run σ} (h : Going limits true start)
    (hnone : start.error = none) (counts : SealedCounts) (outcome : PublishOutcome)
    (world world' : σ) {now : Nat}
    (hpasses : Passes limits (start.asked counts (.ret outcome) world) now)
    (hresult : ∀ counts', counts = counts' ∧ outcome = .Published ↔ result = some counts') :
    Over limits result 0 { start.asked counts (.ret outcome) world with
      world := world'
      trace := (start.asked counts (.ret outcome) world).trace ++ [.Now (.ret now)]
      last := now } := by
  have hunwound : start.trace.countP Event.unwinds = 0 := h.1.unwound
  obtain ⟨htime, hhead, hlast⟩ := h.2 hnone
  have hnow := (h.published counts (.ret outcome) world).step (e := .Now (.ret now))
    ⟨rfl, rfl, rfl, rfl⟩ world'
  refine ⟨{ hnow with }, h.1.not_cancelled, h.1.not_aborted, ?_, ?_⟩
  · simp [Run.asked, Trace.unwound, hunwound, Event.unwinds, Reply.came_back]
  · apply h.confirms counts (.ret outcome) [.Now (.ret now)] (by simp [Run.asked])
    · simp [Trace.Unpublished, Event.is_publish]
    · intro counts'
      rw [← hresult]
      have hin := (inTime_snoc htime hhead hlast).mpr hpasses
      simp [hin]

/-- The run has a result: the source completed and the stage published. -/
def Succeeded (limits : SealLimits) (counts : SealedCounts) (run : Run σ) : Prop :=
  Over limits (some counts) 0 run ∧ run.source_complete = true ∧ run.publication = .Published

theorem run_publish_over (counts : SealedCounts) :
    Triple (Going limits true) (run_publish p limits counts) (Succeeded limits) (Stops limits) := by
  have hstops : ∀ stop (run : Run σ), Halted limits true stop run → Stops limits stop run :=
    fun _ _ => Halted.stops
  unfold run_publish
  apply Triple.bind (check_keeps.conseq (fun _ h => h) (fun _ _ h => h) hstops)
  intro _
  apply Triple.bind ((call_going (fun _ => ⟨rfl, rfl, rfl, rfl⟩) (fun _ => rfl) (fun _ => rfl)
    rfl).conseq (fun _ h => h) (fun _ _ h => h) hstops)
  intro flushed
  apply Triple.bind ((after_keeps _).conseq (fun _ h => h) (fun _ _ h => h) hstops)
  intro _
  apply Triple.bind (check_going.conseq (fun _ h => h) (fun _ _ h => h) hstops)
  intro _ start hstart
  obtain ⟨hgoing, hnone⟩ := hstart
  -- the guard says `Unknown` while the stage is at work
  suffices hrest : Triple (fun run => run = { start with publication := .Unknown })
      (do
        let outcome ← call (p.publish counts) (.Publish counts)
        Prog.modify fun run => { run with publication := outcome.publication }
        Budget.check p limits
        if outcome ≠ .Published then Prog.stop (.fail .PublicationNotConfirmed)
        else return counts)
      (Succeeded limits) (Stops limits) from hrest _ rfl
  apply Triple.bind (Q := fun outcome run => ∃ world, start.asked counts (.ret outcome) world =
    { run with publication := outcome.publication })
  · apply call_spec
    · rintro run world outcome rfl
      exact ⟨world, rfl⟩
    · rintro run world rfl
      exact over_publish_unwinds hgoing counts world
  rintro outcome run ⟨world, hrun⟩
  suffices hrest : Triple (start.asked counts (.ret outcome) world = ·)
      (do
        Budget.check p limits
        if outcome ≠ .Published then Prog.stop (.fail .PublicationNotConfirmed)
        else return counts)
      (Succeeded limits) (Stops limits) from hrest _ hrun
  apply Triple.bind ((check_from (start.asked counts (.ret outcome) world) hnone).conseq
    (fun _ h => h) (fun _ _ h => h)
    fun _ _ h => over_check_fails hgoing hnone counts outcome world h)
  intro _
  by_cases hpublished : outcome = .Published
  · subst hpublished
    rw [if_neg (by simp)]
    apply Triple.pure
    rintro _ ⟨world', now, hpasses, rfl⟩
    refine ⟨over_check_passes hgoing hnone counts _ world world' hpasses ?_, hgoing.1.complete,
      rfl⟩
    simp
  · rw [if_pos hpublished]
    apply Triple.stop
    rintro _ ⟨world', now, hpasses, rfl⟩
    apply over_check_passes hgoing hnone counts _ world world' hpasses
    simp [hpublished]

theorem run_over (steps : Nat) :
    Triple (Going limits false) (ArchiveSealer.run p limits steps) (Succeeded limits)
      (Stops limits) := by
  have hstops : ∀ stop (run : Run σ), Halted limits false stop run → Stops limits stop run :=
    fun _ _ => Halted.stops
  unfold ArchiveSealer.run
  apply Triple.bind (run_capabilities_going.conseq (fun _ h => h) (fun _ _ h => h) hstops)
  intro _
  apply Triple.bind ((run_encrypt_going steps).conseq (fun _ h => h) (fun _ _ h => h) hstops)
  intro counts
  apply Triple.bind ((run_complete_going counts.1).conseq (fun _ h => h) (fun _ _ h => h)
    fun _ _ h => h.elim fun _ hhalted => hhalted.stops)
  intro summary
  exact run_publish_over _

/-! ## The guard -/

/-- The guard has called what it called, and the trace confirms the result of the run. -/
structure Held (limits : SealLimits) (result : Option SealedCounts) (n : Nat) (run : Run σ) :
    Prop where
  tracked : Tracked run
  at_end : ∃ work, run.trace = work ++ (Trace.cancels run.trace).map .Cancel ++
    (Trace.aborts run.trace).map .Abort
  unwound : Trace.unwound run.trace = n
  confirms : Confirms limits result run

theorem Over.held (h : Over limits result n run) : Held limits result n run where
  tracked := h.tracked
  at_end := by
    refine ⟨run.trace, ?_⟩
    simp [(h.tracked.not_cancelled h.not_cancelled).1, (h.tracked.not_aborted h.not_aborted).1]
  unwound := h.unwound
  confirms := h.confirms

/-- The source is cancelled, once, before the stage is aborted. -/
theorem Held.cancel (h : Held limits result n run) (hcomplete : run.source_complete = false)
    (hflag : run.source_cancelled = false) (hstage : run.stage_aborted = false)
    (reply : Reply CleanupOutcome) (world : σ) :
    Held limits result (n + if reply.came_back then 0 else 1) { run with
      world := world
      trace := run.trace ++ [.Cancel reply]
      source_cancelled := true
      source_cleanup := reply.cleanup } := by
  obtain ⟨hcancels, -⟩ := h.tracked.not_cancelled hflag
  obtain ⟨haborts, hcleanup⟩ := h.tracked.not_aborted hstage
  refine ⟨⟨?_, ?_, ?_, ?_, ?_⟩, ?_, ?_, ?_⟩
  · simp [h.tracked.complete, Event.completes]
  · rw [Trace.publication_snoc_of_no_publish rfl]
    exact h.tracked.publication
  · simpa [Event.publish] using h.tracked.publish_once
  · exact .inr ⟨rfl, hcomplete, reply, by simp [hcancels, Event.cancel], rfl⟩
  · exact .inl ⟨hstage, by simp [haborts, Event.abort], hcleanup⟩
  · exact ⟨run.trace, by simp [hcancels, haborts, Event.cancel, Event.abort]⟩
  · cases reply with
    | ret outcome => simp [h.unwound, Event.unwinds, Reply.came_back]
    | unwind => simp [h.unwound, Event.unwinds, Reply.came_back]
  · intro counts
    rw [← h.confirms counts]
    exact confirmed_snoc rfl rfl

theorem Held.abort (h : Held limits result n run) (hopen : run.publication.open = true)
    (hflag : run.stage_aborted = false) (reply : Reply CleanupOutcome) (world : σ) :
    Held limits result (n + if reply.came_back then 0 else 1) { run with
      world := world
      trace := run.trace ++ [.Abort reply]
      stage_aborted := true
      stage_cleanup := reply.cleanup } := by
  obtain ⟨haborts, -⟩ := h.tracked.not_aborted hflag
  refine ⟨⟨?_, ?_, ?_, ?_, ?_⟩, ?_, ?_, ?_⟩
  · simp [h.tracked.complete, Event.completes]
  · rw [Trace.publication_snoc_of_no_publish rfl]
    exact h.tracked.publication
  · simpa [Event.publish] using h.tracked.publish_once
  · simpa [Event.cancel] using h.tracked.cancel
  · exact .inr ⟨rfl, hopen, reply, by simp [haborts, Event.abort], rfl⟩
  · obtain ⟨work, hwork⟩ := h.at_end
    refine ⟨work, ?_⟩
    simp only [Trace.cancels_snoc, Trace.aborts_snoc, haborts, Event.cancel, Event.abort,
      List.append_nil, List.nil_append, List.map_cons, List.map_nil]
    rw [haborts, List.map_nil, List.append_nil] at hwork
    rw [← hwork]
  · cases reply with
    | ret outcome => simp [h.unwound, Event.unwinds, Reply.came_back]
    | unwind => simp [h.unwound, Event.unwinds, Reply.came_back]
  · intro counts
    rw [← h.confirms counts]
    exact confirmed_snoc rfl rfl

/-- A stage is only aborted when the source is settled. -/
def Ordered (run : Run σ) : Prop := run.stage_aborted = true → SourceSettled run

theorem cancel_source_held :
    Triple (fun run => Held limits result n run ∧ Ordered run) (Guard.cancel_source p)
      (fun _ run => Held limits result n run ∧ SourceSettled run)
      (fun stop run => stop = .unwind ∧ Held limits result (n + 1) run ∧ SourceSettled run) := by
  unfold Guard.cancel_source
  apply Triple.get_bind
  rintro start ⟨hheld, hordered⟩
  by_cases howed : (!start.source_complete && !start.source_cancelled) = true
  · rw [if_pos howed]
    simp only [Bool.and_eq_true, Bool.not_eq_true'] at howed
    obtain ⟨hcomplete, hflag⟩ := howed
    have hstage : start.stage_aborted = false := by
      cases hcase : start.stage_aborted with
      | false => rfl
      | true =>
        have hsettled := hordered hcase
        simp [SourceSettled, hcomplete, hflag] at hsettled
    apply Triple.modify_bind (M := fun run =>
      run = { start with source_cancelled := true, source_cleanup := .Unknown })
    · rintro _ rfl
      rfl
    apply Triple.bind (Q := fun outcome run => ∃ world, run = { start with
      world := world
      trace := start.trace ++ [.Cancel (.ret outcome)]
      source_cancelled := true
      source_cleanup := .Unknown })
    · apply call_spec
      · rintro run world outcome rfl
        exact ⟨world, rfl⟩
      · rintro run world rfl
        exact ⟨rfl, hheld.cancel hcomplete hflag hstage .unwind world, .inr rfl⟩
    intro outcome
    apply Triple.modify
    rintro _ ⟨world, rfl⟩
    exact ⟨hheld.cancel hcomplete hflag hstage (.ret outcome) world, .inr rfl⟩
  · rw [if_neg howed]
    apply Triple.pure
    rintro run rfl
    refine ⟨hheld, ?_⟩
    unfold SourceSettled
    cases hcomplete : run.source_complete with
    | true => exact .inl rfl
    | false =>
      apply Or.inr
      simpa [hcomplete] using howed

theorem abort_stage_held :
    Triple (fun run => Held limits result n run ∧ SourceSettled run) (Guard.abort_stage p)
      (fun _ run => Held limits result n run ∧ SourceSettled run ∧ StageSettled run)
      (fun stop run => stop = .unwind ∧ Held limits result (n + 1) run ∧ SourceSettled run ∧
        StageSettled run) := by
  unfold Guard.abort_stage
  apply Triple.get_bind
  rintro start ⟨hheld, hsettled⟩
  by_cases howed : (!start.stage_aborted &&
      (start.publication == .NotAttempted || start.publication == .NotPublished)) = true
  · rw [if_pos howed]
    obtain ⟨hflag, hopen⟩ := (Bool.and_eq_true _ _).mp howed
    rw [Bool.not_eq_true'] at hflag
    apply Triple.modify_bind (M := fun run =>
      run = { start with stage_aborted := true, stage_cleanup := .Unknown })
    · rintro _ rfl
      rfl
    apply Triple.bind (Q := fun outcome run => ∃ world, run = { start with
      world := world
      trace := start.trace ++ [.Abort (.ret outcome)]
      stage_aborted := true
      stage_cleanup := .Unknown })
    · apply call_spec
      · rintro run world outcome rfl
        exact ⟨world, rfl⟩
      · rintro run world rfl
        exact ⟨rfl, hheld.abort hopen hflag .unwind world, hsettled, .inr rfl⟩
    intro outcome
    apply Triple.modify
    rintro _ ⟨world, rfl⟩
    exact ⟨hheld.abort hopen hflag (.ret outcome) world, hsettled, .inr rfl⟩
  · rw [if_neg howed]
    apply Triple.pure
    rintro run rfl
    refine ⟨hheld, hsettled, ?_⟩
    unfold StageSettled
    cases hflag : run.stage_aborted with
    | true => exact .inr rfl
    | false =>
      apply Or.inl
      simpa [hflag, Publication.open] using howed

/-- A cleanup ends settled, or a second call unwound. -/
theorem cleanup_held :
    Triple (fun run => Held limits result n run ∧ Ordered run) (Guard.cleanup p)
      (fun _ run => Held limits result n run ∧ SourceSettled run ∧ StageSettled run)
      (fun stop run => stop = .unwind ∧ Held limits result (n + 1) run ∧ SourceSettled run) := by
  apply Triple.bind cancel_source_held
  intro _
  exact abort_stage_held.conseq (fun _ h => h) (fun _ _ h => h) fun _ _ h => ⟨h.1, h.2.1, h.2.2.1⟩

/-- The second cleanup, in the drop of the guard, calls nothing. -/
theorem cleanup_of_settled (hsource : SourceSettled run) (hstage : StageSettled run) :
    Guard.cleanup p run = (.ok (), run) := by
  have hcancel : (!run.source_complete && !run.source_cancelled) = false := by
    rcases hsource with h | h
    · simp [h]
    · simp [h]
  have habort : (!run.stage_aborted && run.publication.open) = false := by
    rcases hstage with h | h
    · simp [h]
    · simp [h]
  have hfirst : Guard.cancel_source p run = (.ok (), run) := by
    show (if (!run.source_complete && !run.source_cancelled) = true then _ else _ : Seal σ Unit)
      run = _
    rw [hcancel]
    rfl
  have hsecond : Guard.abort_stage p run = (.ok (), run) := by
    show (if (!run.stage_aborted && run.publication.open) = true then _ else _ : Seal σ Unit)
      run = _
    rw [habort]
    rfl
  show Prog.bind (Guard.cancel_source p) (fun _ => Guard.abort_stage p) run = _
  unfold Prog.bind
  rw [hfirst]
  exact hsecond

theorem budget_new_going (hpos : 0 < limits.timeout_ms) (world : σ) :
    Triple (· = Run.new world) (Budget.new p) (fun _ => Going limits false)
      (fun stop run => stop = .unwind ∧ Over limits none 1 run) := by
  have hnew : Tracked (Run.new world) :=
    ⟨rfl, rfl, by simp [Run.new, Trace.publishes], .inl ⟨rfl, rfl, rfl⟩, .inl ⟨rfl, rfl, rfl⟩⟩
  have huntouched : Untouched false 0 (Run.new world) :=
    ⟨hnew, rfl, rfl, rfl, by simp [Run.new, Trace.Unpublished], rfl⟩
  apply Triple.bind (Q := fun now run => ∃ world',
    run = { Run.new world with world := world', trace := [.Now (.ret now)] })
  · apply call_spec
    · rintro run world' now rfl
      exact ⟨world', rfl⟩
    · rintro run world' rfl
      exact ⟨rfl, (huntouched.step (e := .Now .unwind) ⟨rfl, rfl, rfl, rfl⟩ world').over⟩
  intro now
  apply Triple.modify
  rintro run ⟨world', rfl⟩
  have hstep := huntouched.step (e := .Now (.ret now)) ⟨rfl, rfl, rfl, rfl⟩ world'
  refine ⟨{ hstep with tracked := { hstep.tracked with } }, ?_⟩
  intro _
  simp [Trace.readings, Event.reading, InTime, hpos]

/-- How the body of `seal_with_clock` ends with a value. -/
def Answers (limits : SealLimits) (run : Run σ) : Except SealFailureReport SealedCounts → Prop
  | .ok counts => Succeeded limits counts run
  | .error report => Held limits none 0 run ∧ SourceSettled run ∧ StageSettled run ∧
      report.publication = run.publication ∧ report.source_cleanup = run.source_cleanup ∧
      report.stage_cleanup = run.stage_cleanup

/-- How it ends without one. -/
def Unanswered (limits : SealLimits) (run : Run σ) : Stop → Prop
  | .fail _ => False
  | .unwind => Held limits none 1 run ∧ Ordered run
  | .running => Over limits none 0 run

theorem Over.ordered (h : Over limits result n run) : Ordered run := by
  intro hflag
  simp [h.not_aborted] at hflag

/-- How the run that is attempted ends. -/
def AttemptHeld (limits : SealLimits) : Except SealFailure SealedCounts → Run σ → Prop
  | .ok counts, run => Succeeded limits counts run
  | .error _, run => Over limits none 0 run

theorem sealed_held (hpos : 0 < limits.timeout_ms) (steps : Nat) (world : σ) :
    Triple (· = Run.new world) (sealed p limits steps) (fun r run => Answers limits run r)
      (fun stop run => Unanswered limits run stop) := by
  unfold sealed
  apply Triple.bind ((budget_new_going hpos world).conseq (fun _ h => h) (fun _ _ h => h) ?_)
  · intro _
    apply Triple.bind (Q := AttemptHeld limits)
    · apply Triple.attempt
      apply (run_over steps).conseq (fun _ h => h) (fun _ _ h => h)
      intro stop run hrun
      cases stop with
      | fail failure => exact hrun
      | unwind => exact ⟨hrun.held, hrun.ordered⟩
      | running => exact hrun
    intro r
    cases r with
    | ok counts =>
      apply Triple.pure
      exact fun run hrun => hrun
    | error cause =>
      apply Triple.bind (cleanup_held.conseq (fun _ h => ⟨h.held, h.ordered⟩) (fun _ _ h => h) ?_)
      · intro _
        apply Triple.get_bind
        intro start hstart
        apply Triple.pure
        rintro run rfl
        exact ⟨hstart.1, hstart.2.1, hstart.2.2, rfl, rfl, rfl⟩
      · rintro stop run ⟨rfl, hheld, hsettled⟩
        exact ⟨hheld, fun _ => hsettled⟩
  · rintro stop run ⟨rfl, hover⟩
    exact ⟨hover.held, hover.ordered⟩

/-! ## The law -/

theorem Tracked.open_iff (h : Tracked run) : run.publication.open = true ↔
    Trace.publishes run.trace = [] ∨ Trace.publishes run.trace = [.ret .NotPublished] := by
  have honce := h.publish_once
  rw [h.publication]
  unfold Trace.publication
  cases hp : Trace.publishes run.trace with
  | nil => simp [Publication.open]
  | cons reply rest =>
    rw [hp] at honce
    have hrest : rest = [] := by simpa using honce
    subst hrest
    cases reply with
    | unwind => simp [Reply.publication, Publication.open]
    | ret outcome =>
      cases outcome with
      | Published => simp [Reply.publication, PublishOutcome.publication, Publication.open]
      | NotPublished => simp [Reply.publication, PublishOutcome.publication, Publication.open]
      | Unknown => simp [Reply.publication, PublishOutcome.publication, Publication.open]

/-- The laws of the guard from the state at the end. -/
theorem Held.cleaned_up {ended : Ended} (h : Held limits result n run)
    (hfailed : ended.failed = true → SourceSettled run ∧ StageSettled run)
    (hnot : ended.failed = false → run.source_cancelled = false ∧ run.stage_aborted = false)
    (hok : ∀ counts, ended = .returned (.ok counts) ↔ result = some counts)
    (hreport : ∀ report, ended = .returned (.error report) →
      report.publication = run.publication ∧ report.source_cleanup = run.source_cleanup ∧
        report.stage_cleanup = run.stage_cleanup) :
    CleanedUp limits.timeout_ms ended run.trace := by
  have hcomplete := h.tracked.complete
  have hopen := h.tracked.open_iff
  have hcancelled : run.source_cleanup = reported (Trace.cancels run.trace) := by
    rcases h.tracked.cancel with ⟨-, hnil, hcleanup⟩ | ⟨-, -, reply, hone, hcleanup⟩
    · rw [hnil, hcleanup]
      rfl
    · rw [hone, hcleanup]
      rfl
  have haborted : run.stage_cleanup = reported (Trace.aborts run.trace) := by
    rcases h.tracked.abort with ⟨-, hnil, hcleanup⟩ | ⟨-, -, reply, hone, hcleanup⟩
    · rw [hnil, hcleanup]
      rfl
    · rw [hone, hcleanup]
      rfl
  refine ⟨?_, ?_, ?_, ?_, h.at_end, ?_, ?_⟩
  · rcases h.tracked.cancel with ⟨-, hnil, -⟩ | ⟨-, -, reply, hone, -⟩
    · simp [hnil]
    · simp [hone]
  · rcases h.tracked.abort with ⟨-, hnil, -⟩ | ⟨-, -, reply, hone, -⟩
    · simp [hnil]
    · simp [hone]
  · rw [← hcomplete]
    rcases h.tracked.cancel with ⟨hflag, hnil, -⟩ | ⟨hflag, hincomplete, reply, hone, -⟩
    · simp only [hnil, ne_eq, not_true_eq_false, false_iff, not_and, Bool.not_eq_false]
      intro hfail
      rcases (hfailed hfail).1 with hdone | hcancel
      · exact hdone
      · simp [hflag] at hcancel
    · simp only [hone, ne_eq, List.cons_ne_self, not_false_eq_true, true_iff, hincomplete, and_true]
      by_contra hfine
      simp [hnot (by simpa using hfine)] at hflag
  · rw [← hopen]
    rcases h.tracked.abort with ⟨hflag, hnil, -⟩ | ⟨hflag, hpub, reply, hone, -⟩
    · simp only [hnil, ne_eq, not_true_eq_false, false_iff, not_and, Bool.not_eq_true]
      intro hfail
      rcases (hfailed hfail).2 with hclosed | habort
      · exact hclosed
      · simp [hflag] at habort
    · simp only [hone, ne_eq, List.cons_ne_self, not_false_eq_true, true_iff, hpub, and_true]
      by_contra hfine
      simp [hnot (by simpa using hfine)] at hflag
  · intro counts
    rw [hok counts]
    exact (h.confirms counts).symm
  · intro report hended
    rw [← hcancelled, ← haborted, ← h.tracked.publication]
    exact hreport report hended

/-- The result of a run is that of its body: the drop of the guard calls nothing. -/
theorem seal_answers {sealer : ArchiveSealer} {steps : Nat} {world : σ}
    {result : Except SealFailureReport SealedCounts}
    (h : sealer.seal_with_clock p steps world = (.returned result, run)) :
    Answers sealer.limits run result := by
  have hsealed := sealed_held (p := p) sealer.timeout_pos steps world (Run.new world) rfl
  unfold ArchiveSealer.seal_with_clock at h
  split at h
  · rename_i answer final hrun
    rw [hrun] at hsealed
    have hclean : Guard.cleanup p final = (.ok (), final) := by
      cases answer with
      | ok counts =>
        obtain ⟨-, hcomplete, hpublished⟩ := hsealed
        exact cleanup_of_settled (.inl hcomplete) (.inl (by rw [hpublished]; rfl))
      | error report => exact cleanup_of_settled hsealed.2.1 hsealed.2.2.1
    rw [hclean] at h
    cases h
    exact hsealed
  · cases h
  · split at h <;> cases h

end

/-- The law of the cleanup, when at most one call unwinds. -/
theorem cleanup_is_called_exactly_when_it_is_owed {σ : Type} (sealer : ArchiveSealer)
    (p : Ports σ) (steps : Nat) (world : σ)
    (hone : Trace.unwound (sealer.seal_with_clock p steps world).2.trace ≤ 1) :
    CleanedUp sealer.limits.timeout_ms (sealer.seal_with_clock p steps world).1
      (sealer.seal_with_clock p steps world).2.trace := by
  have hsealed := sealed_held (p := p) sealer.timeout_pos steps world (Run.new world) rfl
  revert hone
  unfold ArchiveSealer.seal_with_clock
  cases hrun : sealed p sealer.limits steps (Run.new world) with
  | mk r run =>
    rw [hrun] at hsealed
    cases r with
    | ok answer =>
      cases answer with
      | ok counts =>
        obtain ⟨hover, hcomplete, hpublished⟩ := hsealed
        have hstage : StageSettled run := by
          apply Or.inl
          rw [hpublished]
          rfl
        simp only [cleanup_of_settled (p := p) (.inl hcomplete) hstage]
        intro _
        apply hover.held.cleaned_up
        · intro hfailed
          cases hfailed
        · exact fun _ => ⟨hover.not_cancelled, hover.not_aborted⟩
        · simp
        · simp
      | error report =>
        obtain ⟨hheld, hsource, hstage, hreport⟩ := hsealed
        simp only [cleanup_of_settled (p := p) hsource hstage]
        intro _
        apply hheld.cleaned_up
        · exact fun _ => ⟨hsource, hstage⟩
        · intro hfine
          cases hfine
        · simp
        · rintro _ ⟨⟩
          exact hreport
    | error stop =>
      cases stop with
      | fail failure => exact hsealed.elim
      | running =>
        intro _
        apply hsealed.held.cleaned_up
        · intro hfailed
          cases hfailed
        · exact fun _ => ⟨hsealed.not_cancelled, hsealed.not_aborted⟩
        · simp
        · simp
      | unwind =>
        have hclean := cleanup_held (p := p) run hsealed
        cases hdrop : Guard.cleanup p run with
        | mk dropped final =>
          rw [hdrop] at hclean
          cases dropped with
          | ok _ =>
            simp only [hdrop]
            intro _
            apply hclean.1.cleaned_up
            · exact fun _ => hclean.2
            · intro hfine
              cases hfine
            · simp
            · simp
          | error stop =>
            -- the second call that unwinds
            simp only [hdrop]
            intro hone
            have htwo : Trace.unwound final.trace = 2 := hclean.2.1.unwound
            omega

/-- A stage that declares nothing, and a source that unwinds when it is cancelled. -/
def unwinding_ports : Ports (Nat × Nat) :=
  { one_byte_ports with
    capabilities := fun w => (.ret ⟨false, false, false⟩, w)
    cancel := fun w => (.unwind, w) }

/-- The stage is aborted all the same, by the drop of the guard. -/
theorem a_cancel_that_unwinds_does_not_prevent_abort :
    Trace.cancels (ArchiveSealer.seal_with_clock ⟨one_byte_limits, by decide⟩ unwinding_ports 10
      (0, 0)).2.trace = [.unwind] ∧
    Trace.aborts (ArchiveSealer.seal_with_clock ⟨one_byte_limits, by decide⟩ unwinding_ports 10
      (0, 0)).2.trace ≠ [] := by
  have hlaw := cleanup_is_called_exactly_when_it_is_owed ⟨one_byte_limits, by decide⟩
    unwinding_ports 10 (0, 0) (by decide)
  refine ⟨by decide, hlaw.abort_iff.mpr ⟨by decide, .inl (by decide)⟩⟩

end openwrt_mcp_runtime.sealing
