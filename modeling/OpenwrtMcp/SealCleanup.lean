-- The laws of the guard: whatever ports fail or unwind, the source is cancelled and the stage
-- aborted exactly when that is owed, and the report of a failure says what was done.
import OpenwrtMcp.SealPublish

open programs

namespace openwrt_mcp_runtime.sealing

/-! ## What a trace says of the guard -/

/-- What the guard reports of a call of `cancel` or of `abort`. -/
def Reply.cleanup : Reply CleanupOutcome → Cleanup
  | .ret outcome => outcome.into
  | .unwind => .Unknown

def Reply.publication : Reply PublishOutcome → Publication
  | .ret outcome => outcome.publication
  | .unwind => .Unknown

namespace Event

def cancel : Event → List (Reply CleanupOutcome)
  | .Cancel reply => [reply]
  | _ => []

def abort : Event → List (Reply CleanupOutcome)
  | .Abort reply => [reply]
  | _ => []

def publish : Event → List (Reply PublishOutcome)
  | .Publish _ reply => [reply]
  | _ => []

/-- The source confirmed that it has completed. -/
def completes : Event → Bool
  | .Complete reply => reply.went_well
  | _ => false

def unwinds : Event → Bool
  | .Now reply => !reply.came_back
  | .Read _ _ reply => !reply.came_back
  | .Complete reply => !reply.came_back
  | .Cancel reply => !reply.came_back
  | .Feed _ reply => !reply.came_back
  | .Finish reply => !reply.came_back
  | .Capabilities reply => !reply.came_back
  | .Write _ reply => !reply.came_back
  | .Flush reply => !reply.came_back
  | .Publish _ reply => !reply.came_back
  | .Abort reply => !reply.came_back
  | .EncryptUnwound => true
  | .Asked _ => false
  | .Returned _ => false
  | .Encrypted _ => false
  | .Recorded _ => false

/-- The guard does not look at it. -/
structure Plain (e : Event) : Prop where
  no_cancel : e.cancel = []
  no_abort : e.abort = []
  no_publish : e.publish = []
  completes : e.completes = false

end Event

namespace Trace

def cancels (t : Trace) : List (Reply CleanupOutcome) := t.flatMap Event.cancel
def aborts (t : Trace) : List (Reply CleanupOutcome) := t.flatMap Event.abort
def publishes (t : Trace) : List (Reply PublishOutcome) := t.flatMap Event.publish

/-- `complete` returned `Ok`. -/
def completed (t : Trace) : Bool := t.any Event.completes

/-- How many calls unwound. -/
def unwound (t : Trace) : Nat := t.countP Event.unwinds

/-- What is known of the publication. -/
def publication (t : Trace) : Publication :=
  t.publishes.getLast?.elim .NotAttempted Reply.publication

/-- `publish` returned `Published`, and the reading of the clock after it is in time. -/
def Confirmed (timeout : Nat) (counts : SealedCounts) (t : Trace) : Prop :=
  ∃ before now after,
    t = before ++ .Publish counts (.ret .Published) :: .Now (.ret now) :: after ∧
      InTime timeout (readings before ++ [now])

end Trace

/-- The run failed, or a port unwound. -/
def Ended.failed : Ended → Bool
  | .returned (.ok _) => false
  | .returned (.error _) => true
  | .unwound => true
  | .aborted => true
  | .running => false

/-- The stage may be aborted: its content was surely not published. -/
def Publication.open (publication : Publication) : Bool :=
  publication == .NotAttempted || publication == .NotPublished

/-- The list of the calls of a cleanup, as it is reported. -/
def reported : List (Reply CleanupOutcome) → Cleanup
  | [] => .NotRequired
  | reply :: _ => reply.cleanup

/-- The laws of the guard. -/
structure CleanedUp (timeout : Nat) (ended : Ended) (t : Trace) : Prop where
  cancel_once : t.cancels.length ≤ 1
  abort_once : t.aborts.length ≤ 1
  cancel_iff : t.cancels ≠ [] ↔ ended.failed ∧ t.completed = false
  abort_iff : t.aborts ≠ [] ↔
    ended.failed ∧ (t.publishes = [] ∨ t.publishes = [.ret .NotPublished])
  /-- The cleanup is the end of the trace, the source before the stage. -/
  at_end : ∃ work, t = work ++ t.cancels.map .Cancel ++ t.aborts.map .Abort
  ok_iff : ∀ counts, ended = .returned (.ok counts) ↔ t.Confirmed timeout counts
  report : ∀ report, ended = .returned (.error report) →
    report.publication = t.publication ∧ report.source_cleanup = reported t.cancels ∧
      report.stage_cleanup = reported t.aborts

/-! ## One event more -/

namespace Trace

variable (t : Trace) (e : Event)

@[simp] theorem cancels_snoc : cancels (t ++ [e]) = cancels t ++ e.cancel := by
  simp [cancels]

@[simp] theorem aborts_snoc : aborts (t ++ [e]) = aborts t ++ e.abort := by
  simp [aborts]

@[simp] theorem publishes_snoc : publishes (t ++ [e]) = publishes t ++ e.publish := by
  simp [publishes]

@[simp] theorem completed_snoc : completed (t ++ [e]) = (completed t || e.completes) := by
  simp [completed]

@[simp] theorem unwound_snoc : unwound (t ++ [e]) = unwound t + if e.unwinds then 1 else 0 := by
  simp [unwound, List.countP_append, List.countP_singleton]

variable {t e}

theorem publication_snoc_of_no_publish (h : e.publish = []) :
    publication (t ++ [e]) = publication t := by
  simp [publication, h]

theorem publication_snoc_publish (counts : SealedCounts) (reply : Reply PublishOutcome) :
    publication (t ++ [.Publish counts reply]) = reply.publication := by
  simp [publication, Event.publish]

theorem publishes_of_unpublished (h : Unpublished t) : publishes t = [] := by
  apply List.flatMap_eq_nil_iff.mpr
  intro e he
  have hpub := h e he
  cases e with
  | Publish counts reply => cases hpub
  | _ => rfl

end Trace

/-! ## The guard and the trace agree -/

/-- The flags of the guard say what is in the trace. -/
structure Tracked {σ : Type} (run : Run σ) : Prop where
  complete : run.source_complete = Trace.completed run.trace
  publication : run.publication = Trace.publication run.trace
  publish_once : (Trace.publishes run.trace).length ≤ 1
  cancel : (run.source_cancelled = false ∧ Trace.cancels run.trace = [] ∧
      run.source_cleanup = .NotRequired) ∨
    (run.source_cancelled = true ∧ run.source_complete = false ∧
      ∃ reply, Trace.cancels run.trace = [reply] ∧ run.source_cleanup = reply.cleanup)
  abort : (run.stage_aborted = false ∧ Trace.aborts run.trace = [] ∧
      run.stage_cleanup = .NotRequired) ∨
    (run.stage_aborted = true ∧ run.publication.open = true ∧
      ∃ reply, Trace.aborts run.trace = [reply] ∧ run.stage_cleanup = reply.cleanup)

/-- The first of the two cleanups is done or not owed. -/
def SourceSettled {σ : Type} (run : Run σ) : Prop :=
  run.source_complete = true ∨ run.source_cancelled = true

def StageSettled {σ : Type} (run : Run σ) : Prop :=
  run.publication.open = false ∨ run.stage_aborted = true

/-- Nothing is cleaned up yet, nothing published, and `n` calls unwound; `done` says whether the
source has completed. -/
structure Untouched {σ : Type} (done : Bool) (n : Nat) (run : Run σ) : Prop where
  tracked : Tracked run
  complete : run.source_complete = done
  not_cancelled : run.source_cancelled = false
  not_aborted : run.stage_aborted = false
  unpublished : Trace.Unpublished run.trace
  unwound : Trace.unwound run.trace = n

/-- The readings of the clock are in time, and the budget has the first and the last of them. -/
def Timed {σ : Type} (limits : SealLimits) (run : Run σ) : Prop :=
  run.error = none → InTime limits.timeout_ms (Trace.readings run.trace) ∧
    (Trace.readings run.trace).head? = some run.start ∧
    (Trace.readings run.trace).getLast? = some run.last

/-- The run goes on, or may go on after a failure that the cipher sees. -/
def Going {σ : Type} (limits : SealLimits) (done : Bool) (run : Run σ) : Prop :=
  Untouched done 0 run ∧ Timed limits run

/-- The states in which the run stops before the publication. -/
def Halted {σ : Type} (limits : SealLimits) (done : Bool) : Stop → Run σ → Prop
  | .unwind, run => Untouched done 1 run
  | _, run => Going limits done run

/-- One reading more, not before the last one and in time. -/
theorem inTime_snoc {timeout start last now : Nat} {readings : List Nat}
    (h : InTime timeout readings) (hhead : readings.head? = some start)
    (hlast : readings.getLast? = some last) :
    InTime timeout (readings ++ [now]) ↔ last ≤ now ∧ now - start < timeout := by
  obtain ⟨front, rfl⟩ := List.getLast?_eq_some_iff.mp hlast
  have hhead' : ((front ++ [last]) ++ [now]).head? = some start := by
    rw [List.head?_append, hhead]
    rfl
  unfold InTime
  rw [hhead', List.pairwise_append]
  constructor
  · intro hin
    exact ⟨hin.1.2.2 last (by simp) now (by simp), hin.2 start rfl now (by simp)⟩
  · intro hpasses
    refine ⟨⟨h.1, List.pairwise_singleton _ _, ?_⟩, ?_⟩
    · intro a ha b hb
      rw [List.mem_singleton.mp hb]
      refine Nat.le_trans ?_ hpasses.1
      rcases List.mem_append.mp ha with hfront | hsame
      · exact (List.pairwise_append.mp h.1).2.2 a hfront last (by simp)
      · simp [List.mem_singleton.mp hsame]
    · intro first hfirst a ha
      cases hfirst
      rcases List.mem_append.mp ha with hbefore | hsame
      · exact h.2 start hhead a hbefore
      · rw [List.mem_singleton.mp hsame]
        exact hpasses.2

section
variable {σ α : Type} {p : Ports σ} {limits : SealLimits} {run : Run σ} {e : Event}
  {done : Bool} {n : Nat}

/-- An event that the guard does not look at. -/
theorem Tracked.step (h : Tracked run) (he : e.Plain) (world : σ) :
    Tracked { run with world := world, trace := run.trace ++ [e] } where
  complete := by simp [h.complete, he.completes]
  publication := by simp [h.publication, Trace.publication_snoc_of_no_publish he.no_publish]
  publish_once := by simpa [he.no_publish] using h.publish_once
  cancel := by simpa [he.no_cancel] using h.cancel
  abort := by simpa [he.no_abort] using h.abort

theorem Event.Plain.unpublished (he : e.Plain) : e.is_publish = false := by
  have := he.no_publish
  cases e with
  | Publish counts reply => cases this
  | _ => rfl

theorem Untouched.step (h : Untouched done n run) (he : e.Plain) (world : σ) :
    Untouched done (n + if e.unwinds then 1 else 0)
      { run with world := world, trace := run.trace ++ [e] } where
  tracked := h.tracked.step he world
  complete := h.complete
  not_cancelled := h.not_cancelled
  not_aborted := h.not_aborted
  unpublished := h.unpublished.snoc he.unpublished
  unwound := by simp [h.unwound]

/-- An event that comes back and is no reading of the clock. -/
theorem Going.step (h : Going limits done run) (he : e.Plain) (hback : e.unwinds = false)
    (hread : e.reading = []) (world : σ) :
    Going limits done { run with world := world, trace := run.trace ++ [e] } := by
  refine ⟨by simpa [hback] using h.1.step he world, ?_⟩
  intro herror
  simpa [hread] using h.2 herror

theorem Going.unwinds (h : Going limits done run) (he : e.Plain) (hback : e.unwinds = true)
    (world : σ) :
    Untouched done 1 { run with world := world, trace := run.trace ++ [e] } := by
  simpa [hback] using h.1.step he world

/-- What a call before the publication does to the guard: nothing. -/
abbrev Keeps (limits : SealLimits) (done : Bool) (x : Seal σ α) : Prop :=
  Triple (Going limits done) x (fun _ => Going limits done) (Halted limits done)

/-! ## The budget -/

/-- A port that the guard does not look at. -/
theorem call_going {port : σ → Reply α × σ} {event : Reply α → Event}
    (hplain : ∀ reply, (event reply).Plain) (hread : ∀ reply, (event reply).reading = [])
    (hret : ∀ value, (event (.ret value)).unwinds = false)
    (hunwind : (event .unwind).unwinds = true) :
    Keeps limits done (call port event) := by
  apply call_spec
  · intro run world value hrun
    exact hrun.step (hplain _) (hret _) (hread _) world
  · intro run world hrun
    exact hrun.unwinds (hplain _) hunwind world

theorem fail_going (failure : SealFailure) :
    Triple (Untouched done 0) (Budget.fail failure : Seal σ SealFailure)
      (fun _ => Going limits done) (Halted limits done) := by
  intro run hrun
  constructor
  · have h : Untouched done 0 { run with trace := run.trace ++ [.Recorded failure] } :=
      hrun.step (e := .Recorded failure) ⟨rfl, rfl, rfl, rfl⟩ run.world
    exact { h with tracked := { h.tracked with } }
  · intro herror
    simp at herror

/-- The clock is read, and the check passes when the reading is in time. -/
def Passes (limits : SealLimits) (run : Run σ) (now : Nat) : Prop :=
  run.last ≤ now ∧ now - run.start < limits.timeout_ms

/-- The end of a check that fails: the failure is in the budget and in the trace. -/
def Failed (limits : SealLimits) (start : Run σ) (stop : Stop) (run : Run σ) : Prop :=
  (stop = .unwind ∧ ∃ world,
    run = { start with world := world, trace := start.trace ++ [.Now .unwind] }) ∨
  ∃ failure world now last, stop = .fail failure ∧ ¬ Passes limits start now ∧
    run = { start with
      world := world
      trace := start.trace ++ [.Now (.ret now)] ++ [.Recorded failure]
      last := last
      error := some failure }

theorem check_from (start : Run σ) (hnone : start.error = none) :
    Triple (start = ·) (Budget.check p limits)
      (fun _ run => ∃ world now, Passes limits start now ∧ run = { start with
        world := world, trace := start.trace ++ [.Now (.ret now)], last := now })
      (Failed limits start) := by
  unfold Budget.check
  apply Triple.get_bind
  intro first hfirst
  subst hfirst
  rw [hnone]
  apply Triple.bind (Q := fun now run => ∃ world,
    run = { start with world := world, trace := start.trace ++ [.Now (.ret now)] })
  · apply call_spec
    · rintro run world now rfl
      exact ⟨world, rfl⟩
    · rintro run world rfl
      exact .inl ⟨rfl, world, rfl⟩
  intro now
  split
  · rename_i hlast
    rintro run ⟨world, rfl⟩
    refine .inr ⟨.ClockReversed, world, now, start.last, by simp [hnone], ?_, by simp [hnone]⟩
    unfold Passes
    omega
  · rename_i hlast
    apply Triple.modify_bind (M := fun run => ∃ world, run = { start with
      world := world, trace := start.trace ++ [.Now (.ret now)], last := now })
    · rintro _ ⟨world, rfl⟩
      exact ⟨world, rfl⟩
    split
    · rename_i hdead
      rintro _ ⟨world, rfl⟩
      refine .inr ⟨.Deadline, world, now, now, by simp [hnone], ?_, by simp [hnone]⟩
      unfold Passes
      omega
    · rename_i hdead
      apply Triple.pure
      rintro _ ⟨world, rfl⟩
      refine ⟨world, now, ?_, by simp [hnone]⟩
      unfold Passes
      omega

theorem check_going :
    Triple (Going limits done) (Budget.check p limits)
      (fun _ run => Going limits done run ∧ run.error = none) (Halted limits done) := by
  intro start hstart
  cases hnone : start.error with
  | some error =>
    have hcheck : Budget.check p limits start = (.error (.fail error), start) := by
      unfold Budget.check
      show Prog.bind Prog.get _ start = _
      simp [Prog.bind, Prog.get, hnone, Prog.stop]
    rw [hcheck]
    exact hstart
  | none =>
    refine ((check_from start hnone).conseq (fun _ h => h) ?_ ?_) start rfl
    · rintro _ run ⟨world, now, hpasses, rfl⟩
      have h := hstart.1.step (e := .Now (.ret now)) ⟨rfl, rfl, rfl, rfl⟩ world
      refine ⟨⟨{ h with tracked := { h.tracked with } }, ?_⟩, hnone⟩
      intro _
      obtain ⟨htime, hhead, hlast⟩ := hstart.2 hnone
      refine ⟨?_, by simp [hhead, Event.reading], by simp [Event.reading]⟩
      simpa [Event.reading] using (inTime_snoc htime hhead hlast).mpr hpasses
    · rintro stop run (⟨rfl, world, rfl⟩ | ⟨failure, world, now, last, rfl, hpasses, rfl⟩)
      · exact hstart.unwinds ⟨rfl, rfl, rfl, rfl⟩ rfl world
      · have h1 := hstart.1.step (e := .Now (.ret now)) ⟨rfl, rfl, rfl, rfl⟩ world
        have h2 := h1.step (e := .Recorded failure) ⟨rfl, rfl, rfl, rfl⟩ world
        refine ⟨{ h2 with tracked := { h2.tracked with } }, ?_⟩
        intro herror
        cases herror

theorem after_going (result : Except SealFailure α) :
    Triple (Going limits done) (Budget.after p limits result)
      (fun _ run => Going limits done run ∧ run.error = none) (Halted limits done) := by
  cases result with
  | error failure =>
    apply Triple.bind ((fail_going failure).conseq (fun _ h => h.1) (fun _ _ h => h)
      fun _ _ h => h)
    intro first
    apply Triple.stop
    exact fun run hrun => hrun
  | ok value =>
    apply Triple.bind check_going
    intro _
    apply Triple.pure
    exact fun run hrun => hrun

/-- A failure of the budget that the cipher is told of. -/
theorem attempt_going {x : Seal σ α} {Q : α → Run σ → Prop}
    (hx : Triple (Going limits done) x Q (Halted limits done))
    (hQ : ∀ value run, Q value run → Going limits done run) :
    Keeps limits done (attempt x) := by
  apply Triple.attempt
  apply hx.conseq (fun _ h => h) hQ
  intro stop run hrun
  cases stop with
  | fail failure => exact hrun
  | unwind => exact hrun
  | running => exact hrun

theorem attempt_check_going : Keeps limits done (attempt (Budget.check p limits)) :=
  attempt_going check_going fun _ _ h => h.1

theorem attempt_after_going (result : Except SealFailure α) :
    Keeps limits done (attempt (Budget.after p limits result)) :=
  attempt_going (after_going result) fun _ _ h => h.1

/-! ## The wrappers -/

/-- A change of the counts of a wrapper. -/
theorem Going.counts (h : Going limits done run) (input output : Nat) (eof : Bool) :
    Going limits done { run with input_count := input, output_count := output, eof := eof } :=
  ⟨{ h.1 with tracked := { h.1.tracked with } }, h.2⟩

theorem Going.world (h : Going limits done run) (world : σ) :
    Going limits done { run with world := world } :=
  ⟨{ h.1 with tracked := { h.1.tracked with } }, h.2⟩

theorem fail_read_going (output : Bytes) (failure : SealFailure) :
    Keeps limits done (fail_read output failure : Seal σ _) := by
  apply Triple.bind ((fail_going failure).conseq (fun _ h => h.1) (fun _ _ h => h) fun _ _ h => h)
  intro _
  apply Triple.pure
  exact fun run hrun => hrun

theorem fail_write_going (failure : SealFailure) :
    Keeps limits done (fail_write failure : Seal σ _) := by
  apply Triple.bind ((fail_going failure).conseq (fun _ h => h.1) (fun _ _ h => h) fun _ _ h => h)
  intro _
  apply Triple.pure
  exact fun run hrun => hrun

theorem source_read_going (output : Bytes) :
    Keeps limits done (call (p.read output) (read_event output)) := by
  apply call_going
  · intro reply
    cases reply with
    | ret reply => exact ⟨rfl, rfl, rfl, rfl⟩
    | unwind => exact ⟨rfl, rfl, rfl, rfl⟩
  · intro reply
    cases reply with
    | ret reply => rfl
    | unwind => rfl
  · exact fun _ => rfl
  · rfl

theorem probe_going (output : Bytes) :
    Keeps limits done (CheckedRead.probe p limits output) := by
  unfold CheckedRead.probe
  apply Triple.bind (source_read_going _)
  intro reply
  apply Triple.bind (attempt_after_going _)
  intro result
  cases result with
  | error failure =>
    apply Triple.pure
    exact fun run hrun => hrun
  | ok count =>
    dsimp only
    split
    · exact fail_read_going _ _
    split
    · exact fail_read_going _ _
    · apply Triple.modify_bind
      · exact fun run hrun => hrun.counts run.input_count run.output_count true
      · apply Triple.pure
        exact fun run hrun => hrun

theorem take_going (output rest : Bytes) :
    Keeps limits done (CheckedRead.take p limits output rest) := by
  unfold CheckedRead.take
  apply Triple.bind (source_read_going _)
  intro reply
  apply Triple.bind (attempt_after_going _)
  intro result
  cases result with
  | error failure => exact fail_read_going _ _
  | ok count =>
    dsimp only
    split
    · exact fail_read_going _ _
    split
    · apply Triple.modify_bind
      · exact fun run hrun => hrun.counts run.input_count run.output_count true
      · apply Triple.pure
        exact fun run hrun => hrun
    apply Triple.get_bind
    intro start hstart
    split
    · apply Triple.bind ((call_going (fun _ => ⟨rfl, rfl, rfl, rfl⟩) (fun _ => rfl)
        (fun _ => rfl) rfl).conseq (fun _ h => h ▸ hstart) (fun _ _ h => h) fun _ _ h => h)
      intro checked
      apply Triple.bind (attempt_after_going _)
      intro fed
      cases fed with
      | error failure =>
        apply Triple.pure
        exact fun run hrun => hrun
      | ok _ =>
        apply Triple.modify_bind
        · exact fun run hrun => hrun.counts (run.input_count + count) run.output_count run.eof
        · apply Triple.pure
          exact fun run hrun => hrun
    · exact (fail_read_going _ _).conseq (fun _ h => h ▸ hstart) (fun _ _ h => h) fun _ _ h => h

theorem read_going (output : Bytes) :
    Keeps limits done (CheckedRead.read p limits output) := by
  unfold CheckedRead.read
  apply Triple.bind attempt_check_going
  intro result
  cases result with
  | error failure =>
    apply Triple.pure
    exact fun run hrun => hrun
  | ok _ =>
    apply Triple.get_bind
    intro start hstart
    dsimp only
    split
    · apply Triple.pure
      rintro run rfl
      exact hstart
    split
    · exact (probe_going output).conseq (fun _ h => h ▸ hstart) (fun _ _ h => h) fun _ _ h => h
    · exact (take_going _ _).conseq (fun _ h => h ▸ hstart) (fun _ _ h => h) fun _ _ h => h

theorem put_going (input : Bytes) :
    Keeps limits done (CountedWrite.put p limits input) := by
  unfold CountedWrite.put
  apply Triple.bind (call_going (fun _ => ⟨rfl, rfl, rfl, rfl⟩) (fun _ => rfl) (fun _ => rfl)
    rfl)
  intro written
  apply Triple.bind (attempt_after_going _)
  intro result
  cases result with
  | error failure =>
    apply Triple.pure
    exact fun run hrun => hrun
  | ok count =>
    dsimp only
    split
    · exact fail_write_going _
    split
    · exact fail_write_going _
    apply Triple.get_bind
    intro start hstart
    split
    · apply Triple.modify_bind (M := Going limits done)
      · rintro run rfl
        exact hstart.counts run.input_count (run.output_count + count) run.eof
      · apply Triple.pure
        exact fun run hrun => hrun
    · exact (fail_write_going _).conseq (fun _ h => h ▸ hstart) (fun _ _ h => h) fun _ _ h => h

theorem write_going (input : Bytes) :
    Keeps limits done (CountedWrite.write p limits input) := by
  unfold CountedWrite.write
  apply Triple.bind attempt_check_going
  intro result
  cases result with
  | error failure =>
    apply Triple.pure
    exact fun run hrun => hrun
  | ok _ =>
    apply Triple.get_bind
    intro start hstart
    dsimp only
    split
    · apply Triple.pure
      rintro run rfl
      exact hstart
    split
    · exact (fail_write_going _).conseq (fun _ h => h ▸ hstart) (fun _ _ h => h) fun _ _ h => h
    · exact (put_going _).conseq (fun _ h => h ▸ hstart) (fun _ _ h => h) fun _ _ h => h

theorem flush_going : Keeps limits done (CountedWrite.flush p limits) := by
  unfold CountedWrite.flush
  apply Triple.bind attempt_check_going
  intro result
  cases result with
  | error failure =>
    apply Triple.pure
    exact fun run hrun => hrun
  | ok _ =>
    apply Triple.bind (call_going (fun _ => ⟨rfl, rfl, rfl, rfl⟩) (fun _ => rfl) (fun _ => rfl)
      rfl)
    intro flushed
    apply Triple.bind (attempt_after_going _)
    intro result
    cases result with
    | error failure =>
      apply Triple.pure
      exact fun run hrun => hrun
    | ok _ =>
      apply Triple.pure
      exact fun run hrun => hrun

/-- Whatever the cipher does, the guard is untouched. -/
theorem encrypt_going (steps : Nat) :
    Keeps limits done (encrypt p limits steps) := by
  induction steps with
  | zero =>
    apply Triple.stop
    exact fun run hrun => hrun
  | succ steps ih =>
    have htell : ∀ answer, Keeps limits done (CipherAnswer.tell p answer) :=
      fun answer run hrun => hrun.world _
    unfold encrypt
    apply Triple.bind (Q := fun _ => Going limits done)
    · exact fun run hrun => hrun.world _
    intro step
    cases step with
    | Read output =>
      apply Triple.bind (read_going output)
      intro r
      apply Triple.modify_bind (M := Going limits done)
      · exact fun run hrun => hrun.step ⟨rfl, rfl, rfl, rfl⟩ rfl rfl run.world
      apply Triple.bind (htell _)
      exact fun _ => ih
    | Write input =>
      apply Triple.modify_bind (M := Going limits done)
      · exact fun run hrun => hrun.step ⟨rfl, rfl, rfl, rfl⟩ rfl rfl run.world
      apply Triple.bind (write_going input)
      intro result
      apply Triple.bind (htell _)
      exact fun _ => ih
    | Flush =>
      apply Triple.bind flush_going
      intro result
      apply Triple.bind (htell _)
      exact fun _ => ih
    | Return result =>
      apply Triple.modify_bind (M := Going limits done)
      · exact fun run hrun => hrun.step ⟨rfl, rfl, rfl, rfl⟩ rfl rfl run.world
      · apply Triple.pure
        exact fun run hrun => hrun
    | Unwind =>
      apply Triple.modify_bind (M := Untouched done 1)
      · exact fun run hrun => hrun.unwinds ⟨rfl, rfl, rfl, rfl⟩ rfl run.world
      · apply Triple.stop
        exact fun run hrun => hrun

/-! ## The run -/

theorem check_keeps : Keeps limits done (Budget.check p limits) :=
  check_going.conseq (fun _ h => h) (fun _ _ h => h.1) fun _ _ h => h

theorem after_keeps (result : Except SealFailure α) :
    Keeps limits done (Budget.after p limits result) :=
  (after_going result).conseq (fun _ h => h) (fun _ _ h => h.1) fun _ _ h => h

theorem run_capabilities_going : Keeps limits done (run_capabilities p limits) := by
  unfold run_capabilities
  apply Triple.bind check_keeps
  intro _
  apply Triple.bind (call_going (fun _ => ⟨rfl, rfl, rfl, rfl⟩) (fun _ => rfl) (fun _ => rfl) rfl)
  intro caps
  apply Triple.bind check_keeps
  intro _
  split
  · apply Triple.stop
    exact fun run hrun => hrun
  · exact check_keeps

theorem run_encrypt_going (steps : Nat) : Keeps limits done (run_encrypt p limits steps) := by
  unfold run_encrypt
  apply Triple.bind (encrypt_going steps)
  intro encrypted
  apply Triple.bind (after_keeps _)
  intro reported
  apply Triple.get_bind
  intro start hstart
  split
  · apply Triple.stop
    exact fun run hrun => hrun ▸ hstart
  split
  · apply Triple.stop
    exact fun run hrun => hrun ▸ hstart
  split
  · apply Triple.stop
    exact fun run hrun => hrun ▸ hstart
  · apply Triple.pure
    exact fun run hrun => hrun ▸ hstart

/-- A stop before or after the source has completed. -/
def HaltedAny (limits : SealLimits) (stop : Stop) (run : Run σ) : Prop :=
  ∃ done, Halted limits done stop run

theorem completes_ret (result : Except SealPortError Nat) :
    (Event.Complete (.ret result)).completes = result.isOk := by
  cases result with
  | ok count => rfl
  | error error => rfl

theorem Tracked.not_cancelled (h : Tracked run) (hflag : run.source_cancelled = false) :
    Trace.cancels run.trace = [] ∧ run.source_cleanup = .NotRequired := by
  rcases h.cancel with hno | hyes
  · exact hno.2
  · simp [hflag] at hyes

theorem Tracked.not_aborted (h : Tracked run) (hflag : run.stage_aborted = false) :
    Trace.aborts run.trace = [] ∧ run.stage_cleanup = .NotRequired := by
  rcases h.abort with hno | hyes
  · exact hno.2
  · simp [hflag] at hyes

/-- The guard notes what `complete` returned. -/
theorem Going.completes (h : Going limits false run) (result : Except SealPortError Nat)
    (world : σ) :
    Going limits result.isOk { run with
      world := world
      trace := run.trace ++ [.Complete (.ret result)]
      source_complete := result.isOk } := by
  obtain ⟨huntouched, htimed⟩ := h
  have htracked := huntouched.tracked
  have hbefore : Trace.completed run.trace = false := by
    rw [← htracked.complete]
    exact huntouched.complete
  constructor
  · refine ⟨⟨?_, ?_, ?_, ?_, ?_⟩, rfl, huntouched.not_cancelled, huntouched.not_aborted,
      huntouched.unpublished.snoc rfl, ?_⟩
    · simp [hbefore, completes_ret]
    · rw [Trace.publication_snoc_of_no_publish rfl]
      exact htracked.publication
    · simpa [Event.publish] using htracked.publish_once
    · apply Or.inl
      simpa [Event.cancel, huntouched.not_cancelled] using
        htracked.not_cancelled huntouched.not_cancelled
    · apply Or.inl
      simpa [Event.abort, huntouched.not_aborted] using
        htracked.not_aborted huntouched.not_aborted
    · simp [huntouched.unwound, Event.unwinds, Reply.came_back]
  · intro herror
    simpa [Event.reading] using htimed herror

theorem run_complete_going (input_count : Nat) :
    Triple (Going limits false) (run_complete p limits input_count) (fun _ => Going limits true)
      (HaltedAny limits) := by
  have hany : ∀ done stop (run : Run σ), Halted limits done stop run → HaltedAny limits stop run :=
    fun done _ _ h => ⟨done, h⟩
  have hcheck : Triple (Going limits false) (Budget.check p limits)
      (fun _ => Going limits false) (HaltedAny limits) :=
    check_keeps.conseq (fun _ h => h) (fun _ _ h => h) (hany false)
  unfold run_complete
  apply Triple.bind hcheck
  intro _
  apply Triple.bind ((call_going (fun _ => ⟨rfl, rfl, rfl, rfl⟩) (fun _ => rfl) (fun _ => rfl)
    rfl).conseq (fun _ h => h) (fun _ _ h => h) (hany false))
  intro checked
  apply Triple.bind ((after_keeps _).conseq (fun _ h => h) (fun _ _ h => h) (hany false))
  intro summary
  apply Triple.bind (Q := fun _ => Going limits false)
  · cases summary.validate input_count with
    | ok _ =>
      apply Triple.pure
      exact fun run hrun => hrun
    | error failure =>
      apply Triple.stop
      exact fun run hrun => ⟨false, hrun⟩
  intro _
  apply Triple.bind hcheck
  intro _
  -- the trace has the answer before the guard has it
  apply Triple.bind (Q := fun completed run => Going limits completed.isOk
    { run with source_complete := completed.isOk })
  · apply call_spec
    · exact fun run world result hrun => hrun.completes result world
    · exact fun run world hrun => ⟨false, hrun.unwinds ⟨rfl, rfl, rfl, rfl⟩ rfl world⟩
  intro completed
  apply Triple.modify_bind (M := Going limits completed.isOk)
  · exact fun run hrun => hrun
  cases completed with
  | error error =>
    apply Triple.bind (Q := fun _ _ => False)
    · apply Triple.bind (Q := fun _ => Going limits false)
      · exact (fail_going _).conseq (fun _ h => h.1) (fun _ _ h => h) (hany false)
      · intro first
        apply Triple.stop
        exact fun run hrun => ⟨false, hrun⟩
    · exact fun _ _ hrun => hrun.elim
  | ok count =>
    apply Triple.bind ((after_keeps _).conseq (fun _ h => h) (fun _ _ h => h) (hany true))
    intro count
    split
    · apply Triple.stop
      exact fun run hrun => ⟨true, hrun⟩
    · apply Triple.pure
      exact fun run hrun => hrun

end

end openwrt_mcp_runtime.sealing
