-- The run of the sealer from its first check to the end of the guard: at the call of
-- `publish` everything is ready, and there is no second call.
import OpenwrtMcp.SealLaws

open programs

namespace openwrt_mcp_runtime.sealing

section
variable {σ α : Type} {p : Ports σ} {limits : SealLimits} {g g' : Progress} {run : Run σ}

/-! ## The cipher -/

theorem Open.world {done : List Event} (h : Open limits done run) (world : σ) :
    Open limits done { run with world := world } := by
  rcases h with h | h
  · exact .inl { h with }
  · exact .inr { h with }

theorem cipher_step_spec (done : List Event) :
    Triple (Open limits done) (CipherStep.next p) (fun _ => Open limits done) Stopped :=
  fun run hrun => hrun.world (p.cipher_step run.world).2

theorem tell_spec (answer : CipherAnswer) (done : List Event) :
    Triple (Open limits done) (CipherAnswer.tell p answer) (fun _ => Open limits done) Stopped :=
  fun run hrun => hrun.world (p.cipher_told answer run.world)

theorem asked_spec (input : Bytes) (done : List Event) :
    Triple (Open limits done) (record (.Asked input) : Seal σ Unit) (fun _ => Open limits done)
      Stopped := by
  apply Triple.modify
  intro run hrun
  rcases hrun with h | h
  · exact .inl ⟨h.error, h.unpublished.snoc rfl⟩
  · exact .inr (h.step (.quiet ⟨rfl, rfl, rfl, rfl, rfl, rfl, rfl, rfl⟩ (.inl rfl) rfl) run.world)

/-- The cipher has the bytes of its read. -/
theorem returned_spec (r : Bytes × Except SealPortError Nat) (done : List Event) :
    Triple (Reads limits done r) (record (.Returned (given r.1 r.2)) : Seal σ Unit)
      (fun _ => Open limits done) Stopped := by
  apply Triple.modify
  intro run hrun
  rcases hrun with h | h
  · exact .inl ⟨h.error, h.unpublished.snoc rfl⟩
  · apply Or.inr
    apply h.step (e := .Returned (given r.1 r.2)) _ run.world
    refine ⟨rfl, rfl, rfl, .inl rfl, rfl, ⟨rfl, rfl⟩, rfl, ?_, rfl, rfl, ?_⟩
    · simp [Event.accepted, Event.returned]
    · exact fun heof => .inl ⟨rfl, rfl, heof⟩

/-- Whatever the cipher does in its steps, the run is clean when it has a result and no
failure is recorded. -/
theorem encrypt_spec (steps : Nat) (done : List Event) :
    Triple (Open limits done) (encrypt p limits steps)
      (Answered limits fun counts => { done := done ++ [.Encrypted (.ok counts)] }) Stopped := by
  induction steps with
  | zero =>
    apply Triple.stop
    intro run hrun
    rcases hrun with h | h
    · exact h.unpublished
    · exact h.unpublished
  | succ steps ih =>
    unfold encrypt
    apply Triple.bind (cipher_step_spec done)
    intro step
    cases step with
    | Read output =>
      apply Triple.bind (read_spec output done)
      intro r
      apply Triple.bind (returned_spec r done)
      intro _
      apply Triple.bind (tell_spec _ done)
      exact fun _ => ih
    | Write input =>
      apply Triple.bind (asked_spec input done)
      intro _
      apply Triple.bind (write_spec input done)
      intro result
      apply Triple.bind (tell_spec _ done)
      exact fun _ => ih
    | Flush =>
      apply Triple.bind (flush_spec done)
      intro result
      apply Triple.bind (tell_spec _ done)
      exact fun _ => ih
    | Return result =>
      apply Triple.bind (Q := fun _ => Answered limits
        (fun counts => { done := done ++ [.Encrypted (.ok counts)] }) result)
      · apply Triple.modify
        intro run hrun
        cases result with
        | error e =>
          rcases hrun with h | h
          · exact h.unpublished.snoc rfl
          · exact h.unpublished.snoc rfl
        | ok counts =>
          rcases hrun with h | h
          · exact .inl ⟨h.error, h.unpublished.snoc rfl⟩
          · exact .inr (h.step (.quiet ⟨rfl, rfl, rfl, rfl, rfl, rfl, rfl, rfl⟩ (.inr rfl) rfl)
              run.world)
      · intro _
        apply Triple.pure
        exact fun run hrun => hrun
    | Unwind =>
      apply Triple.modify_bind (M := fun run => Trace.Unpublished run.trace)
      · intro run hrun
        rcases hrun with h | h
        · exact h.unpublished.snoc rfl
        · exact h.unpublished.snoc rfl
      · apply Triple.stop
        exact fun run hrun => hrun

/-! ## The run up to the publication -/

/-- The state in which the run stops before the publication. -/
def NotAsked (_ : Stop) (run : Run σ) : Prop := Trace.Unpublished run.trace

theorem Stopped.notAsked {stop : Stop} (h : Stopped stop run) : NotAsked stop run := by
  cases stop with
  | fail failure => exact h.unpublished
  | unwind => exact h
  | running => exact h

/-- A check in the run: a failure stops the run. -/
theorem check_run_spec (g : Progress) :
    Triple (Clean limits g) (Budget.check p limits) (fun _ => Clean limits g) NotAsked :=
  (check_spec g).conseq (fun _ h => .inr h) (fun _ _ h => h) fun _ _ => Stopped.notAsked

theorem after_run_spec (g : α → Progress) (failure : SealFailure)
    (result : Except SealPortError α) :
    Triple (Answered limits g result) (Budget.after p limits (map_err failure result))
      (fun value run => result = .ok value ∧ Clean limits (g value) run) NotAsked :=
  (after_spec g failure result).conseq (fun _ h => h) (fun _ _ h => h) fun _ _ => Stopped.notAsked

/-- A step of the run: a port is called. -/
theorem step_run_spec {port : σ → Reply (Except SealPortError α) × σ}
    (event : Reply (Except SealPortError α) → Event)
    (hquiet : ∀ value, (event (.ret (.ok value))).Quiet)
    (hpub : ∀ reply, (event reply).is_publish = false) :
    Triple (Clean limits g) (call port event)
      (Answered limits fun value => { g with done := g.done ++ [event (.ret (.ok value))] })
      NotAsked := by
  refine (call_result_spec (fun value => { g with done := g.done ++ [event (.ret (.ok value))] })
    (fun run hrun => hrun) ?_ hpub).conseq (fun _ h => h) (fun _ _ h => h)
    fun _ _ => Stopped.notAsked
  exact fun run value _ => .quiet (hquiet value) (.inr rfl) rfl

/-- The stage declared all it must. -/
def Declared (caps : StageCapabilities) : Prop :=
  caps.private_staging = true ∧ caps.atomic_publication = true ∧ caps.durability = true

theorem run_capabilities_spec :
    Triple (Clean limits { done := [] }) (run_capabilities p limits)
      (fun _ run => ∃ caps, Declared caps ∧
        Clean limits { done := [.Capabilities (.ret caps)] } run) NotAsked := by
  unfold run_capabilities
  apply Triple.bind (check_run_spec _)
  intro _
  apply Triple.bind (Q := fun caps => Clean limits { done := [.Capabilities (.ret caps)] })
  · apply call_spec
    · intro run world caps hrun
      exact hrun.step (.quiet ⟨rfl, rfl, rfl, rfl, rfl, rfl, rfl, rfl⟩ (.inr rfl) rfl) world
    · intro run world hrun
      exact hrun.unpublished.snoc rfl
  intro caps
  apply Triple.bind (check_run_spec _)
  intro _
  split
  · apply Triple.stop
    exact fun run hrun => hrun.unpublished
  · rename_i hall
    have hdeclared : Declared caps := by
      unfold Declared
      simp only [StageCapabilities.all, Bool.not_eq_true', Bool.not_eq_false, Bool.and_eq_true]
        at hall
      exact ⟨hall.1.1, hall.1.2, hall.2⟩
    refine (check_run_spec _).conseq (fun _ h => h) ?_ (fun _ _ h => h)
    exact fun _ run hrun => ⟨caps, hdeclared, hrun⟩

/-- The guard notes that the source has completed. -/
theorem Answered.source_complete {g : α → Progress} {result : Except SealPortError α}
    (h : Answered limits g result run) (b : Bool) :
    Answered limits g result { run with source_complete := b } := by
  cases result with
  | error e => exact h
  | ok value =>
    rcases h with h | h
    · exact .inl { h with }
    · exact .inr { h with }

/-- The counts are final. -/
theorem Clean.fix {done : List Event} (h : Clean limits { done := done } run)
    (heof : run.eof = true) :
    Clean limits { done := done, counts := some (run.input_count, run.output_count) } run :=
  { h with
    counts := by
      rintro c ⟨⟩
      exact ⟨rfl, rfl, heof⟩ }

theorem run_encrypt_spec (steps : Nat) (done : List Event) :
    Triple (Clean limits { done := done }) (run_encrypt p limits steps)
      (fun counts run => 0 < counts.1 ∧ 0 < counts.2 ∧ Clean limits {
        done := done ++ [.Encrypted (.ok ⟨counts.1, counts.2⟩)], counts := some counts } run)
      NotAsked := by
  unfold run_encrypt
  apply Triple.bind ((encrypt_spec steps done).conseq (fun _ h => .inr h) (fun _ _ h => h)
    fun _ _ => Stopped.notAsked)
  intro encrypted
  apply Triple.bind (after_run_spec _ .Cipher encrypted)
  intro reported
  apply Triple.get_bind
  rintro start ⟨-, hstart⟩
  split
  · apply Triple.stop
    rintro run rfl
    exact hstart.unpublished
  rename_i heof
  split
  · apply Triple.stop
    rintro run rfl
    exact hstart.unpublished
  rename_i hpos
  split
  · apply Triple.stop
    rintro run rfl
    exact hstart.unpublished
  rename_i hsame
  apply Triple.pure
  rintro run rfl
  obtain ⟨input_bytes, output_bytes⟩ := reported
  simp only [not_or, not_not] at hsame hpos
  obtain ⟨rfl, rfl⟩ := hsame
  exact ⟨by omega, by omega, hstart.fix (by simpa using heof)⟩

theorem run_complete_spec (input_count : Nat) :
    Triple (Clean limits g) (run_complete p limits input_count)
      (fun summary run => summary.source_bytes = input_count ∧ Clean limits { g with
        done := g.done ++ [.Finish (.ret (.ok summary))] ++
          [.Complete (.ret (.ok input_count))] } run)
      NotAsked := by
  unfold run_complete
  apply Triple.bind (check_run_spec _)
  intro _
  apply Triple.bind (step_run_spec .Finish
    (fun _ => ⟨rfl, rfl, rfl, rfl, rfl, rfl, rfl, rfl⟩) fun _ => rfl)
  intro checked
  apply Triple.bind (after_run_spec _ .Check checked)
  intro summary
  apply Triple.bind (Q := fun _ run => summary.source_bytes = input_count ∧
    Clean limits { g with done := g.done ++ [.Finish (.ret (.ok summary))] } run)
  · unfold CheckCounts.validate
    split
    · apply Triple.stop
      exact fun run hrun => hrun.2.unpublished
    · rename_i hsame
      split
      · apply Triple.stop
        exact fun run hrun => hrun.2.unpublished
      · apply Triple.pure
        exact fun run hrun => ⟨by simpa using hsame, hrun.2⟩
  intro _
  apply Triple.of_and
  intro hsource
  apply Triple.bind (check_run_spec _)
  intro _
  apply Triple.bind (step_run_spec .Complete
    (fun _ => ⟨rfl, rfl, rfl, rfl, rfl, rfl, rfl, rfl⟩) fun _ => rfl)
  intro completed
  apply Triple.modify_bind
  · exact fun run hrun => hrun.source_complete _
  apply Triple.bind (after_run_spec _ .SourceCompletion completed)
  intro count
  split
  · apply Triple.stop
    exact fun run hrun => hrun.2.unpublished
  · rename_i hsame
    obtain rfl : count = input_count := by simpa using hsame
    apply Triple.pure
    exact fun run hrun => ⟨hsource, hrun.2⟩

/-! ## The publication -/

/-- At the end of the steps before it, the publication is ready. -/
theorem Clean.ready {caps : StageCapabilities} {summary : CheckCounts} {n m : Nat}
    (hcaps : Declared caps) (hn : 0 < n) (hm : 0 < m) (hsource : summary.source_bytes = n)
    (h : Clean limits {
      done := [.Capabilities (.ret caps), .Encrypted (.ok ⟨n, m⟩), .Finish (.ret (.ok summary)),
        .Complete (.ret (.ok n)), .Flush (.ret (.ok ()))]
      counts := some (n, m) } run) :
    Ready limits ⟨n, m, summary.expanded_bytes, summary.payload_bytes, summary.files⟩
      run.trace := by
  obtain ⟨hin, hout, heof⟩ : run.input_count = n ∧ run.output_count = m ∧ run.eof = true :=
    h.counts (n, m) rfl
  have hret : Trace.returned run.trace = Trace.accepted run.trace := by simp [h.accepted]
  have hlen : (Trace.returned run.trace).length = n := by
    rw [hret, h.input_count, hin]
    rfl
  have hstored : (Trace.stored run.trace).length = m := by
    rw [h.output_count, hout]
    rfl
  refine ⟨⟨caps, summary, hcaps.1, hcaps.2.1, hcaps.2.2, ?_, ?_, ?_⟩, hret, ?_, ?_, ?_, ?_, ?_,
    h.no_failure, h.readings, ?_⟩
  · rw [hlen, hsource]
  · rw [hlen, hstored]
    exact h.done
  · rw [hlen, hstored]
  · have := h.eof (.inl heof)
    rwa [h.source, List.append_nil, ← hret] at this
  · rwa [hlen]
  · rw [hlen, ← hin]
    exact h.input_le
  · rwa [hstored]
  · rw [hstored, ← hout]
    exact h.output_le
  · intro start hs now hnow
    rw [h.start] at hs
    cases hs
    have := h.last now hnow
    have := h.deadline
    omega

theorem published_of_unpublished {t : Trace} (h : Trace.Unpublished t) : Published limits t := by
  rintro before counts reply after rfl
  have := h (.Publish counts reply) (by simp)
  cases this

theorem Published.snoc {t : Trace} {e : Event} (h : Published limits t)
    (he : e.is_publish = false) : Published limits (t ++ [e]) := by
  intro before counts reply after heq
  rcases List.eq_nil_or_concat after with rfl | ⟨after', e', rfl⟩
  · obtain ⟨-, h2⟩ := List.append_inj' heq rfl
    cases h2
    cases he
  · rw [List.concat_eq_append, ← List.cons_append, ← List.append_assoc] at heq
    obtain ⟨h1, h2⟩ := List.append_inj' heq rfl
    cases h2
    obtain ⟨h3, h4, h5⟩ := h before counts reply after' h1
    rw [List.concat_eq_append]
    exact ⟨h3, h4.snoc he, h5⟩

theorem published_publish {t : Trace} {counts : SealedCounts} (h : Trace.Unpublished t)
    (hready : Ready limits counts t) (reply : Reply PublishOutcome) :
    Published limits (t ++ [.Publish counts reply]) := by
  intro before counts' reply' after heq
  rcases List.eq_nil_or_concat after with rfl | ⟨after', e', rfl⟩
  · obtain ⟨rfl, h2⟩ := List.append_inj' heq rfl
    cases h2
    exact ⟨h, by simp [Trace.Unpublished], hready⟩
  · rw [List.concat_eq_append, ← List.cons_append, ← List.append_assoc] at heq
    obtain ⟨rfl, -⟩ := List.append_inj' heq rfl
    have := h (.Publish counts' reply') (by simp)
    cases this

/-- After the publication only the trace counts. -/
def Kept (limits : SealLimits) (run : Run σ) : Prop := Published limits run.trace

theorem call_kept {port : σ → Reply α × σ} {event : Reply α → Event}
    (hpub : ∀ reply, (event reply).is_publish = false) :
    Triple (Kept limits) (call port event) (fun _ => Kept limits) (fun _ => Kept limits) := by
  apply call_spec
  · exact fun run world value hrun => hrun.snoc (hpub _)
  · exact fun run world hrun => hrun.snoc (hpub _)

theorem fail_kept (failure : SealFailure) :
    Triple (Kept limits) (Budget.fail failure : Seal σ SealFailure) (fun _ => Kept limits)
      (fun _ => Kept limits) := fun _ hrun => hrun.snoc rfl

theorem check_kept : Triple (Kept limits) (Budget.check p limits) (fun _ => Kept limits)
    (fun _ => Kept limits) := by
  unfold Budget.check
  apply Triple.get_bind
  intro start hstart
  split
  · apply Triple.stop
    rintro run rfl
    exact hstart
  · apply Triple.bind ((call_kept fun _ => rfl).conseq (fun _ h => h ▸ hstart)
      (fun _ _ h => h) fun _ _ h => h)
    intro now
    split
    · apply Triple.bind (fail_kept _)
      intro _
      apply Triple.stop
      exact fun run hrun => hrun
    · apply Triple.modify_bind (M := Kept limits)
      · exact fun run hrun => hrun
      split
      · apply Triple.bind (fail_kept _)
        intro _
        apply Triple.stop
        exact fun run hrun => hrun
      · apply Triple.pure
        exact fun run hrun => hrun

theorem NotAsked.kept {stop : Stop} (h : NotAsked stop run) : Kept limits run :=
  published_of_unpublished h

theorem run_publish_spec {caps : StageCapabilities} {summary : CheckCounts} {n m : Nat}
    (hcaps : Declared caps) (hn : 0 < n) (hm : 0 < m) (hsource : summary.source_bytes = n) :
    Triple (Clean limits {
        done := [.Capabilities (.ret caps), .Encrypted (.ok ⟨n, m⟩), .Finish (.ret (.ok summary)),
          .Complete (.ret (.ok n))]
        counts := some (n, m) })
      (run_publish p limits
        ⟨n, m, summary.expanded_bytes, summary.payload_bytes, summary.files⟩)
      (fun _ => Kept limits) (fun _ => Kept limits) := by
  have hweak : ∀ stop run, NotAsked stop run → Kept (σ := σ) limits run :=
    fun _ _ => NotAsked.kept
  unfold run_publish
  apply Triple.bind ((check_run_spec _).conseq (fun _ h => h) (fun _ _ h => h) hweak)
  intro _
  apply Triple.bind ((step_run_spec .Flush
    (fun _ => ⟨rfl, rfl, rfl, rfl, rfl, rfl, rfl, rfl⟩) fun _ => rfl).conseq (fun _ h => h)
    (fun _ _ h => h) hweak)
  intro flushed
  apply Triple.bind ((after_run_spec _ .StageFlush flushed).conseq (fun _ h => h)
    (fun _ _ h => h.2) hweak)
  intro flush
  cases flush
  apply Triple.bind ((check_run_spec _).conseq (fun _ h => h) (fun _ _ h => h) hweak)
  intro _
  -- the guard is set before the call, and the call is the only one
  apply Triple.modify_bind (M := fun run => Trace.Unpublished run.trace ∧ Ready limits
    ⟨n, m, summary.expanded_bytes, summary.payload_bytes, summary.files⟩ run.trace)
  · intro run hrun
    have hready := Clean.ready hcaps hn hm hsource hrun
    exact ⟨hrun.unpublished, hready⟩
  apply Triple.bind (Q := fun _ => Kept limits)
  · apply call_spec
    · exact fun run world value hrun => published_publish hrun.1 hrun.2 _
    · exact fun run world hrun => published_publish hrun.1 hrun.2 _
  intro outcome
  apply Triple.modify_bind (M := Kept limits)
  · exact fun run hrun => hrun
  apply Triple.bind check_kept
  intro _
  split
  · apply Triple.stop
    exact fun run hrun => hrun
  · apply Triple.pure
    exact fun run hrun => hrun

theorem run_spec (steps : Nat) :
    Triple (Clean limits { done := [] }) (ArchiveSealer.run p limits steps) (fun _ => Kept limits)
      (fun _ => Kept limits) := by
  have hweak : ∀ stop run, NotAsked stop run → Kept (σ := σ) limits run :=
    fun _ _ => NotAsked.kept
  unfold ArchiveSealer.run
  apply Triple.bind (run_capabilities_spec.conseq (fun _ h => h) (fun _ _ h => h) hweak)
  intro _ run hrun
  obtain ⟨caps, hcaps, hrun⟩ := hrun
  revert run
  apply Triple.bind ((run_encrypt_spec steps _).conseq (fun _ h => h) (fun _ _ h => h) hweak)
  rintro ⟨n, m⟩
  apply Triple.of_and
  intro hn
  apply Triple.of_and
  intro hm
  apply Triple.bind ((run_complete_spec n).conseq (fun _ h => h) (fun _ _ h => h) hweak)
  intro summary
  apply Triple.of_and
  intro hsource
  exact run_publish_spec hcaps hn hm hsource

/-! ## The guard -/

theorem cancel_source_kept : Triple (Kept limits) (Guard.cancel_source p) (fun _ => Kept limits)
    (fun _ => Kept limits) := by
  unfold Guard.cancel_source
  apply Triple.get_bind
  intro start hstart
  split
  · apply Triple.modify_bind (M := Kept limits)
    · rintro run rfl
      exact hstart
    apply Triple.bind (call_kept fun _ => rfl)
    intro outcome
    apply Triple.modify
    exact fun run hrun => hrun
  · apply Triple.pure
    rintro run rfl
    exact hstart

theorem abort_stage_kept : Triple (Kept limits) (Guard.abort_stage p) (fun _ => Kept limits)
    (fun _ => Kept limits) := by
  unfold Guard.abort_stage
  apply Triple.get_bind
  intro start hstart
  split
  · apply Triple.modify_bind (M := Kept limits)
    · rintro run rfl
      exact hstart
    apply Triple.bind (call_kept fun _ => rfl)
    intro outcome
    apply Triple.modify
    exact fun run hrun => hrun
  · apply Triple.pure
    rintro run rfl
    exact hstart

theorem cleanup_kept : Triple (Kept limits) (Guard.cleanup p) (fun _ => Kept limits)
    (fun _ => Kept limits) := by
  apply Triple.bind cancel_source_kept
  intro _
  exact abort_stage_kept

/-- The budget starts with the first reading of the clock. -/
theorem budget_new_spec (hpos : 0 < limits.timeout_ms) (world : σ) :
    Triple (· = Run.new world) (Budget.new p) (fun _ => Clean limits { done := [] })
      (fun _ => Kept limits) := by
  apply Triple.bind (Q := fun now run => ∃ world,
    run = { Run.new world with trace := [.Now (.ret now)] })
  · apply call_spec
    · rintro run world' now rfl
      exact ⟨world', rfl⟩
    · rintro run world' rfl
      exact published_of_unpublished (by simp [Trace.Unpublished, Run.new, Event.is_publish])
  intro now
  apply Triple.modify
  rintro run ⟨world', rfl⟩
  constructor
  all_goals simp [Run.new, Trace.Unpublished, Trace.source_bytes, Trace.accepted, Trace.returned,
    Trace.stored, Trace.readings, Event.is_publish, Event.failed, Event.source_bytes,
    Event.accepted, Event.returned, Event.stored, Event.reading, Reply.came_back, hpos]

theorem sealed_kept (hpos : 0 < limits.timeout_ms) (steps : Nat) (world : σ) :
    Triple (· = Run.new world) (sealed p limits steps) (fun _ => Kept limits)
      (fun _ => Kept limits) := by
  unfold sealed
  apply Triple.bind (budget_new_spec hpos world)
  intro _
  apply Triple.bind (Q := fun _ => Kept limits)
  · apply Triple.attempt
    refine (run_spec steps).conseq (fun _ h => h) (fun _ _ h => h) ?_
    intro stop run hrun
    cases stop with
    | fail failure => exact hrun
    | unwind => exact hrun
    | running => exact hrun
  intro r
  cases r with
  | ok counts =>
    apply Triple.pure
    exact fun run hrun => hrun
  | error cause =>
    apply Triple.bind cleanup_kept
    intro _
    apply Triple.get_bind
    intro run hrun
    apply Triple.pure
    rintro _ rfl
    exact hrun

theorem ArchiveSealer.timeout_pos (sealer : ArchiveSealer) : 0 < sealer.limits.timeout_ms := by
  have hvalid := sealer.valid
  unfold SealLimits.validate at hvalid
  split at hvalid
  · cases hvalid
  · omega

theorem seal_kept (sealer : ArchiveSealer) (p : Ports σ) (steps : Nat) (world : σ) :
    Kept sealer.limits (sealer.seal_with_clock p steps world).2 := by
  have hsealed := sealed_kept (p := p) sealer.timeout_pos steps world (Run.new world) rfl
  have hcleanup : ∀ run, Kept sealer.limits run → Kept sealer.limits (Guard.cleanup p run).2 :=
    fun run => cleanup_kept.after
  unfold ArchiveSealer.seal_with_clock
  split
  · rename_i result run hrun
    rw [hrun] at hsealed
    have := hcleanup run hsealed
    split <;> rename_i hclean <;> rw [hclean] at this <;> exact this
  · rename_i run hrun
    rw [hrun] at hsealed
    exact hsealed
  · rename_i stop run _ hrun
    rw [hrun] at hsealed
    have := hcleanup run hsealed
    split <;> rename_i hclean <;> rw [hclean] at this <;> exact this

end

/-- The law of publication. -/
theorem publish_is_called_at_most_once_and_only_when_all_is_ready {σ : Type}
    (sealer : ArchiveSealer) (p : Ports σ) (steps : Nat) (world : σ) :
    Published sealer.limits (sealer.seal_with_clock p steps world).2.trace :=
  seal_kept sealer p steps world

def one_byte_limits : SealLimits := ⟨1, 1, 10⟩

/-- A source of one byte and a cipher that writes one byte for it. The world counts the steps
of the cipher and the reads of the source. -/
def one_byte_ports : Ports (Nat × Nat) where
  now_ms w := (.ret 5, w)
  read output w := (.ret ⟨output.map fun _ => 7, by simp, .ok (1 - w.2)⟩, (w.1, w.2 + 1))
  complete w := (.ret (.ok 1), w)
  cancel w := (.ret .Cleaned, w)
  feed _ w := (.ret (.ok ()), w)
  finish w := (.ret (.ok ⟨1, 1, 1, 1⟩), w)
  cipher_step w := ([.Read [0, 0], .Write [9], .Read [0]].getD w.1 (.Return (.ok ⟨1, 1⟩)),
    (w.1 + 1, w.2))
  cipher_told _ w := w
  capabilities w := (.ret ⟨true, true, true⟩, w)
  write input w := (.ret (.ok input.length), w)
  flush w := (.ret (.ok ()), w)
  publish _ w := (.ret .Published, w)
  abort w := (.ret .Cleaned, w)

/-- A run that publishes: the law says what was ready. -/
theorem a_stream_of_one_byte_is_ready : ∃ before counts reply after,
    (ArchiveSealer.seal_with_clock ⟨one_byte_limits, by decide⟩ one_byte_ports 10 (0, 0)).2.trace =
      before ++ .Publish counts reply :: after ∧ Ready one_byte_limits counts before := by
  have hlaw := publish_is_called_at_most_once_and_only_when_all_is_ready
    ⟨one_byte_limits, by decide⟩ one_byte_ports 10 (0, 0)
  have hany : (ArchiveSealer.seal_with_clock ⟨one_byte_limits, by decide⟩ one_byte_ports 10
      (0, 0)).2.trace.any Event.is_publish = true := by decide +kernel
  obtain ⟨e, he, hpub⟩ := List.any_eq_true.mp hany
  obtain ⟨before, after, htrace⟩ := List.append_of_mem he
  cases e with
  | Publish counts reply =>
    exact ⟨before, counts, reply, after, htrace, (hlaw before counts reply after htrace).2.2⟩
  | _ => cases hpub

end openwrt_mcp_runtime.sealing
