-- The invariant rule of the sealer: what every call of a port keeps, of the world of the ports and
-- the trace so far, holds at the end of every run. A run has three phases, and the invariant may
-- differ: the cipher runs, then all is closed and published, and at the end the guard cleans up.
import OpenwrtMcp.Sealing

open programs

namespace openwrt_mcp_runtime.sealing

section
variable {σ α : Type}

/-- A call keeps the relation between the world and the trace. -/
def CallKeeps (I : σ → Trace → Prop) (port : σ → Reply α × σ) (event : Reply α → Event) : Prop :=
  ∀ world trace, I world trace → I (port world).2 (trace ++ [event (port world).1])

/-- The clock is read, and failures are recorded. -/
structure Budgeted (p : Ports σ) (I : σ → Trace → Prop) : Prop where
  now_ms : CallKeeps I p.now_ms .Now
  recorded : ∀ failure world trace, I world trace → I world (trace ++ [.Recorded failure])

/-- The cipher runs. -/
structure Streaming (p : Ports σ) (I : σ → Trace → Prop) : Prop extends Budgeted p I where
  capabilities : CallKeeps I p.capabilities .Capabilities
  read : ∀ output, CallKeeps I (p.read output) (read_event output)
  feed : ∀ bytes, CallKeeps I (p.feed bytes) (.Feed bytes)
  write : ∀ input, CallKeeps I (p.write input) (.Write input)
  flush : CallKeeps I p.flush .Flush
  cipher_step : ∀ world trace, I world trace → I (p.cipher_step world).2 trace
  cipher_told : ∀ answer world trace, I world trace → I (p.cipher_told answer world) trace
  asked : ∀ input world trace, I world trace → I world (trace ++ [.Asked input])
  returned : ∀ bytes world trace, I world trace → I world (trace ++ [.Returned bytes])

/-- The cipher has returned. -/
structure Closing (p : Ports σ) (I : σ → Trace → Prop) : Prop extends Budgeted p I where
  finish : CallKeeps I p.finish .Finish
  complete : CallKeeps I p.complete .Complete
  flush : CallKeeps I p.flush .Flush
  publish : ∀ counts, CallKeeps I (p.publish counts) (.Publish counts)

/-- The guard cleans up. -/
structure Cleaning (p : Ports σ) (I : σ → Trace → Prop) : Prop where
  cancel : CallKeeps I p.cancel .Cancel
  abort : CallKeeps I p.abort .Abort

/-- The three phases of a run, each with its invariant. -/
structure Phases (p : Ports σ) (I J K : σ → Trace → Prop) : Prop where
  streaming : Streaming p I
  closing : Closing p J
  cleaning : Cleaning p K
  encrypted : ∀ result world trace, I world trace → J world (trace ++ [.Encrypted result])
  unwound : ∀ world trace, I world trace → K world (trace ++ [.EncryptUnwound])
  stopped : ∀ world trace, I world trace → K world trace
  closed : ∀ world trace, J world trace → K world trace

/-- The program keeps it, however it ends. -/
abbrev Stable (I : σ → Trace → Prop) (x : Seal σ α) : Prop :=
  Triple (fun run => I run.world run.trace) x (fun _ run => I run.world run.trace)
    (fun _ run => I run.world run.trace)

variable {p : Ports σ} {I J K : σ → Trace → Prop} {limits : SealLimits}

theorem call_stable {port : σ → Reply α × σ} {event : Reply α → Event}
    (h : CallKeeps I port event) : Stable I (call port event) := by
  intro run hrun
  have hkept := h run.world run.trace hrun
  unfold call
  cases hp : port run.world with
  | mk reply world =>
    rw [hp] at hkept
    cases reply with
    | ret value => exact hkept
    | unwind => exact hkept

theorem attempt_stable {x : Seal σ α} (hx : Stable I x) : Stable I (attempt x) := by
  apply Triple.attempt
  apply hx.conseq (fun _ h => h) (fun _ _ h => h)
  intro stop run hrun
  cases stop with
  | fail failure => exact hrun
  | unwind => exact hrun
  | running => exact hrun

theorem pure_stable (a : α) : Stable I (Pure.pure a : Seal σ α) :=
  Triple.pure fun _ hrun => hrun

theorem stop_stable (stop : Stop) : Stable I (Prog.stop stop : Seal σ α) :=
  Triple.stop fun _ hrun => hrun

theorem get_stable : Stable I (Prog.get : Seal σ (Run σ)) := fun _ hrun => hrun

/-- A change of the counts, the budget or the guard. -/
theorem modify_then {f : Run σ → Run σ} {x : Unit → Seal σ α}
    (hf : ∀ run, I run.world run.trace → I (f run).world (f run).trace) (hx : Stable I (x ())) :
    Stable I (Prog.modify f >>= x) := Triple.modify_bind hf hx

/-! ## The programs of the sealer -/

theorem fail_stable (hI : Budgeted p I) (failure : SealFailure) :
    Stable I (Budget.fail failure : Seal σ SealFailure) := by
  unfold Budget.fail
  apply Triple.bind get_stable
  intro run
  refine modify_then (fun _ hrun => hrun) ?_
  apply Triple.bind (show Stable I (record (.Recorded failure)) from
    fun run hrun => hI.recorded failure run.world run.trace hrun)
  intro _
  exact pure_stable _

theorem fail_stop_stable (hI : Budgeted p I) (failure : SealFailure) :
    Stable I (do
      let error ← Budget.fail failure
      Prog.stop (.fail error) : Seal σ α) := by
  apply Triple.bind (fail_stable hI failure)
  exact fun error => stop_stable _

theorem check_stable (hI : Budgeted p I) : Stable I (Budget.check p limits) := by
  unfold Budget.check
  apply Triple.bind get_stable
  intro run
  split
  · exact stop_stable _
  apply Triple.bind (call_stable hI.now_ms)
  intro now
  split
  · exact fail_stop_stable hI _
  refine modify_then (fun _ hrun => hrun) ?_
  split
  · exact fail_stop_stable hI _
  · exact pure_stable _

theorem after_stable (hI : Budgeted p I) (result : Except SealFailure α) :
    Stable I (Budget.after p limits result) := by
  cases result with
  | error failure => exact fail_stop_stable hI _
  | ok value =>
    apply Triple.bind (check_stable hI)
    exact fun _ => pure_stable _

theorem fail_read_stable (hI : Budgeted p I) (output : Bytes) (failure : SealFailure) :
    Stable I (fail_read output failure : Seal σ _) := by
  apply Triple.bind (fail_stable hI failure)
  exact fun _ => pure_stable _

theorem fail_write_stable (hI : Budgeted p I) (failure : SealFailure) :
    Stable I (fail_write failure : Seal σ _) := by
  apply Triple.bind (fail_stable hI failure)
  exact fun _ => pure_stable _

theorem probe_stable (hI : Streaming p I) (output : Bytes) :
    Stable I (CheckedRead.probe p limits output) := by
  unfold CheckedRead.probe
  apply Triple.bind (call_stable (hI.read _))
  intro reply
  apply Triple.bind (attempt_stable (after_stable hI.toBudgeted _))
  intro result
  cases result with
  | error failure => exact pure_stable _
  | ok count =>
    dsimp only
    split
    · exact fail_read_stable hI.toBudgeted _ _
    split
    · exact fail_read_stable hI.toBudgeted _ _
    exact modify_then (fun _ hrun => hrun) (pure_stable _)

theorem take_stable (hI : Streaming p I) (output rest : Bytes) :
    Stable I (CheckedRead.take p limits output rest) := by
  unfold CheckedRead.take
  apply Triple.bind (call_stable (hI.read _))
  intro reply
  apply Triple.bind (attempt_stable (after_stable hI.toBudgeted _))
  intro result
  cases result with
  | error failure => exact fail_read_stable hI.toBudgeted _ _
  | ok count =>
    dsimp only
    split
    · exact fail_read_stable hI.toBudgeted _ _
    split
    · exact modify_then (fun _ hrun => hrun) (pure_stable _)
    apply Triple.bind get_stable
    intro run
    split
    · apply Triple.bind (call_stable (hI.feed _))
      intro checked
      apply Triple.bind (attempt_stable (after_stable hI.toBudgeted _))
      intro fed
      cases fed with
      | error failure => exact pure_stable _
      | ok _ =>
        exact modify_then (fun _ hrun => hrun) (pure_stable _)
    · exact fail_read_stable hI.toBudgeted _ _

theorem read_stable (hI : Streaming p I) (output : Bytes) :
    Stable I (CheckedRead.read p limits output) := by
  unfold CheckedRead.read
  apply Triple.bind (attempt_stable (check_stable hI.toBudgeted))
  intro result
  cases result with
  | error failure => exact pure_stable _
  | ok _ =>
    apply Triple.bind get_stable
    intro run
    dsimp only
    split
    · exact pure_stable _
    split
    · exact probe_stable hI _
    · exact take_stable hI _ _

theorem put_stable (hI : Streaming p I) (input : Bytes) :
    Stable I (CountedWrite.put p limits input) := by
  unfold CountedWrite.put
  apply Triple.bind (call_stable (hI.write _))
  intro written
  apply Triple.bind (attempt_stable (after_stable hI.toBudgeted _))
  intro result
  cases result with
  | error failure => exact pure_stable _
  | ok count =>
    dsimp only
    split
    · exact fail_write_stable hI.toBudgeted _
    split
    · exact fail_write_stable hI.toBudgeted _
    apply Triple.bind get_stable
    intro run
    split
    · exact modify_then (fun _ hrun => hrun) (pure_stable _)
    · exact fail_write_stable hI.toBudgeted _

theorem write_stable (hI : Streaming p I) (input : Bytes) :
    Stable I (CountedWrite.write p limits input) := by
  unfold CountedWrite.write
  apply Triple.bind (attempt_stable (check_stable hI.toBudgeted))
  intro result
  cases result with
  | error failure => exact pure_stable _
  | ok _ =>
    apply Triple.bind get_stable
    intro run
    dsimp only
    split
    · exact pure_stable _
    split
    · exact fail_write_stable hI.toBudgeted _
    · exact put_stable hI _

theorem flush_stable (hI : Streaming p I) : Stable I (CountedWrite.flush p limits) := by
  unfold CountedWrite.flush
  apply Triple.bind (attempt_stable (check_stable hI.toBudgeted))
  intro result
  cases result with
  | error failure => exact pure_stable _
  | ok _ =>
    apply Triple.bind (call_stable hI.flush)
    intro flushed
    apply Triple.bind (attempt_stable (after_stable hI.toBudgeted _))
    intro result
    cases result with
    | error failure => exact pure_stable _
    | ok _ => exact pure_stable _

theorem encrypt_phases (h : Phases p I J K) (steps : Nat) :
    Triple (fun run => I run.world run.trace) (encrypt p limits steps)
      (fun _ run => J run.world run.trace) (fun _ run => K run.world run.trace) := by
  have hI := h.streaming
  have hstop : ∀ {α : Type} {x : Seal σ α}, Stable I x →
      Triple (fun run => I run.world run.trace) x (fun _ run => I run.world run.trace)
        (fun _ run => K run.world run.trace) := by
    intro α x hx
    exact hx.conseq (fun _ h => h) (fun _ _ h => h) fun _ _ hrun => h.stopped _ _ hrun
  induction steps with
  | zero =>
    apply Triple.stop
    exact fun run hrun => h.stopped _ _ hrun
  | succ steps ih =>
    have htell : ∀ answer, Stable I (CipherAnswer.tell p answer) :=
      fun answer run hrun => hI.cipher_told answer run.world run.trace hrun
    have hnext : Stable I (CipherStep.next p) :=
      fun run hrun => hI.cipher_step run.world run.trace hrun
    unfold encrypt
    apply Triple.bind (hstop hnext)
    intro step
    cases step with
    | Read output =>
      apply Triple.bind (hstop (read_stable hI output))
      intro r
      apply Triple.bind (hstop (show Stable I (record (.Returned (given r.1 r.2))) from
        fun run hrun => hI.returned _ run.world run.trace hrun))
      intro _
      apply Triple.bind (hstop (htell _))
      exact fun _ => ih
    | Write input =>
      apply Triple.bind (hstop (show Stable I (record (.Asked input)) from
        fun run hrun => hI.asked _ run.world run.trace hrun))
      intro _
      apply Triple.bind (hstop (write_stable hI input))
      intro result
      apply Triple.bind (hstop (htell _))
      exact fun _ => ih
    | Flush =>
      apply Triple.bind (hstop (flush_stable hI))
      intro result
      apply Triple.bind (hstop (htell _))
      exact fun _ => ih
    | Return result =>
      apply Triple.bind (Q := fun _ run => J run.world run.trace)
      · exact fun run hrun => h.encrypted result run.world run.trace hrun
      intro _
      apply Triple.pure
      exact fun run hrun => hrun
    | Unwind =>
      apply Triple.bind (Q := fun _ run => K run.world run.trace)
      · exact fun run hrun => h.unwound run.world run.trace hrun
      intro _
      apply Triple.stop
      exact fun run hrun => hrun

/-- The run up to the call of the cipher. -/
theorem run_capabilities_stable (hI : Streaming p I) : Stable I (run_capabilities p limits) := by
  unfold run_capabilities
  apply Triple.bind (check_stable hI.toBudgeted)
  intro _
  apply Triple.bind (call_stable hI.capabilities)
  intro caps
  apply Triple.bind (check_stable hI.toBudgeted)
  intro _
  split
  · exact stop_stable _
  · exact check_stable hI.toBudgeted

theorem run_complete_stable (hJ : Closing p J) (input_count : Nat) :
    Stable J (run_complete p limits input_count) := by
  unfold run_complete
  apply Triple.bind (check_stable hJ.toBudgeted)
  intro _
  apply Triple.bind (call_stable hJ.finish)
  intro checked
  apply Triple.bind (after_stable hJ.toBudgeted _)
  intro summary
  apply Triple.bind (Q := fun _ run => J run.world run.trace)
  · cases summary.validate input_count with
    | ok _ => exact pure_stable _
    | error failure => exact stop_stable _
  intro _
  apply Triple.bind (check_stable hJ.toBudgeted)
  intro _
  apply Triple.bind (call_stable hJ.complete)
  intro completed
  refine modify_then (fun _ hrun => hrun) ?_
  apply Triple.bind (after_stable hJ.toBudgeted _)
  intro count
  split
  · exact stop_stable _
  · exact pure_stable _

theorem run_publish_stable (hJ : Closing p J) (counts : SealedCounts) :
    Stable J (run_publish p limits counts) := by
  unfold run_publish
  apply Triple.bind (check_stable hJ.toBudgeted)
  intro _
  apply Triple.bind (call_stable hJ.flush)
  intro flushed
  apply Triple.bind (after_stable hJ.toBudgeted _)
  intro _
  apply Triple.bind (check_stable hJ.toBudgeted)
  intro _
  refine modify_then (fun _ hrun => hrun) ?_
  apply Triple.bind (call_stable (hJ.publish _))
  intro outcome
  refine modify_then (fun _ hrun => hrun) ?_
  apply Triple.bind (check_stable hJ.toBudgeted)
  intro _
  split
  · exact stop_stable _
  · exact pure_stable _

theorem run_phases (h : Phases p I J K) (steps : Nat) :
    Triple (fun run => I run.world run.trace) (ArchiveSealer.run p limits steps)
      (fun _ run => K run.world run.trace) (fun _ run => K run.world run.trace) := by
  have hJ := h.closing
  have hclosed : ∀ {α : Type} {x : Seal σ α}, Stable J x →
      Triple (fun run => J run.world run.trace) x (fun _ run => J run.world run.trace)
        (fun _ run => K run.world run.trace) := by
    intro α x hx
    exact hx.conseq (fun _ h => h) (fun _ _ h => h) fun _ _ hrun => h.closed _ _ hrun
  unfold ArchiveSealer.run
  apply Triple.bind ((run_capabilities_stable h.streaming).conseq (fun _ h => h) (fun _ _ h => h)
    fun _ _ hrun => h.stopped _ _ hrun)
  intro _
  apply Triple.bind (Q := fun _ run => J run.world run.trace)
  · unfold run_encrypt
    apply Triple.bind (encrypt_phases h steps)
    intro encrypted
    apply Triple.bind (hclosed (after_stable hJ.toBudgeted _))
    intro reported
    apply Triple.bind (hclosed get_stable)
    intro run
    split
    · exact hclosed (stop_stable _)
    split
    · exact hclosed (stop_stable _)
    split
    · exact hclosed (stop_stable _)
    · exact hclosed (pure_stable _)
  intro counts
  apply Triple.bind (hclosed (run_complete_stable hJ _))
  intro summary
  exact (run_publish_stable hJ _).conseq (fun _ h => h) (fun _ _ hrun => h.closed _ _ hrun)
    fun _ _ hrun => h.closed _ _ hrun

theorem cleanup_stable (hK : Cleaning p K) : Stable K (Guard.cleanup p) := by
  apply Triple.bind (Q := fun _ run => K run.world run.trace)
  · unfold Guard.cancel_source
    apply Triple.bind get_stable
    intro run
    split
    · refine modify_then (fun _ hrun => hrun) ?_
      apply Triple.bind (call_stable hK.cancel)
      exact fun _ _ hrun => hrun
    · exact pure_stable _
  intro _
  unfold Guard.abort_stage
  apply Triple.bind get_stable
  intro run
  split
  · refine modify_then (fun _ hrun => hrun) ?_
    apply Triple.bind (call_stable hK.abort)
    exact fun _ _ hrun => hrun
  · exact pure_stable _

theorem sealed_phases (h : Phases p I J K) (steps : Nat) :
    Triple (fun run => I run.world run.trace) (sealed p limits steps)
      (fun _ run => K run.world run.trace) (fun _ run => K run.world run.trace) := by
  unfold sealed
  apply Triple.bind (Q := fun _ run => I run.world run.trace)
  · apply Triple.bind ((call_stable h.streaming.now_ms).conseq (fun _ h => h) (fun _ _ h => h)
      fun _ _ hrun => h.stopped _ _ hrun)
    exact fun _ _ hrun => hrun
  intro _
  apply Triple.bind (Q := fun _ run => K run.world run.trace)
  · apply Triple.attempt
    apply (run_phases h steps).conseq (fun _ h => h) (fun _ _ h => h)
    intro stop run hrun
    cases stop with
    | fail failure => exact hrun
    | unwind => exact hrun
    | running => exact hrun
  intro r
  cases r with
  | ok counts => exact pure_stable _
  | error cause =>
    apply Triple.bind (cleanup_stable h.cleaning)
    intro _
    apply Triple.bind get_stable
    exact fun _ => pure_stable _

end

/-- The invariant of the last phase at the end of every run. -/
theorem Phases.holds {σ : Type} {p : Ports σ} {I J K : σ → Trace → Prop} (h : Phases p I J K)
    (sealer : ArchiveSealer) (steps : Nat) {world : σ} (hstart : I world []) :
    K (sealer.seal_with_clock p steps world).2.world
      (sealer.seal_with_clock p steps world).2.trace := by
  have hspec : Triple (fun run => I run.world run.trace) (sealed p sealer.limits steps)
      (fun _ run => K run.world run.trace) (fun _ run => K run.world run.trace) :=
    sealed_phases h steps
  have hsealed := hspec (Run.new world) hstart
  have hcleanup : ∀ run : Run σ, K run.world run.trace →
      K (Guard.cleanup p run).2.world (Guard.cleanup p run).2.trace :=
    fun run => (cleanup_stable h.cleaning).after
  unfold ArchiveSealer.seal_with_clock
  split
  · rename_i result run hrun
    rw [hrun] at hsealed
    have := hcleanup run hsealed
    split <;> rename_i hclean <;> rw [hclean] at this <;> exact this
  · rename_i run hrun
    rw [hrun] at hsealed
    exact hsealed
  · rename_i stop run _ hrun
    rw [hrun] at hsealed
    have := hcleanup run hsealed
    split <;> rename_i hclean <;> rw [hclean] at this <;> exact this

end openwrt_mcp_runtime.sealing
