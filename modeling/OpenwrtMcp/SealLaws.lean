-- The law of publication: whatever the ports and the cipher do, the stage is asked to publish
-- at most once, and only what the checker took, all of it, within the limits and in time.
import OpenwrtMcp.Sealing

open programs

namespace openwrt_mcp_runtime.sealing

/-! ## What a trace says -/

/-- The call came back with a value that is no error. -/
def Reply.went_well {α : Type} : Reply (Except SealPortError α) → Bool
  | .ret (.ok _) => true
  | _ => false

def Reply.came_back {α : Type} : Reply α → Bool
  | .ret _ => true
  | .unwind => false

namespace Event

/-- The bytes that the source returned. -/
def source_bytes : Event → Bytes
  | .Read _ buffer (.ret (.ok count)) => buffer.take count
  | _ => []

/-- The bytes that the checker accepted. -/
def accepted : Event → Bytes
  | .Feed bytes (.ret (.ok ())) => bytes
  | _ => []

/-- The bytes that the cipher was given. -/
def returned : Event → Bytes
  | .Returned bytes => bytes
  | _ => []

/-- The bytes that the stage accepted. -/
def stored : Event → Bytes
  | .Write input (.ret (.ok count)) => input.take count
  | _ => []

/-- The readings of the clock. -/
def reading : Event → List Nat
  | .Now (.ret now) => [now]
  | _ => []

def is_read : Event → Bool
  | .Read .. => true
  | _ => false

def is_publish : Event → Bool
  | .Publish .. => true
  | _ => false

/-- A call that failed or unwound, or a failure that was recorded. -/
def failed : Event → Bool
  | .Now reply => !reply.came_back
  | .Read _ _ reply => !reply.went_well
  | .Complete reply => !reply.went_well
  | .Cancel _ => false
  | .Feed _ reply => !reply.went_well
  | .Finish reply => !reply.went_well
  | .Capabilities reply => !reply.came_back
  | .Write _ reply => !reply.went_well
  | .Flush reply => !reply.went_well
  | .Publish _ _ => false
  | .Abort _ => false
  | .Asked _ => false
  | .Returned _ => false
  | .Encrypted result => !result.isOk
  | .EncryptUnwound => true
  | .Recorded _ => true

/-- No call of a wrapper, no failure and no publication. -/
structure Quiet (e : Event) : Prop where
  unpublished : e.is_publish = false
  no_failure : e.failed = false
  no_reading : e.reading = []
  no_read : e.is_read = false
  no_source : e.source_bytes = []
  no_accepted : e.accepted = []
  no_returned : e.returned = []
  no_stored : e.stored = []

end Event

namespace Trace

def source_bytes (t : Trace) : Bytes := t.flatMap Event.source_bytes
def accepted (t : Trace) : Bytes := t.flatMap Event.accepted
def returned (t : Trace) : Bytes := t.flatMap Event.returned
def stored (t : Trace) : Bytes := t.flatMap Event.stored
def readings (t : Trace) : List Nat := t.flatMap Event.reading

/-- The stage was not asked to publish. -/
def Unpublished (t : Trace) : Prop := ∀ e ∈ t, e.is_publish = false

/-- The source returned `bytes`, and then no byte for a buffer with room. It was not read
again. -/
def EndOfInput (t : Trace) (bytes : Bytes) : Prop :=
  ∃ before size buffer after, t = before ++ .Read size buffer (.ret (.ok 0)) :: after ∧
    0 < size ∧ source_bytes before = bytes ∧ ∀ e ∈ after, e.is_read = false

end Trace

/-- The readings of the clock never go back and are before the deadline. -/
def InTime (timeout : Nat) (readings : List Nat) : Prop :=
  readings.Pairwise (· ≤ ·) ∧
    ∀ start ∈ readings.head?, ∀ now ∈ readings, now - start < timeout

/-- What must have happened before the stage is asked to publish `counts`. -/
structure Ready (limits : SealLimits) (counts : SealedCounts) (t : Trace) : Prop where
  /-- The steps of the run, in this order. -/
  steps : ∃ caps summary, caps.private_staging = true ∧ caps.atomic_publication = true ∧
    caps.durability = true ∧ summary.source_bytes = t.returned.length ∧
    List.Sublist [.Capabilities (.ret caps),
      .Encrypted (.ok ⟨t.returned.length, t.stored.length⟩), .Finish (.ret (.ok summary)),
      .Complete (.ret (.ok t.returned.length)), .Flush (.ret (.ok ()))] t ∧
    counts = ⟨t.returned.length, t.stored.length, summary.expanded_bytes, summary.payload_bytes,
      summary.files⟩
  checked : t.returned = t.accepted
  complete : t.EndOfInput t.returned
  source_pos : 0 < t.returned.length
  source_le : t.returned.length ≤ limits.source_bytes
  stored_pos : 0 < t.stored.length
  stored_le : t.stored.length ≤ limits.ciphertext_bytes
  no_failure : ∀ e ∈ t, e.failed = false
  in_time : InTime limits.timeout_ms t.readings

/-- The trace asks the stage to publish at most once, when all is ready. -/
def Published (limits : SealLimits) (t : Trace) : Prop :=
  ∀ before counts reply after, t = before ++ .Publish counts reply :: after →
    Trace.Unpublished before ∧ Trace.Unpublished after ∧ Ready limits counts before

/-! ## The invariant of a run -/

/-- How far a run is: the steps that are done, the counts once they are final, and what one
call has moved and the next has not. -/
structure Progress where
  done : List Event
  counts : Option (Nat × Nat) := none
  /-- The source returned these; the checker has not accepted them. -/
  unfed : Bytes := []
  /-- The checker accepted so many bytes that are not counted. -/
  uncounted : Nat := 0
  /-- The checker accepted these; the cipher was not given them. -/
  unreturned : Bytes := []
  /-- The stage accepted so many bytes that are not counted. -/
  unstored : Nat := 0
  /-- The last read had no byte. -/
  ended : Bool := false
  /-- A read of so many bytes, or a write, is below the limit. -/
  room : Nat := 0
  stage_room : Nat := 0

/-- No failure is recorded, and the counts agree with the trace. -/
structure Clean {σ : Type} (limits : SealLimits) (g : Progress) (run : Run σ) : Prop where
  error : run.error = none
  unpublished : Trace.Unpublished run.trace
  no_failure : ∀ e ∈ run.trace, e.failed = false
  done : g.done.Sublist run.trace
  counts : ∀ c ∈ g.counts, run.input_count = c.1 ∧ run.output_count = c.2 ∧ run.eof = true
  source : Trace.source_bytes run.trace = Trace.accepted run.trace ++ g.unfed
  accepted : Trace.accepted run.trace = Trace.returned run.trace ++ g.unreturned
  input_count : (Trace.accepted run.trace).length = run.input_count + g.uncounted
  input_le : run.input_count + g.room ≤ limits.source_bytes
  output_count : (Trace.stored run.trace).length = run.output_count + g.unstored
  output_le : run.output_count + g.stage_room ≤ limits.ciphertext_bytes
  eof : run.eof = true ∨ g.ended = true →
    Trace.EndOfInput run.trace (Trace.source_bytes run.trace)
  readings : (Trace.readings run.trace).Pairwise (· ≤ ·)
  start : (Trace.readings run.trace).head? = some run.start
  last : ∀ now ∈ Trace.readings run.trace, now ≤ run.last
  deadline : run.last - run.start < limits.timeout_ms

/-- A failure is recorded. -/
structure Broken {σ : Type} (run : Run σ) : Prop where
  error : run.error ≠ none
  unpublished : Trace.Unpublished run.trace

/-- The state in which a call of the budget or of a wrapper stops. -/
def Stopped {σ : Type} : Stop → Run σ → Prop
  | .fail _, run => Broken run
  | _, run => Trace.Unpublished run.trace

/-! ## One event more -/

/-- A place in the trace is the last one, or one before it. -/
theorem split_snoc {t before after : Trace} {e e' : Event} (h : t ++ [e'] = before ++ e :: after) :
    (before = t ∧ e = e' ∧ after = []) ∨
      ∃ rest, after = rest ++ [e'] ∧ t = before ++ e :: rest := by
  rcases List.eq_nil_or_concat after with rfl | ⟨rest, last, rfl⟩
  · obtain ⟨rfl, hlast⟩ := List.append_inj' h rfl
    cases hlast
    exact .inl ⟨rfl, rfl, rfl⟩
  · rw [List.concat_eq_append, ← List.cons_append, ← List.append_assoc] at h
    obtain ⟨rfl, hlast⟩ := List.append_inj' h rfl
    cases hlast
    exact .inr ⟨rest, List.concat_eq_append, rfl⟩

namespace Trace

variable (t : Trace) (e : Event)

@[simp] theorem source_bytes_snoc : source_bytes (t ++ [e]) = source_bytes t ++ e.source_bytes := by
  simp [source_bytes]

@[simp] theorem accepted_snoc : accepted (t ++ [e]) = accepted t ++ e.accepted := by
  simp [accepted]

@[simp] theorem returned_snoc : returned (t ++ [e]) = returned t ++ e.returned := by
  simp [returned]

@[simp] theorem stored_snoc : stored (t ++ [e]) = stored t ++ e.stored := by
  simp [stored]

@[simp] theorem readings_snoc : readings (t ++ [e]) = readings t ++ e.reading := by
  simp [readings]

variable {t e}

theorem Unpublished.snoc (h : Unpublished t) (he : e.is_publish = false) :
    Unpublished (t ++ [e]) := by
  intro e' he'
  rcases List.mem_append.mp he' with h1 | h1
  · exact h e' h1
  · rw [List.mem_singleton.mp h1]
    exact he

theorem EndOfInput.snoc {bytes : Bytes} (h : EndOfInput t bytes) (he : e.is_read = false) :
    EndOfInput (t ++ [e]) bytes := by
  obtain ⟨before, size, buffer, after, rfl, hpos, hbytes, hafter⟩ := h
  refine ⟨before, size, buffer, after ++ [e], by simp, hpos, hbytes, ?_⟩
  intro e' he'
  rcases List.mem_append.mp he' with h1 | h1
  · exact hafter e' h1
  · rw [List.mem_singleton.mp h1]
    exact he

theorem endOfInput_read {size : Nat} {buffer : Bytes} (hpos : 0 < size) :
    EndOfInput (t ++ [.Read size buffer (.ret (.ok 0))]) (source_bytes t) :=
  ⟨t, size, buffer, [], rfl, hpos, rfl, by simp⟩

end Trace

/-- What an event moves from one wrapper to the next. -/
structure Moves (eof : Bool) (e : Event) (g g' : Progress) : Prop where
  unpublished : e.is_publish = false
  no_failure : e.failed = false
  no_reading : e.reading = []
  done : g'.done = g.done ∨ g'.done = g.done ++ [e]
  counts : g'.counts = g.counts
  room : g'.room = g.room ∧ g'.stage_room = g.stage_room
  source : g.unfed ++ e.source_bytes = e.accepted ++ g'.unfed
  accepted : g.unreturned ++ e.accepted = e.returned ++ g'.unreturned
  uncounted : g.uncounted + e.accepted.length = g'.uncounted
  unstored : g.unstored + e.stored.length = g'.unstored
  eof : eof = true ∨ g'.ended = true →
    (e.is_read = false ∧ e.source_bytes = [] ∧ (eof = true ∨ g.ended = true)) ∨
      ∃ size buffer, 0 < size ∧ e = .Read size buffer (.ret (.ok 0))

section
variable {σ α : Type} {p : Ports σ} {limits : SealLimits} {g g' : Progress} {run : Run σ}

theorem Clean.step {e : Event} (h : Clean limits g run) (he : Moves run.eof e g g')
    (world : σ) : Clean limits g' { run with world := world, trace := run.trace ++ [e] } where
  error := h.error
  unpublished := h.unpublished.snoc he.unpublished
  no_failure := by
    intro e' he'
    rcases List.mem_append.mp he' with h1 | h1
    · exact h.no_failure e' h1
    · rw [List.mem_singleton.mp h1]
      exact he.no_failure
  done := by
    rcases he.done with hd | hd
    · rw [hd]
      exact h.done.trans (List.sublist_append_left ..)
    · rw [hd]
      exact h.done.append (List.Sublist.refl _)
  counts := by
    rw [he.counts]
    exact h.counts
  source := by
    rw [Trace.source_bytes_snoc, Trace.accepted_snoc, h.source, List.append_assoc, he.source,
      List.append_assoc]
  accepted := by
    rw [Trace.accepted_snoc, Trace.returned_snoc, h.accepted, List.append_assoc, he.accepted,
      List.append_assoc]
  input_count := by
    rw [Trace.accepted_snoc, List.length_append, h.input_count, ← he.uncounted, Nat.add_assoc]
  input_le := by
    rw [he.room.1]
    exact h.input_le
  output_count := by
    rw [Trace.stored_snoc, List.length_append, h.output_count, ← he.unstored, Nat.add_assoc]
  output_le := by
    rw [he.room.2]
    exact h.output_le
  eof := by
    intro hend
    rw [Trace.source_bytes_snoc]
    rcases he.eof hend with ⟨h1, h2, h3⟩ | ⟨size, buffer, hpos, rfl⟩
    · rw [h2, List.append_nil]
      exact (h.eof h3).snoc h1
    · simpa [Event.source_bytes] using Trace.endOfInput_read hpos
  readings := by
    rw [Trace.readings_snoc, he.no_reading, List.append_nil]
    exact h.readings
  start := by
    rw [Trace.readings_snoc, he.no_reading, List.append_nil]
    exact h.start
  last := by
    rw [Trace.readings_snoc, he.no_reading, List.append_nil]
    exact h.last
  deadline := h.deadline

/-- A reading that is not before the last one, and before the deadline. -/
theorem Clean.now {now : Nat} (h : Clean limits g run) (hlast : run.last ≤ now)
    (hdead : now - run.start < limits.timeout_ms) (world : σ) :
    Clean limits g { run with
      world := world, trace := run.trace ++ [.Now (.ret now)], last := now } where
  error := h.error
  unpublished := h.unpublished.snoc rfl
  no_failure := by
    intro e' he'
    rcases List.mem_append.mp he' with h1 | h1
    · exact h.no_failure e' h1
    · rw [List.mem_singleton.mp h1]
      rfl
  done := h.done.trans (List.sublist_append_left ..)
  counts := h.counts
  source := by simpa [Event.source_bytes, Event.accepted] using h.source
  accepted := by simpa [Event.accepted, Event.returned] using h.accepted
  input_count := by simpa [Event.accepted] using h.input_count
  input_le := h.input_le
  output_count := by simpa [Event.stored] using h.output_count
  output_le := h.output_le
  eof := by
    intro hend
    rw [Trace.source_bytes_snoc]
    simpa [Event.source_bytes] using (h.eof hend).snoc (e := .Now (.ret now)) rfl
  readings := by
    rw [Trace.readings_snoc, List.pairwise_append]
    refine ⟨h.readings, List.pairwise_singleton _ _, ?_⟩
    intro a ha b hb
    rw [List.mem_singleton.mp hb]
    exact (h.last a ha).trans hlast
  start := by
    rw [Trace.readings_snoc, List.head?_append, h.start]
    rfl
  last := by
    intro a ha
    rw [Trace.readings_snoc] at ha
    rcases List.mem_append.mp ha with h1 | h1
    · exact (h.last a h1).trans hlast
    · rw [List.mem_singleton.mp h1]
  deadline := hdead

/-! ## The budget -/

theorem call_spec {port : σ → Reply α × σ} {event : Reply α → Event} {P : Run σ → Prop}
    {Q : α → Run σ → Prop} {E : Stop → Run σ → Prop}
    (hret : ∀ run world value, P run →
      Q value { run with world := world, trace := run.trace ++ [event (.ret value)] })
    (hunwind : ∀ run world, P run →
      E .unwind { run with world := world, trace := run.trace ++ [event .unwind] }) :
    Triple P (call port event) Q E := by
  intro run hrun
  unfold call
  cases hp : port run.world with
  | mk reply world =>
    cases reply with
    | ret value => exact hret run world value hrun
    | unwind => exact hunwind run world hrun

theorem fail_spec (failure : SealFailure) :
    Triple (fun run : Run σ => Trace.Unpublished run.trace) (Budget.fail failure)
      (fun _ => Broken) Stopped := by
  intro run hrun
  exact ⟨by simp, hrun.snoc rfl⟩

/-- A failure that is recorded and then stops the call. -/
theorem fail_stop_spec (failure : SealFailure) {Q : α → Run σ → Prop} :
    Triple (fun run : Run σ => Trace.Unpublished run.trace)
      (do
        let error ← Budget.fail failure
        Prog.stop (.fail error)) Q Stopped := by
  apply Triple.bind (fail_spec failure)
  intro error
  apply Triple.stop
  exact fun run hrun => hrun

/-- The check passes only when no failure is recorded. -/
theorem check_spec (g : Progress) :
    Triple (fun run => Broken run ∨ Clean limits g run) (Budget.check p limits)
      (fun _ => Clean limits g) Stopped := by
  unfold Budget.check
  apply Triple.get_bind
  intro start hstart
  cases he : start.error with
  | some error =>
    apply Triple.stop
    rintro _ rfl
    refine ⟨by simp [he], ?_⟩
    rcases hstart with h | h
    · exact h.unpublished
    · exact h.unpublished
  | none =>
    have hclean : Clean limits g start := hstart.resolve_left fun h => h.error he
    apply Triple.bind (Q := fun now run => ∃ world,
      run = { start with world := world, trace := start.trace ++ [.Now (.ret now)] })
    · apply call_spec
      · rintro run world now rfl
        exact ⟨world, rfl⟩
      · rintro run world rfl
        exact hclean.unpublished.snoc rfl
    intro now
    split
    · refine (fail_stop_spec .ClockReversed).conseq ?_ (fun _ _ h => h) (fun _ _ h => h)
      rintro _ ⟨world, rfl⟩
      exact hclean.unpublished.snoc rfl
    · rename_i hlast
      apply Triple.modify_bind (M := fun run => ∃ world, run = { start with
        world := world, trace := start.trace ++ [.Now (.ret now)], last := now })
      · rintro _ ⟨world, rfl⟩
        exact ⟨world, rfl⟩
      split
      · refine (fail_stop_spec .Deadline).conseq ?_ (fun _ _ h => h) (fun _ _ h => h)
        rintro _ ⟨world, rfl⟩
        exact hclean.unpublished.snoc rfl
      · rename_i hdead
        apply Triple.pure
        rintro _ ⟨world, rfl⟩
        exact hclean.now (by omega) (by omega) world

/-- A result of a port: with a value the run is as clean as before, after an error it need
not be. -/
def Answered (limits : SealLimits) (g : α → Progress) : Except SealPortError α → Run σ → Prop
  | .ok value, run => Broken run ∨ Clean limits (g value) run
  | .error _, run => Trace.Unpublished run.trace

theorem after_spec (g : α → Progress) (failure : SealFailure) (result : Except SealPortError α) :
    Triple (Answered limits g result) (Budget.after p limits (map_err failure result))
      (fun value run => result = .ok value ∧ Clean limits (g value) run) Stopped := by
  cases result with
  | error e => exact fail_stop_spec failure
  | ok value =>
    apply Triple.bind (check_spec (g value))
    intro _
    apply Triple.pure
    exact fun run hrun => ⟨rfl, hrun⟩

theorem attempt_spec {x : Seal σ α} {P : Run σ → Prop} {Q : α → Run σ → Prop}
    (h : Triple P x Q Stopped) :
    Triple P (attempt x) (fun r run =>
      match r with
      | .ok value => Q value run
      | .error _ => Broken run) Stopped := by
  apply Triple.attempt
  refine h.conseq (fun _ h => h) (fun _ _ h => h) ?_
  intro stop run hrun
  cases stop with
  | fail failure => exact hrun
  | unwind => exact hrun
  | running => exact hrun

/-- A call of a port that answers with a result. -/
theorem call_result_spec {port : σ → Reply (Except SealPortError α) × σ}
    {event : Reply (Except SealPortError α) → Event} {P : Run σ → Prop} (g' : α → Progress)
    (hP : ∀ run, P run → Clean limits g run)
    (hmoves : ∀ run value, P run → Moves run.eof (event (.ret (.ok value))) g (g' value))
    (hpub : ∀ reply, (event reply).is_publish = false) :
    Triple P (call port event) (Answered limits g') Stopped := by
  apply call_spec
  · intro run world value hrun
    cases value with
    | error e => exact (hP run hrun).unpublished.snoc (hpub _)
    | ok value => exact .inr ((hP run hrun).step (hmoves run value hrun) world)
  · intro run world hrun
    exact (hP run hrun).unpublished.snoc (hpub _)

/-! ## The wrappers -/

/-- The state between two calls of the cipher. -/
def Open (limits : SealLimits) (done : List Event) (run : Run σ) : Prop :=
  Broken run ∨ Clean limits { done := done } run

/-- The state when a read has come back: the cipher is still to be told. -/
def Reads (limits : SealLimits) (done : List Event)
    (r : Bytes × Except SealPortError Nat) (run : Run σ) : Prop :=
  Broken run ∨ Clean limits { done := done, unreturned := given r.1 r.2 } run

theorem fail_read_spec (output : Bytes) (failure : SealFailure) (done : List Event) :
    Triple (fun run : Run σ => Trace.Unpublished run.trace) (fail_read output failure)
      (Reads limits done) Stopped := by
  apply Triple.bind (fail_spec failure)
  intro _
  apply Triple.pure
  exact fun run hrun => .inl hrun

/-- The call of the source, before its end was seen. -/
theorem source_read_spec (output : Bytes) (hne : output ≠ []) (done : List Event) (room : Nat) :
    Triple (fun run => Clean limits { done := done, room := room } run ∧ run.eof = false)
      (call (p.read output) (read_event output))
      (fun reply => Answered limits (fun count => {
        done := done, unfed := reply.buffer.take count, ended := count == 0, room := room })
          reply.result) Stopped := by
  apply call_spec
  · rintro run world ⟨buffer, hlen, result⟩ ⟨hrun, heof⟩
    cases result with
    | error e => exact hrun.unpublished.snoc rfl
    | ok count =>
      apply Or.inr
      apply hrun.step (e := .Read output.length buffer (.ret (.ok count)))
      refine ⟨rfl, rfl, rfl, .inl rfl, rfl, ⟨rfl, rfl⟩, rfl, rfl, rfl, rfl, ?_⟩
      intro h
      simp only [heof, Bool.false_eq_true, beq_iff_eq, false_or] at h
      subst h
      exact .inr ⟨output.length, buffer, List.length_pos_iff.mpr hne, rfl⟩
  · rintro run world ⟨hrun, -⟩
    exact hrun.unpublished.snoc rfl

/-- The end of the source was seen. -/
theorem Clean.set_eof {done : List Event} {room : Nat}
    (h : Clean limits { done := done, ended := true, room := room } run) :
    Clean limits { done := done } { run with eof := true } :=
  { h with
    counts := by simp
    input_le := (Nat.le_add_right _ _).trans h.input_le
    eof := fun _ => h.eof (.inr rfl) }

theorem probe_spec (output : Bytes) (done : List Event) :
    Triple (fun run => Clean limits { done := done } run ∧ run.eof = false)
      (CheckedRead.probe p limits output) (Reads limits done) Stopped := by
  unfold CheckedRead.probe
  apply Triple.bind (source_read_spec [0] (by simp) done 0)
  intro reply
  apply Triple.bind (attempt_spec (after_spec _ .SourceRead reply.result))
  intro r
  cases r with
  | error e =>
    apply Triple.pure
    exact fun run hrun => .inl hrun
  | ok count =>
    simp only
    split
    · refine (fail_read_spec output _ done).conseq ?_ (fun _ _ h => h) (fun _ _ h => h)
      exact fun run hrun => hrun.2.unpublished
    split
    · refine (fail_read_spec output _ done).conseq ?_ (fun _ _ h => h) (fun _ _ h => h)
      exact fun run hrun => hrun.2.unpublished
    · rename_i hzero
      obtain rfl : count = 0 := by simpa using hzero
      apply Triple.modify_bind (M := Reads limits done (output, .ok 0))
      · rintro run ⟨-, hrun⟩
        simp only [List.take_zero, BEq.rfl] at hrun
        exact .inr hrun.set_eof
      · apply Triple.pure
        exact fun run hrun => hrun

/-- The bytes that the checker accepted are counted. -/
theorem Clean.count_input {done : List Event} {bytes : Bytes} {count room : Nat}
    (h : Clean limits { done := done, uncounted := count, unreturned := bytes, room := room } run)
    (hle : count ≤ room) :
    Clean limits { done := done, unreturned := bytes }
      { run with input_count := run.input_count + count } :=
  { h with
    counts := by simp
    input_le := by
      have := h.input_le
      simp only at this ⊢
      omega }

theorem take_spec (output rest : Bytes) (hne : output ≠ []) (done : List Event) :
    Triple (fun run => Clean limits { done := done, room := output.length } run ∧ run.eof = false)
      (CheckedRead.take p limits output rest) (Reads limits done) Stopped := by
  unfold CheckedRead.take
  apply Triple.bind (source_read_spec output hne done output.length)
  intro reply
  apply Triple.bind (attempt_spec (after_spec _ .SourceRead reply.result))
  intro r
  cases r with
  | error e =>
    refine (fail_read_spec _ _ done).conseq ?_ (fun _ _ h => h) (fun _ _ h => h)
    exact fun run hrun => hrun.unpublished
  | ok count =>
    simp only
    split
    · refine (fail_read_spec _ _ done).conseq ?_ (fun _ _ h => h) (fun _ _ h => h)
      exact fun run hrun => hrun.2.unpublished
    rename_i hcount
    split
    · rename_i hzero
      subst hzero
      apply Triple.modify_bind (M := Reads limits done (reply.buffer ++ rest, .ok 0))
      · rintro run ⟨-, hrun⟩
        simp only [List.take_zero, BEq.rfl] at hrun
        exact .inr hrun.set_eof
      · apply Triple.pure
        exact fun run hrun => hrun
    rename_i hpos
    have hended : (count == 0) = false := by simpa using hpos
    have hlen : (reply.buffer.take count).length = count := by
      rw [List.length_take, reply.length_eq]
      omega
    have hgiven : given (reply.buffer ++ rest) (.ok count) = reply.buffer.take count :=
      List.take_append_of_le_length (by rw [reply.length_eq]; omega)
    apply Triple.get_bind
    rintro start ⟨-, hstart⟩
    rw [hended] at hstart
    split
    · apply Triple.bind
      · apply call_result_spec fun _ => {
          done := done, uncounted := count, unreturned := reply.buffer.take count,
          room := output.length }
        · rintro run rfl
          exact hstart
        · rintro run value rfl
          refine ⟨rfl, rfl, rfl, .inl rfl, rfl, ⟨rfl, rfl⟩,
            by simp [Event.source_bytes, Event.accepted], rfl, ?_, rfl, ?_⟩
          · simpa [Event.accepted] using hlen
          · intro h
            exact .inl ⟨rfl, rfl, h⟩
        · exact fun reply => rfl
      intro checked
      apply Triple.bind (attempt_spec (after_spec _ .Check checked))
      intro r
      cases r with
      | error e =>
        apply Triple.pure
        exact fun run hrun => .inl hrun
      | ok value =>
        apply Triple.modify_bind (M := Reads limits done (reply.buffer ++ rest, .ok count))
        · rintro run ⟨-, hrun⟩
          apply Or.inr
          rw [hgiven]
          exact hrun.count_input (by omega)
        · apply Triple.pure
          exact fun run hrun => hrun
    · refine (fail_read_spec _ _ done).conseq ?_ (fun _ _ h => h) (fun _ _ h => h)
      rintro run rfl
      exact hstart.unpublished

theorem Clean.read_room {done : List Event} {size : Nat}
    (h : Clean limits { done := done } run) (hle : run.input_count + size ≤ limits.source_bytes) :
    Clean limits { done := done, room := size } run :=
  { h with
    input_le := hle }

theorem read_spec (output : Bytes) (done : List Event) :
    Triple (Open limits done) (CheckedRead.read p limits output) (Reads limits done) Stopped := by
  unfold CheckedRead.read
  apply Triple.bind (attempt_spec (check_spec { done := done }))
  intro r
  cases r with
  | error e =>
    apply Triple.pure
    exact fun run hrun => .inl hrun
  | ok _ =>
    apply Triple.get_bind
    intro start hstart
    split
    · apply Triple.pure
      rintro run rfl
      exact .inr hstart
    rename_i hmore
    simp only [Bool.or_eq_true, List.isEmpty_iff, not_or, Bool.not_eq_true] at hmore
    split
    · refine (probe_spec output done).conseq ?_ (fun _ _ h => h) (fun _ _ h => h)
      rintro run rfl
      exact ⟨hstart, hmore.2⟩
    rename_i hlimit
    have hle := hstart.input_le
    have hlen := List.length_pos_iff.mpr hmore.1
    have hchunk : 0 < CHUNK := by decide
    simp only [Nat.add_zero] at hle
    refine (take_spec _ _ ?_ done).conseq ?_ (fun _ _ h => h) (fun _ _ h => h)
    · rw [← List.length_pos_iff, List.length_take]
      omega
    · rintro run rfl
      refine ⟨hstart.read_room ?_, hmore.2⟩
      rw [List.length_take]
      omega

theorem fail_write_spec (failure : SealFailure) (done : List Event) :
    Triple (fun run : Run σ => Trace.Unpublished run.trace) (fail_write failure)
      (fun _ => Open limits done) Stopped := by
  apply Triple.bind (fail_spec failure)
  intro _
  apply Triple.pure
  exact fun run hrun => .inl hrun

theorem Clean.write_room {done : List Event} {size : Nat}
    (h : Clean limits { done := done } run)
    (hle : run.output_count + size ≤ limits.ciphertext_bytes) :
    Clean limits { done := done, stage_room := size } run :=
  { h with
    output_le := hle }

/-- The bytes that the stage accepted are counted. -/
theorem Clean.count_output {done : List Event} {count room : Nat}
    (h : Clean limits { done := done, unstored := count, stage_room := room } run)
    (hle : count ≤ room) :
    Clean limits { done := done } { run with output_count := run.output_count + count } :=
  { h with
    counts := by simp
    output_le := by
      have := h.output_le
      simp only at this ⊢
      omega }

theorem put_spec (input : Bytes) (done : List Event) :
    Triple (Clean limits { done := done, stage_room := input.length })
      (CountedWrite.put p limits input) (fun _ => Open limits done) Stopped := by
  unfold CountedWrite.put
  apply Triple.bind
  · apply call_result_spec (g := { done := done, stage_room := input.length }) fun count => {
      done := done, unstored := (input.take count).length, stage_room := input.length }
    · exact fun run hrun => hrun
    · intro run count hrun
      refine ⟨rfl, rfl, rfl, .inl rfl, rfl, ⟨rfl, rfl⟩, rfl, rfl, rfl, ?_, ?_⟩
      · simp [Event.stored]
      · intro h
        exact .inl ⟨rfl, rfl, h⟩
    · exact fun reply => rfl
  intro result
  apply Triple.bind (attempt_spec (after_spec _ .StageWrite result))
  intro r
  cases r with
  | error e =>
    apply Triple.pure
    exact fun run hrun => .inl hrun
  | ok count =>
    simp only
    split
    · refine (fail_write_spec _ done).conseq ?_ (fun _ _ h => h) (fun _ _ h => h)
      exact fun run hrun => hrun.2.unpublished
    rename_i hcount
    split
    · refine (fail_write_spec _ done).conseq ?_ (fun _ _ h => h) (fun _ _ h => h)
      exact fun run hrun => hrun.2.unpublished
    apply Triple.get_bind
    rintro start ⟨-, hstart⟩
    split
    · apply Triple.modify_bind (M := Open limits done)
      · rintro run rfl
        have hlen : (input.take count).length = count := by
          rw [List.length_take]
          omega
        rw [hlen] at hstart
        exact .inr (hstart.count_output (by omega))
      · apply Triple.pure
        exact fun run hrun => hrun
    · refine (fail_write_spec _ done).conseq ?_ (fun _ _ h => h) (fun _ _ h => h)
      rintro run rfl
      exact hstart.unpublished

theorem write_spec (input : Bytes) (done : List Event) :
    Triple (Open limits done) (CountedWrite.write p limits input) (fun _ => Open limits done)
      Stopped := by
  unfold CountedWrite.write
  apply Triple.bind (attempt_spec (check_spec { done := done }))
  intro r
  cases r with
  | error e =>
    apply Triple.pure
    exact fun run hrun => .inl hrun
  | ok _ =>
    apply Triple.get_bind
    intro start hstart
    split
    · apply Triple.pure
      rintro run rfl
      exact .inr hstart
    split
    · refine (fail_write_spec _ done).conseq ?_ (fun _ _ h => h) (fun _ _ h => h)
      rintro run rfl
      exact hstart.unpublished
    have hle := hstart.output_le
    simp only [Nat.add_zero] at hle
    refine (put_spec _ done).conseq ?_ (fun _ _ h => h) (fun _ _ h => h)
    rintro run rfl
    apply hstart.write_room
    rw [List.length_take]
    omega

/-- An event that moves no bytes. -/
theorem Moves.quiet {e : Event} {eof : Bool} (he : e.Quiet)
    (hdone : g'.done = g.done ∨ g'.done = g.done ++ [e])
    (hg : g' = { g with done := g'.done }) : Moves eof e g g' := by
  rw [hg]
  refine ⟨he.unpublished, he.no_failure, he.no_reading, hdone, rfl, ⟨rfl, rfl⟩, ?_, ?_, ?_, ?_, ?_⟩
  · simp [he.no_source, he.no_accepted]
  · simp [he.no_accepted, he.no_returned]
  · simp [he.no_accepted]
  · simp [he.no_stored]
  · exact fun h => .inl ⟨he.no_read, he.no_source, h⟩

theorem flush_spec (done : List Event) :
    Triple (Open limits done) (CountedWrite.flush p limits) (fun _ => Open limits done)
      Stopped := by
  unfold CountedWrite.flush
  apply Triple.bind (attempt_spec (check_spec { done := done }))
  intro r
  cases r with
  | error e =>
    apply Triple.pure
    exact fun run hrun => .inl hrun
  | ok _ =>
    apply Triple.bind
    · apply call_result_spec (g := { done := done }) fun _ => { done := done }
      · exact fun run hrun => hrun
      · intro run value hrun
        exact .quiet ⟨rfl, rfl, rfl, rfl, rfl, rfl, rfl, rfl⟩ (.inl rfl) rfl
      · exact fun reply => rfl
    intro result
    apply Triple.bind (attempt_spec (after_spec _ .StageFlush result))
    intro r
    cases r with
    | error e =>
      apply Triple.pure
      exact fun run hrun => .inl hrun
    | ok _ =>
      apply Triple.pure
      exact fun run hrun => .inr hrun.2

end

end openwrt_mcp_runtime.sealing
