-- The latch of the sealer: behind the first thing that goes wrong no work is done, whatever the
-- cipher does with the error that it is given, and the report names the failure that was
-- recorded first.
import OpenwrtMcp.SealInvariant
import OpenwrtMcp.SealLaws

open programs

namespace openwrt_mcp_runtime.sealing

/-! ## What goes wrong in a trace -/

namespace Event

/-- A call that reads, checks, stores, closes or publishes. -/
def is_work : Event → Bool
  | .Read .. | .Feed .. | .Write .. | .Flush .. | .Finish .. | .Complete .. | .Publish .. => true
  | _ => false

/-- A call of the cleanup, or no call of a port. -/
def settles : Event → Bool
  | .Cancel _ | .Abort _ | .Asked _ | .Returned _ | .Encrypted _ | .EncryptUnwound => true
  | .Recorded _ => true
  | _ => false

def is_now : Event → Bool
  | .Now _ => true
  | _ => false

def is_recorded : Event → Bool
  | .Recorded _ => true
  | _ => false

/-- The failure that the budget records for a call with this reply. -/
def failure : Event → Option SealFailure
  | .Read _ _ (.ret (.error _)) => some .SourceRead
  | .Feed _ (.ret (.error _)) => some .Check
  | .Write _ (.ret (.error _)) => some .StageWrite
  | .Flush (.ret (.error _)) => some .StageFlush
  | .Finish (.ret (.error _)) => some .Check
  | .Complete (.ret (.error _)) => some .SourceCompletion
  | .Encrypted (.error _) => some .Cipher
  | _ => none

end Event

/-- A count that cannot be, or a limit that is reached: the failure that is recorded once the
clock has been read behind `e`. The source has a byte more than its limit when the checker has
accepted as many as the limit, and so has the cipher when the stage has. -/
def miscounted (limits : SealLimits) (before : Trace) : Event → Option SealFailure
  | .Read size _ (.ret (.ok count)) =>
    if size < count then some .InvalidIoCount
    else if count ≠ 0 ∧ before.accepted.length = limits.source_bytes then some .SourceLimit
    else none
  | .Write input (.ret (.ok count)) =>
    if input.length < count then some .InvalidIoCount
    else if count = 0 then some .ZeroWrite
    else none
  | .Asked input =>
    if input ≠ [] ∧ before.stored.length = limits.ciphertext_bytes then some .CiphertextLimit
    else none
  | _ => none

/-- `miscounted` for the last event of a trace. -/
def overrun (limits : SealLimits) (t : Trace) : Option SealFailure :=
  t.getLast?.bind (miscounted limits t.dropLast)

/-- A reading of the clock that is before an earlier one. -/
def Reversed (before : Trace) (now : Nat) : Prop := ∃ earlier ∈ before.readings, now < earlier

/-- A reading of the clock that is not before the deadline. -/
def Expired (limits : SealLimits) (before : Trace) (now : Nat) : Prop :=
  ∃ start ∈ before.readings.head?, limits.timeout_ms ≤ now - start

instance (before : Trace) (now : Nat) : Decidable (Reversed before now) := by
  unfold Reversed
  infer_instance

instance (limits : SealLimits) (before : Trace) (now : Nat) :
    Decidable (Expired limits before now) := by
  unfold Expired
  infer_instance

/-- The failure that `e` behind `before` is: a call that fails is one by itself, a count is one
when the clock has been read in time. -/
def fault (limits : SealLimits) (before : Trace) : Event → Option SealFailure
  | .Now (.ret now) =>
    if Reversed before now then some .ClockReversed
    else if Expired limits before now then some .Deadline
    else overrun limits before
  | e => e.failure

/-- No event is a failure, and none is recorded. -/
def Faultless (limits : SealLimits) (t : Trace) : Prop :=
  ∀ before e after, t = before ++ e :: after →
    fault limits before e = none ∧ e.is_recorded = false

/-- The last event is the first failure, and it is `f`. -/
def Blamed (limits : SealLimits) (t : Trace) (f : SealFailure) : Prop :=
  ∃ before e, t = before ++ [e] ∧ Faultless limits before ∧ fault limits before e = some f

/-- What goes wrong behind `before`: a call that fails, a count, a reading of the clock that goes
back or is not before the deadline. -/
def Wrong (limits : SealLimits) (before : Trace) : Event → Prop
  | .Now (.ret now) => Reversed before now ∨ Expired limits before now
  | e => e.failure ≠ none ∨ miscounted limits before e ≠ none ∨ e.is_recorded = true

/-- Nothing has gone wrong. -/
inductive Fine (limits : SealLimits) : Trace → Prop
  | nil : Fine limits []
  | snoc {t : Trace} {e : Event} : Fine limits t → ¬ Wrong limits t e → Fine limits (t ++ [e])

/-- A trace up to the first event that may be wrong; behind that, the clock was read. -/
def Unlatched (limits : SealLimits) (t : Trace) : Prop :=
  ∃ before rest, t = before ++ rest ∧ Fine limits before ∧ (∀ e ∈ rest.tail, e.is_now = true) ∧
    ∀ e ∈ rest, e.is_recorded = false

/-- A trace with nothing but settling behind that event. The first failure is recorded, and it is
`error`. -/
def Settled (limits : SealLimits) (error : Option SealFailure) (t : Trace) : Prop :=
  ∃ start after, t = start ++ after ∧ Unlatched limits start ∧
    (∀ e ∈ after, e.settles = true) ∧
    ((error = none ∧ Faultless limits t) ∨
      ∃ f rest, error = some f ∧ after = .Recorded f :: rest ∧ Blamed limits start f)

section
variable {limits : SealLimits} {t : Trace} {e : Event} {error : Option SealFailure}

theorem not_wrong (hfailure : e.failure = none) (hcount : miscounted limits t e = none)
    (hread : e.reading = []) (hrec : e.is_recorded = false) : ¬ Wrong limits t e := by
  have hquiet : ¬ (e.failure ≠ none ∨ miscounted limits t e ≠ none ∨ e.is_recorded = true) := by
    simp [hfailure, hcount, hrec]
  cases e with
  | Now reply =>
    cases reply with
    | ret now => cases hread
    | unwind => exact hquiet
  | _ => exact hquiet

theorem failure_eq_none (h : ¬ Wrong limits t e) : e.failure = none := by
  by_contra hfailure
  cases e with
  | Now reply => exact hfailure rfl
  | _ => exact h (.inl hfailure)

theorem miscounted_eq_none (h : ¬ Wrong limits t e) : miscounted limits t e = none := by
  by_contra hcount
  cases e with
  | Now reply => exact hcount rfl
  | _ => exact h (.inr (.inl hcount))

theorem fault_of_no_reading (hread : e.reading = []) : fault limits t e = e.failure := by
  cases e with
  | Now reply =>
    cases reply with
    | ret now => cases hread
    | unwind => rfl
  | _ => rfl

@[simp] theorem overrun_snoc : overrun limits (t ++ [e]) = miscounted limits t e := by
  simp [overrun]

theorem Faultless.snoc (h : Faultless limits t) (hfault : fault limits t e = none)
    (hrec : e.is_recorded = false) : Faultless limits (t ++ [e]) := by
  intro before x after hsplit
  rcases split_snoc hsplit with ⟨rfl, rfl, -⟩ | ⟨rest, -, ht⟩
  · exact ⟨hfault, hrec⟩
  · exact h before x rest ht

theorem Fine.not_wrong {before after : Trace} (h : Fine limits (before ++ e :: after)) :
    ¬ Wrong limits before e := by
  generalize ht : before ++ e :: after = t at h
  induction h generalizing before e after with
  | nil => simp at ht
  | @snoc t e' hfine hnot ih =>
    rcases split_snoc ht.symm with ⟨rfl, rfl, -⟩ | ⟨rest, -, hrest⟩
    · exact hnot
    · exact ih hrest.symm

theorem Fine.unrecorded (h : Fine limits t) : ∀ e ∈ t, e.is_recorded = false := by
  intro e he
  obtain ⟨before, after, rfl⟩ := List.append_of_mem he
  have hnot := h.not_wrong
  cases e with
  | Recorded f => exact absurd (.inr (.inr rfl)) hnot
  | _ => rfl

theorem Fine.overrun (h : Fine limits t) : overrun limits t = none := by
  rcases List.eq_nil_or_concat t with rfl | ⟨rest, last, rfl⟩
  · rfl
  · rw [List.concat_eq_append] at h ⊢
    rw [overrun_snoc]
    exact miscounted_eq_none h.not_wrong

/-- Where nothing goes wrong, no event is a failure. -/
theorem Fine.faultless (h : Fine limits t) : Faultless limits t := by
  induction h with
  | nil =>
    intro before e after ht
    simp at ht
  | @snoc t e hfine hnot ih =>
    have hrec : e.is_recorded = false := by
      cases e with
      | Recorded f => exact absurd (.inr (.inr rfl)) hnot
      | _ => rfl
    refine ih.snoc ?_ hrec
    by_cases hread : e.reading = []
    · rw [fault_of_no_reading hread]
      exact failure_eq_none hnot
    · cases e with
      | Now reply =>
        cases reply with
        | ret now =>
          have hreversed : ¬ Reversed t now := fun h => hnot (.inl h)
          have hexpired : ¬ Expired limits t now := fun h => hnot (.inr h)
          simp only [fault, if_neg hreversed, if_neg hexpired]
          exact hfine.overrun
        | unwind => rfl
      | _ => exact absurd rfl hread

theorem Fine.unlatched (h : Fine limits t) : Unlatched limits t :=
  ⟨t, [], by simp, h, by simp, by simp⟩

/-- The event behind a fine trace may be wrong. -/
theorem Fine.then (h : Fine limits t) (he : e.is_recorded = false) :
    Unlatched limits (t ++ [e]) :=
  ⟨t, [e], rfl, h, by simp, by simp [he]⟩

theorem Unlatched.now (h : Unlatched limits t) (reply : Reply Nat) :
    Unlatched limits (t ++ [.Now reply]) := by
  obtain ⟨before, rest, rfl, hfine, htail, hrec⟩ := h
  refine ⟨before, rest ++ [.Now reply], by simp, hfine, ?_, ?_⟩
  · cases rest with
    | nil => simp
    | cons e rest =>
      intro e' he'
      rcases List.mem_append.mp he' with h1 | h1
      · exact htail e' h1
      · rw [List.mem_singleton.mp h1]
        rfl
  · intro e' he'
    rcases List.mem_append.mp he' with h1 | h1
    · exact hrec e' h1
    · rw [List.mem_singleton.mp h1]
      rfl

theorem Unlatched.settled (h : Unlatched limits t) (hfaultless : Faultless limits t) :
    Settled limits none t :=
  ⟨t, [], by simp, h, by simp, .inl ⟨rfl, hfaultless⟩⟩

theorem Unlatched.record {f : SealFailure} (h : Unlatched limits t) (hblamed : Blamed limits t f) :
    Settled limits (some f) (t ++ [.Recorded f]) :=
  ⟨t, [.Recorded f], rfl, h, by simp [Event.settles], .inr ⟨f, [], rfl, rfl, hblamed⟩⟩

theorem Settled.snoc (h : Settled limits error t) (he : e.settles = true)
    (hnone : error = none → fault limits t e = none ∧ e.is_recorded = false) :
    Settled limits error (t ++ [e]) := by
  obtain ⟨start, after, rfl, hstart, hafter, hfirst⟩ := h
  refine ⟨start, after ++ [e], by simp, hstart, ?_, ?_⟩
  · intro e' he'
    rcases List.mem_append.mp he' with h1 | h1
    · exact hafter e' h1
    · rw [List.mem_singleton.mp h1]
      exact he
  · rcases hfirst with ⟨rfl, hfaultless⟩ | ⟨f, rest, rfl, rfl, hblamed⟩
    · obtain ⟨hfault, hrec⟩ := hnone rfl
      exact .inl ⟨rfl, hfaultless.snoc hfault hrec⟩
    · exact .inr ⟨f, rest ++ [e], rfl, rfl, hblamed⟩

theorem Event.settles_no_work (he : e.settles = true) : e.is_work = false := by
  cases e <;> first | rfl | cases he

theorem Event.now_no_work (he : e.is_now = true) : e.is_work = false := by
  cases e <;> first | rfl | cases he

theorem mem_behind {rest settled more after : Trace} {x : Event}
    (h : rest ++ settled = more ++ e :: after) (hx : x ∈ after) : x ∈ rest.tail ∨ x ∈ settled := by
  cases rest with
  | nil =>
    right
    rw [List.nil_append] at h
    simp [h, hx]
  | cons r rest =>
    rw [List.tail_cons, ← List.mem_append]
    cases more with
    | nil =>
      have htail : rest ++ settled = after := (List.cons.inj h).2
      rw [htail]
      exact hx
    | cons r' more =>
      have htail : rest ++ settled = more ++ e :: after := (List.cons.inj h).2
      rw [htail]
      simp [hx]

/-- Behind something wrong there is no work. -/
theorem Settled.no_work {before after : Trace}
    (h : Settled limits error (before ++ e :: after)) (he : Wrong limits before e) :
    ∀ x ∈ after, x.is_work = false := by
  obtain ⟨start, settled, heq, ⟨fine, rest, rfl, hfine, htail, -⟩, hsettled, -⟩ := h
  have hbehind : ∀ more, rest ++ settled = more ++ e :: after → ∀ x ∈ after,
      x.is_work = false := by
    intro more hsplit x hx
    rcases mem_behind hsplit hx with h1 | h1
    · exact Event.now_no_work (htail x h1)
    · exact Event.settles_no_work (hsettled x h1)
  rw [List.append_assoc] at heq
  rcases List.append_eq_append_iff.mp heq with ⟨more, rfl, hrest⟩ | ⟨more, -, hrest⟩
  · cases more with
    | nil => exact hbehind [] hrest.symm
    | cons e' more =>
      cases hrest
      exact absurd he hfine.not_wrong
  · exact hbehind more hrest

theorem Unlatched.unrecorded (h : Unlatched limits t) : ∀ e ∈ t, e.is_recorded = false := by
  obtain ⟨fine, rest, rfl, hfine, -, hrec⟩ := h
  intro e he
  rcases List.mem_append.mp he with h1 | h1
  · exact hfine.unrecorded e h1
  · exact hrec e h1

/-- The first failure that is recorded, the event before it, and what comes behind it. -/
theorem Settled.first {before after : Trace} {f : SealFailure}
    (h : Settled limits error (before ++ .Recorded f :: after))
    (hbefore : ∀ e ∈ before, e.is_recorded = false) :
    error = some f ∧ Blamed limits before f ∧ ∀ e ∈ after, e.settles = true := by
  obtain ⟨start, settled, heq, hstart, hsettled, hfirst⟩ := h
  rcases hfirst with ⟨-, hfaultless⟩ | ⟨g, rest, rfl, rfl, hblamed⟩
  · cases (hfaultless before _ after rfl).2
  · have hsame : before = start ∧ (.Recorded f : Event) :: after = .Recorded g :: rest := by
      rcases List.append_eq_append_iff.mp heq with ⟨more, rfl, hrest⟩ | ⟨more, rfl, hrest⟩
      · cases more with
        | nil => simpa using hrest
        | cons e more =>
          cases hrest
          cases hstart.unrecorded (.Recorded f) (by simp)
      · cases more with
        | nil => simpa using hrest.symm
        | cons e more =>
          cases hrest
          cases hbefore (.Recorded g) (by simp)
    obtain ⟨rfl, hcons⟩ := hsame
    cases hcons
    exact ⟨rfl, hblamed, fun e he => hsettled e (List.mem_cons_of_mem _ he)⟩

/-- The first failure is recorded. -/
theorem Settled.recorded {before after : Trace} {f : SealFailure}
    (h : Settled limits error (before ++ e :: after)) (hbefore : Faultless limits before)
    (hfault : fault limits before e = some f) : ∃ rest, after = .Recorded f :: rest := by
  obtain ⟨start, settled, heq, -, -, hfirst⟩ := h
  rcases hfirst with ⟨-, hfaultless⟩ | ⟨g, rest, -, rfl, first, e', rfl, hfaultless, hfault'⟩
  · rw [(hfaultless before e after rfl).1] at hfault
    cases hfault
  · rw [List.append_assoc, List.singleton_append] at heq
    rcases List.append_eq_append_iff.mp heq with ⟨more, rfl, hrest⟩ | ⟨more, rfl, hrest⟩
    · cases more with
      | nil =>
        cases hrest
        rw [List.append_nil, hfault] at hfault'
        cases hfault'
        exact ⟨rest, rfl⟩
      | cons x more =>
        cases hrest
        rw [(hfaultless before e more rfl).1] at hfault
        cases hfault
    · cases more with
      | nil =>
        cases hrest
        rw [List.append_nil, hfault'] at hfault
        cases hfault
        exact ⟨rest, rfl⟩
      | cons x more =>
        obtain ⟨rfl, -⟩ := List.cons.inj hrest
        rw [(hbefore first _ more rfl).1] at hfault'
        cases hfault'

end

/-! ## The states of a run -/

section
variable {σ α : Type} {p : Ports σ} {limits : SealLimits} {t : Trace} {e : Event} {run : Run σ}

/-- The budget has the readings of the trace, and no failure. -/
structure Clocked (run : Run σ) : Prop where
  error : run.error = none
  start : run.trace.readings.head? = some run.start
  last : run.last ∈ run.trace.readings
  last_le : ∀ now ∈ run.trace.readings, now ≤ run.last

/-- The wrappers have counted `t`. -/
structure Counted (t : Trace) (run : Run σ) : Prop where
  input : run.input_count = t.accepted.length
  output : run.output_count = t.stored.length

/-- Nothing has gone wrong. -/
structure Unharmed (limits : SealLimits) (run : Run σ) : Prop where
  clocked : Clocked run
  fine : Fine limits run.trace
  counted : Counted run.trace run

/-- The last call, which the budget has not seen, is `e`. -/
structure Hot (limits : SealLimits) (t : Trace) (e : Event) (run : Run σ) : Prop where
  clocked : Clocked run
  trace : run.trace = t ++ [e]
  fine : Fine limits t
  no_reading : e.reading = []
  unrecorded : e.is_recorded = false
  counted : Counted t run

/-- The clock was read behind the call `e`, in time. -/
structure Warm (limits : SealLimits) (t : Trace) (e : Event) (run : Run σ) : Prop where
  clocked : Clocked run
  trace : ∃ now, run.trace = t ++ [e] ++ [.Now (.ret now)] ∧ ¬ Reversed (t ++ [e]) now ∧
    ¬ Expired limits (t ++ [e]) now
  fine : Fine limits t
  no_reading : e.reading = []
  unrecorded : e.is_recorded = false
  no_failure : e.failure = none
  counted : Counted t run

/-- The failure is recorded, and nothing is done any more. -/
def Shut (limits : SealLimits) (f : SealFailure) (run : Run σ) : Prop :=
  run.error = some f ∧ Settled limits (some f) run.trace

def Concluded (limits : SealLimits) (run : Run σ) : Prop := Settled limits run.error run.trace

/-- The state in which a call of the budget or of a wrapper stops. -/
def Latched (limits : SealLimits) : Stop → Run σ → Prop
  | .fail f, run => Shut limits f run
  | _, run => Concluded limits run

/-- The state in which a call of a wrapper stops, when a port unwinds. -/
def Unwound (limits : SealLimits) : Stop → Run σ → Prop
  | .fail _, _ => False
  | _, run => Concluded limits run

/-- Before and behind a call of a wrapper. -/
def Alive (limits : SealLimits) (run : Run σ) : Prop :=
  Unharmed limits run ∨ ∃ f, Shut limits f run

/-- The failure `f` may be recorded: it is the first, or another one was. -/
def Blames (limits : SealLimits) (f : SealFailure) (run : Run σ) : Prop :=
  (run.error = none ∧ Unlatched limits run.trace ∧ Blamed limits run.trace f) ∨
    ∃ g, Shut limits g run

theorem concluded_of_none (herror : run.error = none) (h : Settled limits none run.trace) :
    Concluded limits run := by
  unfold Concluded
  rw [herror]
  exact h

theorem Shut.over {f : SealFailure} (h : Shut limits f run) : Concluded limits run := by
  unfold Concluded
  rw [h.1]
  exact h.2

theorem Unharmed.over (h : Unharmed limits run) : Concluded limits run :=
  concluded_of_none h.clocked.error (h.fine.unlatched.settled h.fine.faultless)

/-- Nothing that `Unharmed` looks at has changed. -/
theorem Unharmed.same {next : Run σ} (h : Unharmed limits run) (htrace : next.trace = run.trace)
    (hbudget : next.error = run.error ∧ next.start = run.start ∧ next.last = run.last)
    (hcounts : next.input_count = run.input_count ∧ next.output_count = run.output_count) :
    Unharmed limits next := by
  obtain ⟨herror, hstart, hlast⟩ := hbudget
  refine ⟨⟨?_, ?_, ?_, ?_⟩, ?_, ⟨?_, ?_⟩⟩
  · rw [herror]
    exact h.clocked.error
  · rw [htrace, hstart]
    exact h.clocked.start
  · rw [htrace, hlast]
    exact h.clocked.last
  · rw [htrace, hlast]
    exact h.clocked.last_le
  · rw [htrace]
    exact h.fine
  · rw [htrace, hcounts.1]
    exact h.counted.input
  · rw [htrace, hcounts.2]
    exact h.counted.output

/-- The event is no reading of the clock. -/
theorem Clocked.snoc (h : Clocked run) (hread : e.reading = []) (world : σ) :
    Clocked { run with world := world, trace := run.trace ++ [e] } := by
  have hreadings : Trace.readings (run.trace ++ [e]) = Trace.readings run.trace := by simp [hread]
  refine ⟨h.error, ?_, ?_, ?_⟩
  · rw [hreadings]
    exact h.start
  · rw [hreadings]
    exact h.last
  · rw [hreadings]
    exact h.last_le

theorem Hot.unlatched (h : Hot limits t e run) : Unlatched limits run.trace := by
  rw [h.trace]
  exact h.fine.then h.unrecorded

theorem Hot.blamed {f : SealFailure} (h : Hot limits t e run) (hfailure : e.failure = some f) :
    Blamed limits run.trace f :=
  ⟨t, e, h.trace, h.fine.faultless, (fault_of_no_reading h.no_reading).trans hfailure⟩

theorem Hot.faultless (h : Hot limits t e run) (hfailure : e.failure = none) :
    Faultless limits (t ++ [e]) :=
  h.fine.faultless.snoc ((fault_of_no_reading h.no_reading).trans hfailure) h.unrecorded

/-- The wrapper has counted what the call moved. -/
theorem Hot.unharmed (h : Hot limits t e run) (hfailure : e.failure = none)
    (hcount : miscounted limits t e = none) (haccepted : e.accepted = [])
    (hstored : e.stored = []) :
    Unharmed limits run where
  clocked := h.clocked
  fine := by
    rw [h.trace]
    exact h.fine.snoc (not_wrong hfailure hcount h.no_reading h.unrecorded)
  counted := by
    rw [h.trace]
    refine ⟨?_, ?_⟩
    · rw [Trace.accepted_snoc, haccepted, List.append_nil]
      exact h.counted.input
    · rw [Trace.stored_snoc, hstored, List.append_nil]
      exact h.counted.output

theorem Warm.unlatched (h : Warm limits t e run) : Unlatched limits run.trace := by
  obtain ⟨now, htrace, -, -⟩ := h.trace
  rw [htrace]
  exact (h.fine.then h.unrecorded).now _

/-- The count of the call is the first failure. -/
theorem Warm.blames {f : SealFailure} (h : Warm limits t e run)
    (hcount : miscounted limits t e = some f) : Blames limits f run := by
  obtain ⟨now, htrace, hreversed, hexpired⟩ := h.trace
  refine .inl ⟨h.clocked.error, h.unlatched, t ++ [e], .Now (.ret now), htrace, ?_, ?_⟩
  · exact h.fine.faultless.snoc ((fault_of_no_reading h.no_reading).trans h.no_failure)
      h.unrecorded
  · simp only [fault, if_neg hreversed, if_neg hexpired, overrun_snoc]
    exact hcount

/-- The wrapper has counted what the call moved. -/
theorem Warm.moved {next : Run σ} (h : Warm limits t e run)
    (hcount : miscounted limits t e = none) (hclocked : Clocked next)
    (htrace : next.trace = run.trace)
    (hinput : next.input_count = run.input_count + e.accepted.length)
    (houtput : next.output_count = run.output_count + e.stored.length) : Unharmed limits next := by
  obtain ⟨now, hnow, hreversed, hexpired⟩ := h.trace
  refine ⟨hclocked, ?_, ?_⟩
  · rw [htrace, hnow]
    refine Fine.snoc (h.fine.snoc (not_wrong h.no_failure hcount h.no_reading h.unrecorded)) ?_
    rintro (hwrong | hwrong)
    · exact hreversed hwrong
    · exact hexpired hwrong
  · rw [htrace, hnow]
    refine ⟨?_, ?_⟩
    · rw [hinput, h.counted.input, Trace.accepted_snoc, Trace.accepted_snoc]
      simp [Event.accepted]
    · rw [houtput, h.counted.output, Trace.stored_snoc, Trace.stored_snoc]
      simp [Event.stored]

theorem Warm.unharmed (h : Warm limits t e run) (hcount : miscounted limits t e = none)
    (haccepted : e.accepted = []) (hstored : e.stored = []) : Unharmed limits run :=
  h.moved hcount h.clocked rfl (by simp [haccepted]) (by simp [hstored])

/-! ## The calls and the budget -/

theorem call_hot {port : σ → Reply α × σ} {event : Reply α → Event}
    (hread : ∀ reply, (event reply).reading = [])
    (hrec : ∀ reply, (event reply).is_recorded = false)
    (hunwind : (event .unwind).failure = none) :
    Triple (fun run => Unharmed limits run ∧ run.trace = t) (call port event)
      (fun value => Hot limits t (event (.ret value)))
      (fun stop run => stop = .unwind ∧ Concluded limits run) := by
  rintro run ⟨hrun, rfl⟩
  unfold call
  cases hp : port run.world with
  | mk reply world =>
    cases reply with
    | ret value =>
      exact ⟨hrun.clocked.snoc (hread _) world, rfl, hrun.fine, hread _, hrec _,
        ⟨hrun.counted.input, hrun.counted.output⟩⟩
    | unwind =>
      refine ⟨rfl, concluded_of_none hrun.clocked.error ?_⟩
      refine (hrun.fine.then (hrec _)).settled (hrun.fine.faultless.snoc ?_ (hrec _))
      rw [fault_of_no_reading (hread _)]
      exact hunwind

theorem fail_shut (failure : SealFailure) :
    Triple (fun run => run.error = none ∧ Unlatched limits run.trace ∧
      Blamed limits run.trace failure)
      (Budget.fail failure : Seal σ SealFailure) (fun f => Shut limits f) (Latched limits) := by
  intro run hrun
  obtain ⟨herror, hopen, hblamed⟩ := hrun
  have hrecord := hopen.record hblamed
  show Shut limits (run.error.getD failure) _
  rw [herror]
  exact ⟨rfl, hrecord⟩

/-- A failure that comes too late does not take the place of the first one. -/
theorem fail_again (failure f : SealFailure) :
    Triple (Shut limits f) (Budget.fail failure : Seal σ SealFailure)
      (fun g run => g = f ∧ Shut limits f run) (Latched limits) := by
  intro run hrun
  obtain ⟨herror, hsettled⟩ := hrun
  show run.error.getD failure = f ∧ Shut limits f _
  rw [herror]
  exact ⟨rfl, rfl, hsettled.snoc rfl (fun h => by cases h)⟩

theorem fail_stop (failure : SealFailure) :
    Triple (fun run => run.error = none ∧ Unlatched limits run.trace ∧
      Blamed limits run.trace failure)
      (do
        let error ← Budget.fail failure
        Prog.stop (.fail error) : Seal σ α)
      (fun _ _ => False) (Latched limits) := by
  apply Triple.bind (fail_shut failure)
  intro error
  apply Triple.stop
  exact fun run hrun => hrun

/-- The clock is read: behind that the trace is longer by a reading in time. -/
theorem check_reads {counted : Trace} (hopen : Unlatched limits t)
    (hfaultless : Faultless limits t) :
    Triple (fun run => Clocked run ∧ run.trace = t ∧ Counted counted run) (Budget.check p limits)
      (fun _ run => Clocked run ∧ (∃ now, run.trace = t ++ [.Now (.ret now)] ∧
        ¬ Reversed t now ∧ ¬ Expired limits t now) ∧ Counted counted run)
      (Latched limits) := by
  unfold Budget.check
  apply Triple.get_bind
  rintro start ⟨hclocked, rfl, hcounted⟩
  rw [hclocked.error]
  apply Triple.bind (Q := fun now run => ∃ world,
    run = { start with world := world, trace := start.trace ++ [.Now (.ret now)] })
  · rintro run rfl
    unfold call
    cases hp : p.now_ms run.world with
    | mk reply world =>
      cases reply with
      | ret now => exact ⟨world, rfl⟩
      | unwind =>
        refine concluded_of_none hclocked.error ?_
        exact (hopen.now _).settled (hfaultless.snoc rfl rfl)
  intro now
  split
  · rename_i hback
    have hreversed : Reversed start.trace now := ⟨start.last, hclocked.last, hback⟩
    refine (fail_stop _).conseq ?_ (fun _ _ h => h.elim) (fun _ _ h => h)
    rintro run ⟨world, rfl⟩
    exact ⟨hclocked.error, hopen.now _, start.trace, _, rfl, hfaultless,
      by simp only [fault, if_pos hreversed]⟩
  · rename_i hback
    have hle : ∀ earlier ∈ start.trace.readings, earlier ≤ now := by
      intro earlier hearlier
      have := hclocked.last_le earlier hearlier
      omega
    have hreversed : ¬ Reversed start.trace now := by
      rintro ⟨earlier, hearlier, hlt⟩
      have := hle earlier hearlier
      omega
    apply Triple.modify_bind (M := fun run => ∃ world, run = { start with
      world := world, trace := start.trace ++ [.Now (.ret now)], last := now })
    · rintro run ⟨world, rfl⟩
      exact ⟨world, rfl⟩
    split
    · rename_i hdead
      have hexpired : Expired limits start.trace now := ⟨start.start, hclocked.start, hdead⟩
      refine (fail_stop _).conseq ?_ (fun _ _ h => h.elim) (fun _ _ h => h)
      rintro run ⟨world, rfl⟩
      exact ⟨hclocked.error, hopen.now _, start.trace, _, rfl, hfaultless,
        by simp only [fault, if_neg hreversed, if_pos hexpired]⟩
    · rename_i hdead
      have hexpired : ¬ Expired limits start.trace now := by
        rintro ⟨first, hfirst, htime⟩
        rw [hclocked.start] at hfirst
        cases hfirst
        exact hdead htime
      apply Triple.pure
      rintro run ⟨world, rfl⟩
      refine ⟨⟨hclocked.error, ?_, ?_, ?_⟩, ⟨now, rfl, hreversed, hexpired⟩,
        ⟨hcounted.input, hcounted.output⟩⟩
      · simp [Event.reading, hclocked.start]
      · simp [Event.reading]
      · intro earlier hearlier
        rw [Trace.readings_snoc] at hearlier
        rcases List.mem_append.mp hearlier with h1 | h1
        · exact hle earlier h1
        · rw [List.mem_singleton.mp h1]

theorem check_unharmed : Triple (Unharmed limits) (Budget.check p limits) (fun _ => Unharmed limits)
    (Latched limits) := by
  intro run hrun
  refine (check_reads hrun.fine.unlatched hrun.fine.faultless).conseq (fun _ h => h) ?_
    (fun _ _ h => h) run ⟨hrun.clocked, rfl, hrun.counted⟩
  rintro _ run' ⟨hclocked, ⟨now, htrace, hreversed, hexpired⟩, hcounted⟩
  refine ⟨hclocked, ?_, ?_⟩
  · rw [htrace]
    refine hrun.fine.snoc ?_
    rintro (hwrong | hwrong)
    · exact hreversed hwrong
    · exact hexpired hwrong
  · rw [htrace]
    exact ⟨by simpa [Event.accepted] using hcounted.input,
      by simpa [Event.stored] using hcounted.output⟩

theorem check_hot (hfailure : e.failure = none) :
    Triple (Hot limits t e) (Budget.check p limits) (fun _ => Warm limits t e)
      (Latched limits) := by
  intro run hrun
  have hopen : Unlatched limits (t ++ [e]) := hrun.fine.then hrun.unrecorded
  refine (check_reads hopen (hrun.faultless hfailure)).conseq (fun _ h => h) ?_ (fun _ _ h => h)
    run ⟨hrun.clocked, hrun.trace, hrun.counted⟩
  rintro _ run' ⟨hclocked, hnow, hcounted⟩
  exact ⟨hclocked, hnow, hrun.fine, hrun.no_reading, hrun.unrecorded, hfailure, hcounted⟩

theorem check_shut (f : SealFailure) : Triple (Shut limits f) (Budget.check p limits)
    (fun _ _ => False) (Latched limits) := by
  unfold Budget.check
  apply Triple.get_bind
  intro start hstart
  rw [hstart.1]
  apply Triple.stop
  rintro run rfl
  exact hstart

/-- The failure of a result. -/
def cause_of : Except SealFailure α → Option SealFailure
  | .ok _ => none
  | .error failure => some failure

theorem after_hot {result : Except SealFailure α} (hresult : e.failure = cause_of result) :
    Triple (Hot limits t e) (Budget.after p limits result)
      (fun value run => result = .ok value ∧ Warm limits t e run) (Latched limits) := by
  cases result with
  | error failure =>
    refine (fail_stop failure).conseq ?_ (fun _ _ h => h.elim) (fun _ _ h => h)
    exact fun run hrun => ⟨hrun.clocked.error, hrun.unlatched, hrun.blamed hresult⟩
  | ok value =>
    apply Triple.bind (check_hot hresult)
    intro _
    apply Triple.pure
    exact fun run hrun => ⟨rfl, hrun⟩

theorem after_shut (f : SealFailure) (result : Except SealFailure α) :
    Triple (Shut limits f) (Budget.after p limits result) (fun _ _ => False)
      (Latched limits) := by
  cases result with
  | error failure =>
    apply Triple.bind (fail_again failure f)
    rintro g
    apply Triple.stop
    rintro run ⟨rfl, hrun⟩
    exact hrun
  | ok value =>
    apply Triple.bind (check_shut f)
    intro _
    exact fun run hrun => hrun.elim

/-- Behind an attempt: a failure is recorded. -/
def Attempted (limits : SealLimits) (Q : α → Run σ → Prop) : Except SealFailure α → Run σ → Prop
  | .ok value, run => Q value run
  | .error f, run => Shut limits f run

theorem attempt_latched {x : Seal σ α} {P : Run σ → Prop} {Q : α → Run σ → Prop}
    (hx : Triple P x Q (Latched limits)) :
    Triple P (attempt x) (Attempted limits Q) (Unwound limits) := by
  apply Triple.attempt
  refine hx.conseq (fun _ h => h) (fun _ _ h => h) ?_
  intro stop run hrun
  cases stop with
  | fail f => exact hrun
  | unwind => exact hrun
  | running => exact hrun

/-! ## The wrappers -/

theorem shut_alive {f : SealFailure} (h : Shut limits f run) : Alive limits run := .inr ⟨f, h⟩

theorem unwound_of_call {stop : Stop} (h : stop = .unwind ∧ Concluded limits run) :
    Unwound limits stop run := by
  obtain ⟨rfl, hrun⟩ := h
  exact hrun

/-- What a wrapper does first. -/
theorem check_alive : Triple (Alive limits) (attempt (Budget.check p limits))
    (Attempted limits fun _ => Unharmed limits) (Unwound limits) := by
  apply attempt_latched
  rintro run (hopen | ⟨f, hshut⟩)
  · exact check_unharmed run hopen
  · exact (check_shut f).conseq (fun _ h => h) (fun _ _ h => h.elim) (fun _ _ h => h) run hshut

theorem fail_alive {β : Type} (failure : SealFailure) {P : Run σ → Prop} (b : β)
    (hP : ∀ run, P run → Blames limits failure run) :
    Triple P (do
      let _ ← Budget.fail failure
      return b : Seal σ β) (fun _ => Alive limits) (Unwound limits) := by
  have hshut : Triple P (Budget.fail failure : Seal σ SealFailure) (fun _ => Alive limits)
      (Unwound limits) := by
    intro run hrun
    rcases hP run hrun with hopen | ⟨f, hf⟩
    · exact shut_alive (fail_shut failure run hopen)
    · exact shut_alive (fail_again failure f run hf).2
  apply Triple.bind hshut
  intro _
  apply Triple.pure
  exact fun run hrun => hrun

theorem read_event_quiet (output : Bytes) (reply : Reply (ReadReply output.length)) :
    (read_event output reply).reading = [] ∧ (read_event output reply).is_recorded = false := by
  cases reply with
  | ret reply => exact ⟨rfl, rfl⟩
  | unwind => exact ⟨rfl, rfl⟩

theorem read_event_failure (output : Bytes) (reply : ReadReply output.length) :
    (read_event output (.ret reply)).failure = cause_of (map_err .SourceRead reply.result) := by
  simp only [read_event]
  cases reply.result <;> rfl

/-- The result of a read that the budget has passed. -/
theorem ok_of_map_err {failure : SealFailure} {result : Except SealPortError α} {value : α}
    (h : map_err failure result = .ok value) : result = .ok value := by
  cases result with
  | ok v =>
    cases h
    rfl
  | error e => cases h

/-- No limit of a sealer overflows a count. -/
theorem SealLimits.small (h : limits.validate = .ok ()) :
    limits.source_bytes < 2 ^ 64 ∧ limits.ciphertext_bytes < 2 ^ 64 := by
  unfold SealLimits.validate at h
  split at h
  · cases h
  · omega

theorem probe_alive (output : Bytes) (hlimit : t.accepted.length = limits.source_bytes) :
    Triple (fun run => Unharmed limits run ∧ run.trace = t) (CheckedRead.probe p limits output)
      (fun _ => Alive limits) (Unwound limits) := by
  unfold CheckedRead.probe
  apply Triple.bind ((call_hot (fun reply => (read_event_quiet [0] reply).1)
    (fun reply => (read_event_quiet [0] reply).2) rfl).conseq (fun _ h => h) (fun _ _ h => h)
    fun _ _ h => unwound_of_call h)
  intro reply
  apply Triple.bind (attempt_latched (after_hot (read_event_failure _ _)))
  intro result
  cases result with
  | error f =>
    apply Triple.pure
    exact fun run hrun => shut_alive hrun
  | ok count =>
    apply Triple.of_and
    intro hresult
    have hcount : miscounted limits t (read_event [0] (.ret reply)) =
        if 1 < count then some .InvalidIoCount
        else if count ≠ 0 then some .SourceLimit else none := by
      simp [read_event, ok_of_map_err hresult, miscounted, hlimit]
    dsimp only
    split
    · rename_i hsize
      rw [if_pos hsize] at hcount
      exact fail_alive _ _ fun run hrun => Warm.blames hrun hcount
    rename_i hsize
    rw [if_neg hsize] at hcount
    split
    · rename_i hmore
      rw [if_pos hmore] at hcount
      exact fail_alive _ _ fun run hrun => Warm.blames hrun hcount
    rename_i hmore
    rw [if_neg hmore] at hcount
    apply Triple.modify_bind (M := Unharmed limits)
    · intro run hrun
      exact (Warm.unharmed hrun hcount rfl rfl).same rfl ⟨rfl, rfl, rfl⟩ ⟨rfl, rfl⟩
    · apply Triple.pure
      exact fun run hrun => .inl hrun

theorem take_alive (hlimits : limits.validate = .ok ()) (output rest : Bytes)
    (hroom : output.length ≤ limits.source_bytes - t.accepted.length) :
    Triple (fun run => Unharmed limits run ∧ run.trace = t)
      (CheckedRead.take p limits output rest) (fun _ => Alive limits) (Unwound limits) := by
  unfold CheckedRead.take
  apply Triple.bind ((call_hot (fun reply => (read_event_quiet output reply).1)
    (fun reply => (read_event_quiet output reply).2) rfl).conseq (fun _ h => h) (fun _ _ h => h)
    fun _ _ h => unwound_of_call h)
  intro reply
  apply Triple.bind (attempt_latched (after_hot (read_event_failure _ _)))
  intro result
  cases result with
  | error f => exact fail_alive _ _ fun run hrun => .inr ⟨f, hrun⟩
  | ok count =>
    apply Triple.of_and
    intro hresult
    dsimp only
    split
    · rename_i hsize
      refine fail_alive _ _ fun run hrun => Warm.blames hrun ?_
      have hlt : output.length < count := hsize
      simp [read_event, ok_of_map_err hresult, miscounted, hlt]
    rename_i hsize
    have hle : count ≤ output.length := by omega
    have hopen : ∀ run : Run σ, Warm limits t (read_event output (.ret reply)) run →
        Unharmed limits run := by
      intro run hrun
      refine hrun.unharmed ?_ rfl rfl
      have hlimit : ¬ (count ≠ 0 ∧ t.accepted.length = limits.source_bytes) := by omega
      simp only [read_event, ok_of_map_err hresult, miscounted, if_neg hsize, if_neg hlimit]
    split
    · apply Triple.modify_bind (M := Unharmed limits)
      · intro run hrun
        exact (hopen run hrun).same rfl ⟨rfl, rfl, rfl⟩ ⟨rfl, rfl⟩
      · apply Triple.pure
        exact fun run hrun => .inl hrun
    rename_i hzero
    apply Triple.get_bind
    intro start hstart
    have hinput : start.input_count = t.accepted.length := hstart.counted.input
    have hsmall := SealLimits.small hlimits
    split
    · have hat : Unharmed limits start := hopen _ hstart
      apply Triple.bind (Triple.conseq (call_hot (t := start.trace) (fun _ => rfl) (fun _ => rfl)
        rfl) ?_ (fun _ _ h => h) fun _ _ h => unwound_of_call h)
      · intro checked
        apply Triple.bind (attempt_latched (after_hot (by cases checked <;> rfl)))
        intro fed
        cases fed with
        | error f =>
          apply Triple.pure
          exact fun run hrun => shut_alive hrun
        | ok _ =>
          apply Triple.of_and
          intro hfed
          apply Triple.modify_bind (M := Unharmed limits)
          · intro run hrun
            have hbytes : (reply.buffer.take count).length = count := by
              rw [List.length_take, reply.length_eq]
              omega
            rw [ok_of_map_err hfed] at hrun
            refine hrun.moved rfl ⟨hrun.clocked.error, hrun.clocked.start, hrun.clocked.last,
              hrun.clocked.last_le⟩ rfl ?_ rfl
            rw [show (Event.Feed (reply.buffer.take count) (.ret (.ok ()))).accepted.length = count
              from hbytes]
          · apply Triple.pure
            exact fun run hrun => .inl hrun
      · rintro run rfl
        exact ⟨hat, rfl⟩
    · -- the sum of the counts is not above the limit
      rename_i hover
      omega

theorem read_alive (hlimits : limits.validate = .ok ()) (output : Bytes) :
    Triple (Alive limits) (CheckedRead.read p limits output) (fun _ => Alive limits)
      (Unwound limits) := by
  unfold CheckedRead.read
  apply Triple.bind check_alive
  intro result
  cases result with
  | error f =>
    apply Triple.pure
    exact fun run hrun => shut_alive hrun
  | ok _ =>
    apply Triple.get_bind
    intro start hstart
    have hrun : Unharmed limits start := hstart
    have hinput := hrun.counted.input
    dsimp only
    split
    · apply Triple.pure
      rintro run rfl
      exact .inl hrun
    split
    · rename_i hlimit
      refine (probe_alive (t := start.trace) output (hinput ▸ hlimit)).conseq ?_ (fun _ _ h => h)
        (fun _ _ h => h)
      rintro run rfl
      exact ⟨hrun, rfl⟩
    · refine (take_alive (t := start.trace) hlimits _ _ ?_).conseq ?_ (fun _ _ h => h)
        (fun _ _ h => h)
      · rw [List.length_take]
        omega
      · rintro run rfl
        exact ⟨hrun, rfl⟩

theorem put_alive (hlimits : limits.validate = .ok ()) (input : Bytes)
    (hroom : input.length ≤ limits.ciphertext_bytes - t.stored.length) :
    Triple (fun run => Unharmed limits run ∧ run.trace = t) (CountedWrite.put p limits input)
      (fun _ => Alive limits) (Unwound limits) := by
  unfold CountedWrite.put
  apply Triple.bind ((call_hot (fun _ => rfl) (fun _ => rfl) rfl).conseq (fun _ h => h)
    (fun _ _ h => h) fun _ _ h => unwound_of_call h)
  intro result
  apply Triple.bind (attempt_latched (after_hot (by cases result <;> rfl)))
  intro written
  cases written with
  | error f =>
    apply Triple.pure
    exact fun run hrun => shut_alive hrun
  | ok count =>
    apply Triple.of_and
    intro hresult
    cases ok_of_map_err hresult
    have hcount : miscounted limits t (.Write input (.ret (.ok count))) =
        if input.length < count then some .InvalidIoCount
        else if count = 0 then some .ZeroWrite else none := rfl
    dsimp only
    split
    · rename_i hsize
      rw [if_pos hsize] at hcount
      exact fail_alive _ _ fun run hrun => Warm.blames hrun hcount
    rename_i hsize
    rw [if_neg hsize] at hcount
    split
    · rename_i hzero
      rw [if_pos hzero] at hcount
      exact fail_alive _ _ fun run hrun => Warm.blames hrun hcount
    rename_i hzero
    rw [if_neg hzero] at hcount
    apply Triple.get_bind
    intro start hstart
    have hwarm : Warm limits t (.Write input (.ret (.ok count))) start := hstart
    have houtput := hwarm.counted.output
    have hsmall := SealLimits.small hlimits
    split
    · apply Triple.modify_bind (M := Unharmed limits)
      · rintro run rfl
        have hbytes : (input.take count).length = count := by
          rw [List.length_take]
          omega
        refine hwarm.moved hcount ⟨hwarm.clocked.error, hwarm.clocked.start, hwarm.clocked.last,
          hwarm.clocked.last_le⟩ rfl rfl ?_
        rw [show (Event.Write input (.ret (.ok count))).stored.length = count from hbytes]
      · apply Triple.pure
        exact fun run hrun => .inl hrun
    · -- the sum of the counts is not above the limit
      rename_i hover
      omega

/-- The cipher has asked for a write. -/
def AliveAsked (limits : SealLimits) (input : Bytes) (run : Run σ) : Prop :=
  (∃ t, Hot limits t (.Asked input) run) ∨ ∃ f, Shut limits f run

theorem write_alive (hlimits : limits.validate = .ok ()) (input : Bytes) :
    Triple (AliveAsked limits input) (CountedWrite.write p limits input) (fun _ => Alive limits)
      (Unwound limits) := by
  unfold CountedWrite.write
  apply Triple.bind (Q := Attempted limits fun _ run => ∃ t, Warm limits t (.Asked input) run)
  · apply attempt_latched
    rintro run (⟨t, hhot⟩ | ⟨f, hshut⟩)
    · exact (check_hot rfl).conseq (fun _ h => h) (fun _ _ h => ⟨t, h⟩) (fun _ _ h => h) run hhot
    · exact (check_shut f).conseq (fun _ h => h) (fun _ _ h => h.elim) (fun _ _ h => h) run hshut
  intro result
  cases result with
  | error f =>
    apply Triple.pure
    exact fun run hrun => shut_alive hrun
  | ok _ =>
    apply Triple.get_bind
    rintro start ⟨t, hwarm⟩
    have houtput := hwarm.counted.output
    have hcount : miscounted limits t (.Asked input) =
      if input ≠ [] ∧ t.stored.length = limits.ciphertext_bytes then some .CiphertextLimit
      else none := rfl
    dsimp only
    split
    · rename_i hempty
      rw [if_neg (by simp [List.isEmpty_iff.mp hempty])] at hcount
      apply Triple.pure
      rintro run rfl
      exact .inl (hwarm.unharmed hcount rfl rfl)
    rename_i hempty
    have hsome : input ≠ [] := fun h => hempty (List.isEmpty_iff.mpr h)
    split
    · rename_i hlimit
      rw [if_pos ⟨hsome, houtput ▸ hlimit⟩] at hcount
      refine fail_alive _ _ ?_
      rintro run rfl
      exact hwarm.blames hcount
    · rename_i hlimit
      rw [if_neg fun h => hlimit (houtput.trans h.2)] at hcount
      have hrun := hwarm.unharmed hcount rfl rfl
      have hroom := hrun.counted.output
      refine (put_alive (t := start.trace) hlimits _ ?_).conseq ?_ (fun _ _ h => h)
        (fun _ _ h => h)
      · rw [List.length_take]
        omega
      · rintro run rfl
        exact ⟨hrun, rfl⟩

theorem flush_alive :
    Triple (Alive limits) (CountedWrite.flush p limits) (fun _ => Alive limits)
      (Unwound limits) := by
  unfold CountedWrite.flush
  apply Triple.bind check_alive
  intro result
  cases result with
  | error f =>
    apply Triple.pure
    exact fun run hrun => shut_alive hrun
  | ok _ =>
    apply Triple.bind (Q := fun flushed run => ∃ t, Hot limits t (.Flush (.ret flushed)) run)
    · intro run hrun
      exact (call_hot (t := run.trace) (fun _ => rfl) (fun _ => rfl) rfl).conseq (fun _ h => h)
        (fun _ _ h => ⟨run.trace, h⟩) (fun _ _ h => unwound_of_call h) run ⟨hrun, rfl⟩
    intro flushed
    apply Triple.bind (Q := Attempted limits fun _ => Unharmed limits)
    · apply attempt_latched
      rintro run ⟨t, hhot⟩
      refine (after_hot (by cases flushed <;> rfl)).conseq (fun _ h => h) ?_ (fun _ _ h => h)
        run hhot
      rintro _ run' ⟨-, hrun⟩
      exact hrun.unharmed rfl rfl rfl
    intro result
    cases result with
    | error f =>
      apply Triple.pure
      exact fun run hrun => shut_alive hrun
    | ok _ =>
      apply Triple.pure
      exact fun run hrun => .inl hrun

/-! ## The cipher -/

/-- An event that moves nothing and is no failure. -/
structure Idle (e : Event) : Prop where
  settles : e.settles = true
  failure : e.failure = none
  accepted : e.accepted = []
  stored : e.stored = []
  unrecorded : e.is_recorded = false
  counted : ∀ limits t, miscounted limits t e = none

theorem Idle.no_reading (h : Idle e) : e.reading = [] := by
  cases e with
  | Now reply => cases h.settles
  | _ => rfl

/-- An event that is no call of a port. -/
theorem note_alive (he : Idle e) (h : Alive limits run) :
    Alive limits { run with trace := run.trace ++ [e] } := by
  rcases h with hrun | ⟨f, herror, hsettled⟩
  · have hhot : Hot limits run.trace e { run with trace := run.trace ++ [e] } :=
      ⟨hrun.clocked.snoc he.no_reading run.world, rfl, hrun.fine, he.no_reading, he.unrecorded,
        ⟨hrun.counted.input, hrun.counted.output⟩⟩
    exact .inl (hhot.unharmed he.failure (he.counted _ _) he.accepted he.stored)
  · exact .inr ⟨f, herror, hsettled.snoc he.settles fun h => by cases h⟩

theorem Alive.over (h : Alive limits run) : Concluded limits run := by
  rcases h with h | ⟨f, h⟩
  · exact h.over
  · exact h.over

/-- The cipher has returned. -/
def Encrypted (limits : SealLimits) (result : Except SealPortError CipherCounts)
    (run : Run σ) : Prop :=
  (∃ t, Hot limits t (.Encrypted result) run) ∨ ∃ f, Shut limits f run

/-- The cipher asks for a write, or returns. -/
theorem note_hot (hsettles : e.settles = true) (hread : e.reading = [])
    (hrec : e.is_recorded = false) (h : Alive limits run) :
    (∃ t, Hot limits t e { run with trace := run.trace ++ [e] }) ∨
      ∃ f, Shut limits f { run with trace := run.trace ++ [e] } := by
  rcases h with hrun | ⟨f, herror, hsettled⟩
  · exact .inl ⟨run.trace, hrun.clocked.snoc hread run.world, rfl, hrun.fine, hread, hrec,
      ⟨hrun.counted.input, hrun.counted.output⟩⟩
  · exact .inr ⟨f, herror, hsettled.snoc hsettles fun h => by cases h⟩

theorem encrypt_alive (hlimits : limits.validate = .ok ()) (steps : Nat) :
    Triple (Alive limits) (encrypt p limits steps) (Encrypted limits) (Unwound limits) := by
  induction steps with
  | zero =>
    apply Triple.stop
    exact fun run hrun => Alive.over hrun
  | succ steps ih =>
    have htell : ∀ answer, Triple (Alive limits) (CipherAnswer.tell p answer : Seal σ Unit)
        (fun _ => Alive limits) (Unwound limits) := by
      rintro answer run (hrun | hshut)
      · exact .inl (hrun.same rfl ⟨rfl, rfl, rfl⟩ ⟨rfl, rfl⟩)
      · exact .inr hshut
    have hnext : Triple (Alive limits) (CipherStep.next p : Seal σ CipherStep)
        (fun _ => Alive limits) (Unwound limits) := by
      rintro run (hrun | hshut)
      · exact .inl (hrun.same rfl ⟨rfl, rfl, rfl⟩ ⟨rfl, rfl⟩)
      · exact .inr hshut
    unfold encrypt
    apply Triple.bind hnext
    intro step
    cases step with
    | Read output =>
      apply Triple.bind (read_alive hlimits output)
      intro r
      apply Triple.bind (Q := fun _ => Alive limits)
      · exact fun run hrun => note_alive ⟨rfl, rfl, rfl, rfl, rfl, fun _ _ => rfl⟩ hrun
      intro _
      apply Triple.bind (htell _)
      exact fun _ => ih
    | Write input =>
      apply Triple.bind (Q := fun _ => AliveAsked limits input)
      · exact fun run hrun => note_hot rfl rfl rfl hrun
      intro _
      apply Triple.bind (write_alive hlimits input)
      intro result
      apply Triple.bind (htell _)
      exact fun _ => ih
    | Flush =>
      apply Triple.bind flush_alive
      intro result
      apply Triple.bind (htell _)
      exact fun _ => ih
    | Return result =>
      apply Triple.bind (Q := fun _ => Encrypted limits result)
      · exact fun run hrun => note_hot rfl rfl rfl hrun
      intro _
      apply Triple.pure
      exact fun run hrun => hrun
    | Unwind =>
      apply Triple.bind (Q := fun _ => Alive limits)
      · exact fun run hrun => note_alive ⟨rfl, rfl, rfl, rfl, rfl, fun _ _ => rfl⟩ hrun
      intro _
      apply Triple.stop
      exact fun run hrun => Alive.over hrun

/-! ## The run -/

/-- The trace is settled, and when no failure is recorded nothing has gone wrong. -/
def Closed (limits : SealLimits) (run : Run σ) : Prop :=
  Concluded limits run ∧ (run.error = none → Fine limits run.trace)

/-- The cause of the report is the failure that was recorded. -/
def Caused (cause : SealFailure) (run : Run σ) : Prop := ∀ g, run.error = some g → cause = g

/-- The state in which a run stops. -/
def Ends (limits : SealLimits) : Stop → Run σ → Prop
  | .fail f, run => Closed limits run ∧ Caused f run
  | _, run => Concluded limits run

theorem Unharmed.closed (h : Unharmed limits run) : Closed limits run := ⟨h.over, fun _ => h.fine⟩

theorem Latched.ends {stop : Stop} (h : Latched limits stop run) : Ends limits stop run := by
  cases stop with
  | fail f =>
    refine ⟨⟨Shut.over h, ?_⟩, ?_⟩
    · intro hnone
      rw [h.1] at hnone
      cases hnone
    · intro g hg
      rw [h.1] at hg
      exact Option.some.inj hg
  | unwind => exact h
  | running => exact h

theorem Unharmed.ends (h : Unharmed limits run) (f : SealFailure) : Ends limits (.fail f) run := by
  refine ⟨h.closed, ?_⟩
  intro g hg
  rw [h.clocked.error] at hg
  cases hg

theorem check_ends : Triple (Unharmed limits) (Budget.check p limits)
    (fun _ => Unharmed limits) (Ends limits) :=
  check_unharmed.conseq (fun _ h => h) (fun _ _ h => h) fun _ _ h => h.ends

theorem stop_ends (f : SealFailure) {Q : α → Run σ → Prop} :
    Triple (Unharmed limits) (Prog.stop (.fail f) : Seal σ α) Q (Ends limits) :=
  Triple.stop fun _ hrun => hrun.ends f

/-- A call with a result that the budget sees. -/
theorem after_ends {failure : SealFailure} {result : Except SealPortError α}
    (hresult : e.failure = cause_of (map_err failure result))
    (hcount : ∀ t, miscounted limits t e = none) (haccepted : e.accepted = [])
    (hstored : e.stored = []) :
    Triple (fun run => ∃ t, Hot limits t e run) (Budget.after p limits (map_err failure result))
      (fun _ => Unharmed limits) (Ends limits) := by
  rintro run ⟨t, hrun⟩
  refine (after_hot hresult).conseq (fun _ h => h) ?_ (fun _ _ h => h.ends) run hrun
  rintro value run ⟨-, hrun⟩
  exact hrun.unharmed (hcount t) haccepted hstored

theorem call_ends {port : σ → Reply α × σ} {event : Reply α → Event}
    (hread : ∀ reply, (event reply).reading = [])
    (hrec : ∀ reply, (event reply).is_recorded = false)
    (hunwind : (event .unwind).failure = none) :
    Triple (Unharmed limits) (call port event)
      (fun value run => ∃ t, Hot limits t (event (.ret value)) run) (Ends limits) := by
  intro run hrun
  refine (call_hot (t := run.trace) hread hrec hunwind).conseq (fun _ h => h)
    (fun _ _ h => ⟨run.trace, h⟩) ?_ run ⟨hrun, rfl⟩
  rintro stop run ⟨rfl, hrun⟩
  exact hrun

theorem run_capabilities_ends : Triple (Unharmed limits) (run_capabilities p limits)
    (fun _ => Unharmed limits) (Ends limits) := by
  unfold run_capabilities
  apply Triple.bind check_ends
  intro _
  apply Triple.bind (Q := fun _ => Unharmed limits)
  · refine (call_ends (fun _ => rfl) (fun _ => rfl) rfl).conseq (fun _ h => h) ?_ (fun _ _ h => h)
    rintro caps run ⟨t, hrun⟩
    exact hrun.unharmed rfl rfl rfl rfl
  intro caps
  apply Triple.bind check_ends
  intro _
  split
  · exact stop_ends _
  · exact check_ends

theorem run_encrypt_ends (hlimits : limits.validate = .ok ()) (steps : Nat) :
    Triple (Unharmed limits) (run_encrypt p limits steps) (fun _ => Unharmed limits)
      (Ends limits) := by
  unfold run_encrypt
  apply Triple.bind ((encrypt_alive hlimits steps).conseq (fun _ h => .inl h) (fun _ _ h => h) ?_)
  · intro encrypted
    apply Triple.bind (Q := fun _ => Unharmed limits)
    · rintro run (hhot | ⟨f, hshut⟩)
      · exact after_ends (by cases encrypted <;> rfl) (fun _ => rfl) rfl rfl run hhot
      · exact ((after_shut f _).conseq (fun _ h => h) (fun _ _ h => h.elim)
          fun _ _ h => h.ends) run hshut
    intro reported
    apply Triple.get_bind
    intro start hstart
    have hfrom : ∀ run : Run σ, run = start → Unharmed limits run := by
      rintro run rfl
      exact hstart
    split
    · exact (stop_ends _).conseq (fun run h => hfrom run h) (fun _ _ h => h) fun _ _ h => h
    split
    · exact (stop_ends _).conseq (fun run h => hfrom run h) (fun _ _ h => h) fun _ _ h => h
    split
    · exact (stop_ends _).conseq (fun run h => hfrom run h) (fun _ _ h => h) fun _ _ h => h
    · apply Triple.pure
      exact fun run h => hfrom run h
  · intro stop run hrun
    cases stop with
    | fail f => exact hrun.elim
    | unwind => exact hrun
    | running => exact hrun

theorem run_complete_ends (input_count : Nat) :
    Triple (Unharmed limits) (run_complete p limits input_count) (fun _ => Unharmed limits)
      (Ends limits) := by
  unfold run_complete
  apply Triple.bind check_ends
  intro _
  apply Triple.bind (call_ends (fun _ => rfl) (fun _ => rfl) rfl)
  intro checked
  apply Triple.bind (after_ends (by cases checked <;> rfl) (fun _ => rfl) rfl rfl)
  intro summary
  apply Triple.bind (Q := fun _ => Unharmed limits)
  · cases summary.validate input_count with
    | ok _ => exact Triple.pure fun _ hrun => hrun
    | error failure => exact stop_ends _
  intro _
  apply Triple.bind check_ends
  intro _
  apply Triple.bind (call_ends (fun _ => rfl) (fun _ => rfl) rfl)
  intro completed
  apply Triple.modify_bind (M := fun run => ∃ t, Hot limits t (.Complete (.ret completed)) run)
  · rintro run ⟨t, hrun⟩
    exact ⟨t, ⟨hrun.clocked.error, hrun.clocked.start, hrun.clocked.last, hrun.clocked.last_le⟩,
      hrun.trace, hrun.fine, rfl, rfl, ⟨hrun.counted.input, hrun.counted.output⟩⟩
  apply Triple.bind (after_ends (by cases completed <;> rfl) (fun _ => rfl) rfl rfl)
  intro count
  split
  · exact stop_ends _
  · exact Triple.pure fun _ hrun => hrun

theorem run_publish_ends (counts : SealedCounts) :
    Triple (Unharmed limits) (run_publish p limits counts) (fun _ => Unharmed limits)
      (Ends limits) := by
  unfold run_publish
  apply Triple.bind check_ends
  intro _
  apply Triple.bind (call_ends (fun _ => rfl) (fun _ => rfl) rfl)
  intro flushed
  apply Triple.bind (after_ends (by cases flushed <;> rfl) (fun _ => rfl) rfl rfl)
  intro _
  apply Triple.bind check_ends
  intro _
  apply Triple.modify_bind (M := Unharmed limits)
  · exact fun run hrun => hrun.same rfl ⟨rfl, rfl, rfl⟩ ⟨rfl, rfl⟩
  apply Triple.bind (call_ends (fun _ => rfl) (fun _ => rfl) rfl)
  intro outcome
  apply Triple.modify_bind (M := Unharmed limits)
  · rintro run ⟨t, hrun⟩
    exact (hrun.unharmed rfl rfl rfl rfl).same rfl ⟨rfl, rfl, rfl⟩ ⟨rfl, rfl⟩
  apply Triple.bind check_ends
  intro _
  split
  · exact stop_ends _
  · exact Triple.pure fun _ hrun => hrun

theorem run_ends (hlimits : limits.validate = .ok ()) (steps : Nat) :
    Triple (Unharmed limits) (ArchiveSealer.run p limits steps) (fun _ => Unharmed limits)
      (Ends limits) := by
  unfold ArchiveSealer.run
  apply Triple.bind run_capabilities_ends
  intro _
  apply Triple.bind (run_encrypt_ends hlimits steps)
  intro counts
  apply Triple.bind (run_complete_ends _)
  intro summary
  exact run_publish_ends _

/-! ## The end -/

theorem cleanup_over {error : Option SealFailure} :
    Triple (fun run => Concluded limits run ∧ run.error = error) (Guard.cleanup p)
      (fun _ run => Concluded limits run ∧ run.error = error)
      (fun _ run => Concluded limits run ∧ run.error = error) := by
  have hcall : ∀ {α : Type} {port : σ → Reply α × σ} {event : Reply α → Event},
      (∀ reply, (event reply).settles = true) →
      (∀ t reply, fault limits t (event reply) = none ∧ (event reply).is_recorded = false) →
      Triple (fun run => Concluded limits run ∧ run.error = error) (call port event)
        (fun _ run => Concluded limits run ∧ run.error = error)
        (fun _ run => Concluded limits run ∧ run.error = error) := by
    rintro α port event hsettles hquiet run ⟨hover, herror⟩
    unfold call
    cases hp : port run.world with
    | mk reply world =>
      cases reply with
      | ret value => exact ⟨hover.snoc (hsettles _) fun _ => hquiet _ _, herror⟩
      | unwind => exact ⟨hover.snoc (hsettles _) fun _ => hquiet _ _, herror⟩
  apply Triple.bind (Q := fun _ run => Concluded limits run ∧ run.error = error)
  · unfold Guard.cancel_source
    apply Triple.get_bind
    intro start hstart
    split
    · apply Triple.modify_bind (M := fun run => Concluded limits run ∧ run.error = error)
      · rintro run rfl
        exact hstart
      apply Triple.bind (hcall (fun _ => rfl) fun _ _ => ⟨rfl, rfl⟩)
      exact fun _ run hrun => hrun
    · apply Triple.pure
      rintro run rfl
      exact hstart
  intro _
  unfold Guard.abort_stage
  apply Triple.get_bind
  intro start hstart
  split
  · apply Triple.modify_bind (M := fun run => Concluded limits run ∧ run.error = error)
    · rintro run rfl
      exact hstart
    apply Triple.bind (hcall (fun _ => rfl) fun _ _ => ⟨rfl, rfl⟩)
    exact fun _ run hrun => hrun
  · apply Triple.pure
    rintro run rfl
    exact hstart

/-- The calls of the cleanup do no harm. -/
theorem cleanup_fine : Cleaning p fun _ t => Fine limits t where
  cancel := fun _ _ h => h.snoc (not_wrong rfl rfl rfl rfl)
  abort := fun _ _ h => h.snoc (not_wrong rfl rfl rfl rfl)

/-- What the cleanup leaves of a closed run. -/
theorem Closed.cleanup (h : Closed limits run) :
    (Concluded limits (Guard.cleanup p run).2 ∧ (Guard.cleanup p run).2.error = run.error) ∧
      Closed limits (Guard.cleanup p run).2 := by
  have hover : Concluded limits (Guard.cleanup p run).2 ∧
    (Guard.cleanup p run).2.error = run.error :=
    cleanup_over.after ⟨h.1, rfl⟩
  refine ⟨hover, hover.1, ?_⟩
  intro hnone
  exact (cleanup_stable cleanup_fine).after (h.2 (hover.2.symm.trans hnone))

/-- A result that agrees with what is recorded. -/
def Agrees (limits : SealLimits) (run : Run σ) : Except SealFailureReport SealedCounts → Prop
  | .ok _ => Closed limits run ∧ run.error = none
  | .error report => Closed limits run ∧ Caused report.cause run

theorem Agrees.cleanup {result : Except SealFailureReport SealedCounts}
    (h : Agrees limits run result) : Agrees limits (Guard.cleanup p run).2 result := by
  cases result with
  | ok counts =>
    obtain ⟨⟨-, herror⟩, hclosed⟩ := h.1.cleanup (p := p)
    exact ⟨hclosed, herror.trans h.2⟩
  | error report =>
    obtain ⟨⟨-, herror⟩, hclosed⟩ := h.1.cleanup (p := p)
    exact ⟨hclosed, fun g hg => h.2 g (herror ▸ hg)⟩

theorem Agrees.over {result : Except SealFailureReport SealedCounts}
    (h : Agrees limits run result) : Concluded limits run := by
  cases result with
  | ok counts => exact h.1.1
  | error report => exact h.1.1

/-- How the run that is attempted ends. -/
def Attempts (limits : SealLimits) : Except SealFailure SealedCounts → Run σ → Prop
  | .ok _, run => Unharmed limits run
  | .error cause, run => Closed limits run ∧ Caused cause run

theorem sealed_ends (hlimits : limits.validate = .ok ()) (steps : Nat) (world : σ) :
    Triple (· = Run.new world) (sealed p limits steps)
      (fun result run => Agrees limits run result) (fun _ => Concluded limits) := by
  have hnew : Triple (· = Run.new world) (Budget.new p) (fun _ => Unharmed limits)
      (fun _ => Concluded limits) := by
    unfold Budget.new
    apply Triple.bind (Q := fun now run => ∃ world',
      run = { Run.new world with world := world', trace := [.Now (.ret now)] })
    · rintro run rfl
      unfold call
      cases hp : p.now_ms (Run.new world).world with
      | mk reply world' =>
        cases reply with
        | ret now => exact ⟨world', rfl⟩
        | unwind => exact (Fine.nil.unlatched.now .unwind).settled (Fine.nil.faultless.snoc rfl rfl)
    intro now
    apply Triple.modify
    rintro run ⟨world', rfl⟩
    have hreadings : Trace.readings [.Now (.ret now)] = [now] := rfl
    refine ⟨⟨rfl, rfl, by simp [hreadings], by simp [hreadings]⟩, ?_, ⟨rfl, rfl⟩⟩
    refine Fine.nil.snoc ?_
    rintro (⟨earlier, hearlier, -⟩ | ⟨start, hstart, -⟩)
    · cases hearlier
    · cases hstart
  unfold sealed
  apply Triple.bind hnew
  intro _
  apply Triple.bind (Q := Attempts limits)
  · apply Triple.attempt
    refine (run_ends hlimits steps).conseq (fun _ h => h) (fun _ _ h => h) ?_
    intro stop run hrun
    cases stop with
    | fail failure => exact hrun
    | unwind => exact hrun
    | running => exact hrun
  intro r
  cases r with
  | ok counts =>
    apply Triple.pure
    exact fun run hrun => ⟨hrun.closed, hrun.clocked.error⟩
  | error cause =>
    apply Triple.bind (Q := fun _ run => Closed limits run ∧ Caused cause run)
    · rintro run ⟨hclosed, hcause⟩
      have hafter := hclosed.cleanup (p := p)
      cases hcleanup : Guard.cleanup p run with
      | mk out run' =>
        rw [hcleanup] at hafter
        obtain ⟨⟨hover, herror⟩, hclosed'⟩ := hafter
        cases out with
        | ok _ => exact ⟨hclosed', fun g hg => hcause g (herror ▸ hg)⟩
        | error stop => exact hover
    intro _
    apply Triple.get_bind
    intro run hrun
    apply Triple.pure
    rintro _ rfl
    exact hrun

/-- The end of a run: the trace is settled, and a result agrees with it. -/
theorem seal_ends (sealer : ArchiveSealer) (p : Ports σ) (steps : Nat) (world : σ) :
    Concluded sealer.limits (sealer.seal_with_clock p steps world).2 ∧
      ∀ result, (sealer.seal_with_clock p steps world).1 = .returned result →
        Agrees sealer.limits (sealer.seal_with_clock p steps world).2 result := by
  have hsealed := @sealed_ends σ p sealer.limits sealer.valid steps world (Run.new world) rfl
  unfold ArchiveSealer.seal_with_clock
  cases hrun : sealed p sealer.limits steps (Run.new world) with
  | mk out run =>
    rw [hrun] at hsealed
    cases out with
    | ok result =>
      have hagrees := Agrees.cleanup (p := p) hsealed
      dsimp only
      cases hcleanup : Guard.cleanup p run with
      | mk r run' =>
        rw [hcleanup] at hagrees
        cases r with
        | ok _ =>
          refine ⟨hagrees.over, ?_⟩
          rintro _ ⟨⟩
          exact hagrees
        | error stop => exact ⟨hagrees.over, fun result hresult => by cases hresult⟩
    | error stop =>
      have hafter : Concluded sealer.limits (Guard.cleanup p run).2 ∧
          (Guard.cleanup p run).2.error = run.error := cleanup_over.after ⟨hsealed, rfl⟩
      cases hcleanup : Guard.cleanup p run with
      | mk r run' =>
        rw [hcleanup] at hafter
        cases stop with
        | running => exact ⟨hsealed, fun result hresult => by cases hresult⟩
        | fail f =>
          dsimp only
          rw [hcleanup]
          cases r with
          | ok _ => exact ⟨hafter.1, fun result hresult => by cases hresult⟩
          | error _ => exact ⟨hafter.1, fun result hresult => by cases hresult⟩
        | unwind =>
          dsimp only
          rw [hcleanup]
          cases r with
          | ok _ => exact ⟨hafter.1, fun result hresult => by cases hresult⟩
          | error _ => exact ⟨hafter.1, fun result hresult => by cases hresult⟩

end

/-- The first failure is recorded at once: a call that fails, an impossible count or a limit behind
which the clock was read, or a reading of the clock. What is recorded first is that failure, no
port is called behind it but for the cleanup, and the report names it. Nor is there any work behind
anything that goes wrong: when the sealer returns, such a failure was recorded. -/
theorem no_work_is_done_behind_the_first_failure {σ : Type} (sealer : ArchiveSealer)
    (p : Ports σ) (steps : Nat) (world : σ) :
    let out := sealer.seal_with_clock p steps world
    (∀ before e after f, out.2.trace = before ++ e :: after → Faultless sealer.limits before →
      fault sealer.limits before e = some f → ∃ rest, after = .Recorded f :: rest) ∧
    (∀ before f after, out.2.trace = before ++ .Recorded f :: after →
      (∀ g, .Recorded g ∉ before) →
      Blamed sealer.limits before f ∧
      (∀ e ∈ after, e.settles = true) ∧
      ∀ result, out.1 = .returned result → ∃ report, result = .error report ∧ report.cause = f) ∧
    ∀ before e after, out.2.trace = before ++ e :: after → Wrong sealer.limits before e →
      (∀ x ∈ after, x.is_work = false) ∧
      ∀ result, out.1 = .returned result → ∃ f, .Recorded f ∈ out.2.trace := by
  intro out
  obtain ⟨hover, hagrees⟩ := seal_ends sealer p steps world
  have hsettled : ∀ {t}, out.2.trace = t → Settled sealer.limits out.2.error t := by
    rintro t rfl
    exact hover
  refine ⟨?_, ?_, ?_⟩
  · intro before e after f htrace hbefore hfault
    exact (hsettled htrace).recorded hbefore hfault
  · intro before f after htrace hfirst
    have hbefore : ∀ e ∈ before, e.is_recorded = false := by
      intro e he
      cases e with
      | Recorded g => exact absurd he (hfirst g)
      | _ => rfl
    obtain ⟨herror, hblamed, hafter⟩ := (hsettled htrace).first hbefore
    refine ⟨hblamed, hafter, ?_⟩
    intro result hresult
    have hresult := hagrees result hresult
    cases result with
    | ok counts =>
      have hnone : out.2.error = none := hresult.2
      rw [herror] at hnone
      cases hnone
    | error report => exact ⟨report, rfl, hresult.2 f herror⟩
  · intro before e after htrace hwrong
    refine ⟨(hsettled htrace).no_work hwrong, ?_⟩
    intro result hresult
    have hclosed : Closed sealer.limits out.2 := by
      have hresult := hagrees result hresult
      cases result with
      | ok counts => exact hresult.1
      | error report => exact hresult.1
    cases herror : out.2.error with
    | none =>
      have hfine := hclosed.2 herror
      rw [htrace] at hfine
      exact absurd hwrong hfine.not_wrong
    | some f =>
      obtain ⟨start, settled, hsplit, -, -, hfirst⟩ := hclosed.1
      rcases hfirst with ⟨hnone, -⟩ | ⟨g, rest, -, rfl, -⟩
      · rw [herror] at hnone
        cases hnone
      · exact ⟨g, by rw [hsplit]; simp⟩

/-- A sealer for one byte. -/
def small_sealer : ArchiveSealer := ⟨⟨1, 1, 1000⟩, rfl⟩

/-- The stage takes nothing, and the cipher goes on as if it had. -/
def deaf_ports : Ports Nat where
  now_ms w := (.ret 0, w)
  read output w := (.ret ⟨List.replicate output.length 0, List.length_replicate, .ok 0⟩, w)
  complete w := (.ret (.ok 0), w)
  cancel w := (.ret .Cleaned, w)
  feed _ w := (.ret (.ok ()), w)
  finish w := (.ret (.ok ⟨0, 0, 0, 0⟩), w)
  cipher_step w := ([.Write [7]].getD w (.Return (.ok ⟨1, 1⟩)), w + 1)
  cipher_told _ w := w
  capabilities w := (.ret ⟨true, true, true⟩, w)
  write _ w := (.ret (.error .mk), w)
  flush w := (.ret (.ok ()), w)
  publish _ w := (.ret .Published, w)
  abort w := (.ret .Cleaned, w)

deriving instance DecidableEq for Event

/-- The cipher says that all went well, and the report names the stage. -/
theorem a_cipher_that_hears_nothing_is_stopped : ∃ before after report,
    (small_sealer.seal_with_clock deaf_ports 9 0).2.trace =
      before ++ .Recorded .StageWrite :: after ∧
    Blamed small_sealer.limits before .StageWrite ∧ (∀ e ∈ after, e.settles = true) ∧
      (small_sealer.seal_with_clock deaf_ports 9 0).1 = .returned (.error report) ∧
      report.cause = .StageWrite := by
  have htrace : (small_sealer.seal_with_clock deaf_ports 9 0).2.trace =
      (small_sealer.seal_with_clock deaf_ports 9 0).2.trace.take 8 ++ .Recorded .StageWrite ::
        (small_sealer.seal_with_clock deaf_ports 9 0).2.trace.drop 9 := by
    decide +kernel
  have hfirst : ((small_sealer.seal_with_clock deaf_ports 9 0).2.trace.take 8).any
      (·.is_recorded) = false := by
    decide +kernel
  have hreturned : (match (small_sealer.seal_with_clock deaf_ports 9 0).1 with
      | .returned _ => true
      | .unwound => false
      | .aborted => false
      | .running => false) = true := by
    decide +kernel
  obtain ⟨-, hlaw, -⟩ := no_work_is_done_behind_the_first_failure small_sealer deaf_ports 9 0
  obtain ⟨hblamed, hafter, hreport⟩ := hlaw _ _ _ htrace fun g hg => by
    rw [List.any_eq_false] at hfirst
    exact hfirst _ hg rfl
  cases hresult : (small_sealer.seal_with_clock deaf_ports 9 0).1 with
  | returned result =>
    obtain ⟨report, rfl, hcause⟩ := hreport result hresult
    exact ⟨_, _, report, htrace, hblamed, hafter, rfl, hcause⟩
  | _ =>
    rw [hresult] at hreturned
    cases hreturned

end openwrt_mcp_runtime.sealing
