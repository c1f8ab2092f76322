-- The audit log as a whole: how each request ended is what was recorded of it, and what was
-- recorded under a number is one rejection, or a start and its end.
import OpenwrtMcp.DeviceCalls

open json maps tasks text
open openwrt_mcp_core

namespace openwrt_mcp_runtime

/-! ## Numbers -/

def Happening.number : Happening → Option Nat
  | .answered _ .fetch_add number => some number
  | _ => none

/-- The numbers that were given to requests. -/
def drawn (history : History) : List Nat := history.filterMap Happening.number

/-- The numbers count up, and start again behind the last one. -/
structure Counted (history : History) (s : World) : Prop where
  next : s.sequence = ((drawn history).length + 1) % 2 ^ 64
  numbers : drawn history = (List.range (drawn history).length).map fun k => (k + 1) % 2 ^ 64

section
variable {history later : History} {m : Happening} {s s' : World}

theorem drawn_append : drawn (history ++ later) = drawn history ++ drawn later :=
  List.filterMap_append

theorem Counted.quiet (h : Counted history s) (hm : m.number = none)
    (hs : s'.sequence = s.sequence) : Counted (history ++ [m]) s' := by
  have hdrawn : drawn (history ++ [m]) = drawn history := by
    rw [drawn_append]
    exact (congrArg (drawn history ++ ·) (List.filterMap_cons_none hm)).trans (List.append_nil _)
  exact ⟨by rw [hs, hdrawn]; exact h.next, by rw [hdrawn]; exact h.numbers⟩

theorem exec_sequence {i : Nat} {c : Call} {a : Answer c} (h : exec i c s a s')
    (hc : c ≠ .fetch_add) : s'.sequence = s.sequence := by
  cases c with
  | fetch_add => exact absurd rfl hc
  | lock_entries =>
    obtain ⟨-, -, rfl⟩ := h
    rfl
  | store_failed | release_waiter | release_gate | release_permit | set_issued | unlock_slot
  | set_slot | nonce | begins | returns | unlock_entries | insert_entry =>
    obtain rfl := h
    rfl
  | _ =>
    obtain ⟨-, rfl⟩ := h
    rfl

theorem outside_sequence {e : Event} (h : outside s e s') : s'.sequence = s.sequence := by
  cases e with
  | turns =>
    obtain rfl := h
    rfl
  | gives_back =>
    obtain ⟨ok, -, rfl⟩ := h
    rfl
  | _ =>
    obtain ⟨-, rfl⟩ := h
    rfl

theorem counted (d : Dispatcher) (time : Nat) (epoch : Option Nat) :
    Invariant (d.system time epoch) Counted where
  initial := ⟨rfl, rfl⟩
  start _ _ h := h.quiet rfl rfl
  late _ h := h.quiet rfl rfl
  cancelled _ h := h.quiet rfl rfl
  outside h hout := h.quiet rfl (outside_sequence hout)
  call := by
    intro history s i c a s' h hexec
    by_cases hc : c = .fetch_add
    · subst hc
      obtain ⟨rfl, rfl⟩ := hexec
      have hdrawn : drawn (history ++ [.answered i .fetch_add s.sequence]) =
          drawn history ++ [s.sequence] := drawn_append
      refine ⟨?_, ?_⟩
      · rw [hdrawn, List.length_append]
        show (s.sequence + 1) % 2 ^ 64 = ((drawn history).length + 1 + 1) % 2 ^ 64
        rw [h.next]
        omega
      · rw [hdrawn, List.length_append]
        show _ = (List.range ((drawn history).length + 1)).map _
        rw [List.range_succ, List.map_append, ← h.numbers, h.next]
        rfl
    · refine h.quiet ?_ (exec_sequence hexec hc)
      cases c with
      | fetch_add => exact absurd rfl hc
      | _ => rfl

/-- As long as there are enough of them, no number is given twice. -/
theorem Counted.nodup (h : Counted history s) (hfew : (drawn history).length ≤ 2 ^ 64) :
    (drawn history).Nodup := by
  rw [h.numbers]
  refine List.Nodup.map_on ?_ List.nodup_range
  intro x hx y hy heq
  rw [List.mem_range] at hx hy
  omega

end

/-! ## The log -/

/-- What is recorded of one request. -/
inductive Trail : List AuditEvent → Prop
  | nothing : Trail []
  | rejected {rejection : AuditEvent} (phase : rejection.phase = .Rejection) : Trail [rejection]
  | started {start : AuditEvent} (phase : start.phase = .Start) : Trail [start]
  | finished {start finish : AuditEvent} (first : start.phase = .Start)
      (last : finish.phase = .Finish) : Trail [start, finish]

section
variable {d : Dispatcher} {time : Nat} {epoch : Option Nat} {history : History} {event : AuditEvent}
  {p : Pool World Call Answer Nat (Except RuntimeError Reply)} {i j : Nat}

/-- The log of a number. -/
def log_of (number : Nat) (history : History) : List AuditEvent :=
  (spawned history).filter fun event => event.request_sequence = number

theorem Dispatcher.Fits.trail {r : Request} {told : Told} (h : d.Fits r told event) :
    Trail (events told ++ [event]) := by
  cases h with
  | rejection hnothing hphase =>
    rw [hnothing]
    exact .rejected hphase
  | start _ hnothing hphase =>
    rw [hnothing]
    exact .started hphase
  | finish hstarted hphase =>
    obtain ⟨start, hstart, hfirst, -⟩ := hstarted.start
    rw [hstart]
    exact .finished hfirst hphase

theorem events_snoc (history : History) (m : Happening) :
    events (answers i (history ++ [m])) =
      events (answers i history) ++ ((m.told i).bind fun x => x.1.event).toList := by
  rw [answers_snoc, events_append]
  cases m.told i with
  | none => rfl
  | some x =>
    cases hx : x.1.event with
    | none => simp [events, hx]
    | some event => simp [events, hx]

/-- Each request leaves a trail, whatever the others do. -/
theorem answers_trail (h : Reached (d.system time epoch) history p) :
    Trail (events (answers i history)) := by
  induction h with
  | start => exact .nothing
  | @step history p m q hreached hstep ih =>
    rw [events_snoc]
    cases htold : m.told i with
    | none =>
      rw [Option.bind_none, Option.toList_none, List.append_nil]
      exact ih
    | some x =>
      obtain ⟨c, a⟩ := x
      obtain rfl := told_eq_some htold
      cases hc : c.event with
      | none =>
        rw [Option.bind_some, hc, Option.toList_none, List.append_nil]
        exact ih
      | some event =>
        cases c with
        | spawn_record given =>
          cases hc
          obtain ⟨r, -, hrecords⟩ := ((hreached.step hstep).decided (program_spec d)).1 history [] i
            (.spawn_record event) a rfl
          exact hrecords.fits.trail
        | _ => cases hc

theorem spawned_numbered (h : Reached (d.system time epoch) history p) {worker : Nat}
    (hmem : .answered i (.spawn_record event) worker ∈ history) :
    (answers i history).head? = some ⟨.fetch_add, event.request_sequence⟩ := by
  obtain ⟨before, later, rfl⟩ := List.append_of_mem hmem
  obtain ⟨r, -, hrecords⟩ := (h.decided (program_spec d)).1 before later i _ _ rfl
  rw [answers_append, List.head?_append, hrecords.sequence]
  rfl

/-- Two requests never have the same number. -/
theorem numbers_differ (h : Reached (d.system time epoch) history p)
    (hfew : (drawn history).length ≤ 2 ^ 64) {number : Nat}
    (hi : (answers i history).head? = some ⟨.fetch_add, number⟩)
    (hj : (answers j history).head? = some ⟨.fetch_add, number⟩) : i = j := by
  by_contra hne
  have hi := mem_answers.1 (List.mem_of_mem_head? hi)
  have hj := mem_answers.1 (List.mem_of_mem_head? hj)
  have hnodup := ((counted d time epoch).reached h).nodup hfew
  obtain ⟨before, later, rfl⟩ := List.append_of_mem hi
  have hdrawn : drawn (before ++ .answered i .fetch_add number :: later) =
      drawn before ++ number :: drawn later := drawn_append
  rw [hdrawn, List.nodup_append] at hnodup
  obtain ⟨-, hlater, hbefore⟩ := hnodup
  rcases List.mem_append.1 hj with hj | hj
  · have hmem : number ∈ drawn before := List.mem_filterMap.2 ⟨_, hj, rfl⟩
    exact hbefore number hmem number (List.mem_cons_self ..) rfl
  · rcases List.mem_cons.1 hj with hj | hj
    · cases hj
      exact hne rfl
    · exact (List.nodup_cons.1 hlater).1 (List.mem_filterMap.2 ⟨_, hj, rfl⟩)

theorem event_eq_some {m : Happening} (h : m.event = some event) :
    ∃ (i worker : Nat), m = .answered i (.spawn_record event) worker := by
  cases m with
  | answered i c a =>
    cases c with
    | spawn_record given =>
      cases h
      exact ⟨i, a, rfl⟩
    | _ => cases h
  | _ => cases h

/-- The log of a number is the trail of the one request that has it. -/
theorem log_of_request (h : Reached (d.system time epoch) history p)
    (hfew : (drawn history).length ≤ 2 ^ 64) {number : Nat}
    (hi : (answers i history).head? = some ⟨.fetch_add, number⟩) :
    log_of number history = events (answers i history) := by
  unfold log_of spawned events answers
  rw [List.filter_filterMap, List.filterMap_filterMap]
  refine List.filterMap_congr fun m hm => ?_
  cases hevent : m.event with
  | none =>
    cases htold : m.told i with
    | none => rfl
    | some x =>
      obtain ⟨c, a⟩ := x
      obtain rfl := told_eq_some htold
      exact hevent.symm
  | some event =>
    obtain ⟨j, worker, rfl⟩ := event_eq_some hevent
    have hj := spawned_numbered h hm
    by_cases hsame : j = i
    · subst hsame
      rw [told_answered]
      have hnumber : number = event.request_sequence := by
        cases hi.symm.trans hj
        rfl
      exact if_pos (decide_eq_true hnumber.symm)
    · have hne : event.request_sequence ≠ number := by
        rintro rfl
        exact hsame (numbers_differ h hfew hj hi)
      rw [Moment.told, if_neg hsame]
      exact if_neg (by simpa using hne)

theorem mem_spawned (h : event ∈ spawned history) :
    ∃ (i worker : Nat), .answered i (.spawn_record event) worker ∈ history := by
  obtain ⟨m, hmem, hm⟩ := List.mem_filterMap.1 h
  obtain ⟨i, worker, rfl⟩ := event_eq_some hm
  exact ⟨i, worker, hmem⟩

/-- What is in the log of a number is of one request. -/
theorem log_owner (h : Reached (d.system time epoch) history p)
    (hfew : (drawn history).length ≤ 2 ^ 64) {number : Nat}
    (hevent : event ∈ log_of number history) :
    ∃ (i : Nat) (r : Request), .started i r ∈ history ∧
      log_of number history = events (answers i history) := by
  obtain ⟨hspawned, hnumber⟩ := List.mem_filter.1 hevent
  obtain rfl := of_decide_eq_true hnumber
  obtain ⟨i, worker, hmem⟩ := mem_spawned hspawned
  obtain ⟨before, later, hsplit⟩ := List.append_of_mem hmem
  obtain ⟨r, hstarted, -⟩ := (h.decided (program_spec d)).1 before later i _ _ hsplit
  exact ⟨i, r, hsplit ▸ List.mem_append_left _ hstarted,
    log_of_request h hfew (spawned_numbered h hmem)⟩

theorem log_trail (h : Reached (d.system time epoch) history p)
    (hfew : (drawn history).length ≤ 2 ^ 64) (number : Nat) : Trail (log_of number history) := by
  rcases List.eq_nil_or_concat (log_of number history) with hnil | ⟨first, last, hlog⟩
  · rw [hnil]
    exact .nothing
  · have hmem : last ∈ log_of number history := by
      rw [hlog, List.concat_eq_append]
      exact List.mem_concat_self
    obtain ⟨i, -, -, howned⟩ := log_owner h hfew hmem
    rw [howned]
    exact answers_trail h

theorem log_kind (h : Reached (d.system time epoch) history p)
    (hfew : (drawn history).length ≤ 2 ^ 64) {number : Nat} {other : AuditEvent}
    (hevent : event ∈ log_of number history) (hother : other ∈ log_of number history) :
    event.kind = other.kind := by
  obtain ⟨i, r, hstarted, howned⟩ := log_owner h hfew hevent
  rw [howned] at hevent hother
  exact (event_numbered h hstarted hevent).2.trans (event_numbered h hstarted hother).2.symm

/-- The end of a request is recorded only after the sink took its start. -/
theorem finish_after_start (h : Reached (d.system time epoch) history p) {before later : History}
    {finish : AuditEvent} {worker : Nat}
    (hsplit : history = before ++ .answered i (.spawn_record finish) worker :: later)
    (hphase : finish.phase = .Finish) :
    ∃ start, start.phase = .Start ∧ start.request_sequence = finish.request_sequence ∧
      start.kind = finish.kind ∧ Written before start := by
  obtain ⟨r, hstarted, hnumber, hkind, hfits⟩ :=
    (h.decided (program_spec d)).1 before later i _ _ hsplit
  obtain ⟨q, s', hreached, -⟩ := h.exec_at hsplit
  cases hfits with
  | rejection _ hother =>
    rw [hphase] at hother
    cases hother
  | start _ _ hother =>
    rw [hphase] at hother
    cases hother
  | finish hbegun _ =>
    obtain ⟨start, hstart, hfirst, hrecorded⟩ := hbegun.start
    have hmem : start ∈ events (answers i before) := by
      rw [hstart]
      exact List.mem_singleton.2 rfl
    obtain ⟨hnumber', hkind'⟩ := event_numbered hreached hstarted hmem
    have hsame : start.request_sequence = finish.request_sequence := by
      simpa using hnumber'.symm.trans hnumber
    exact ⟨start, hfirst, hsame, hkind'.trans hkind.symm, hrecorded.written hreached⟩

/-- Under each number there is nothing in the log, one rejection, one start, or a start and then one
end, all of one kind, and no end is given out to write before the sink has taken the start. -/
theorem the_log_tells_of_one_request_under_a_number
    (h : Reached (d.system time epoch) history p) (hfew : (drawn history).length ≤ 2 ^ 64) :
    (∀ number, Trail (log_of number history) ∧ ∀ event ∈ log_of number history,
      ∀ other ∈ log_of number history, event.kind = other.kind) ∧
    ∀ before later i finish worker,
      history = before ++ .answered i (.spawn_record finish) worker :: later →
      finish.phase = .Finish → ∃ start, start.phase = .Start ∧
        start.request_sequence = finish.request_sequence ∧ start.kind = finish.kind ∧
        Written before start :=
  ⟨fun number => ⟨log_trail h hfew number, fun _ hevent _ hother => log_kind h hfew hevent hother⟩,
    fun _ _ _ _ _ hsplit hphase => finish_after_start h hsplit hphase⟩

/-- The start and the end of the one request are in the log. -/
def logs_both (scene : Scene (scanner.system 0 (some 1))) : Bool :=
  decide ((drawn scene.1).length ≤ 2 ^ 64) && (log_of 1 scene.1).length = 2

theorem the_log_of_a_scan_is_its_start_and_its_end :
    ∃ scene, played (scan_script 36) = some scene ∧ (log_of 1 scene.1).length = 2 ∧
      Trail (log_of 1 scene.1) := by
  obtain ⟨scene, hscene, hreached, hseen⟩ :=
    played_to (scan_script 36) logs_both (by decide +kernel)
  obtain ⟨hfew, hlength⟩ := (Bool.and_eq_true ..).mp hseen
  exact ⟨scene, hscene, of_decide_eq_true hlength,
    ((the_log_tells_of_one_request_under_a_number hreached (of_decide_eq_true hfew)).1 1).1⟩

/-! ## Ends -/

/-- A request that has ended was rejected, or could not start, or its end could not be recorded, or
the outcome that the sink took is the one that it had. Only a page can get lost after that. -/
theorem a_request_ends_as_it_is_recorded (h : Reached (d.system time epoch) history p) :
    ∀ i result, p.running[i]? = some (.active (.done result)) →
      ∃ r, .started i r ∈ history ∧ Ended ⟨r, answers i history⟩ result ∧
        ∀ event, Recorded event (answers i history) → Written history event := by
  intro i result hdone
  obtain ⟨r, hstarted, hended⟩ := (h.decided (program_spec d)).2 i result hdone
  exact ⟨r, hstarted, hended, fun _ hrecorded => hrecorded.written h⟩

def succeeded : Running Call Answer Nat (Except RuntimeError Reply) → Bool
  | .active (.done result) => result.toBool
  | _ => false

/-- The first request has ended well. -/
def ends_well (scene : Scene (scanner.system 0 (some 1))) : Bool :=
  (scene.2.running[0]?).any succeeded

theorem a_scan_ends_as_it_is_recorded :
    ∃ scene, played (scan_script 36 ++ written 1 ++ List.replicate 3 (.turn 0)) = some scene ∧
      ends_well scene = true ∧
      ∀ i result, scene.2.running[i]? = some (.active (.done result)) →
        ∃ r, .started i r ∈ scene.1 ∧ Ended ⟨r, answers i scene.1⟩ result ∧
          ∀ event, Recorded event (answers i scene.1) → Written scene.1 event := by
  obtain ⟨scene, hscene, hreached, hseen⟩ :=
    played_to (scan_script 36 ++ written 1 ++ List.replicate 3 (.turn 0)) ends_well
      (by decide +kernel)
  exact ⟨scene, hscene, hseen, a_request_ends_as_it_is_recorded hreached⟩

end

end openwrt_mcp_runtime
