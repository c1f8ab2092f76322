-- Once the sink has refused a record, nothing is recorded any more. A request that waits for its
-- record and does not see it written closes the latch, and every request that starts after that
-- fails, and asks the device for nothing.
import OpenwrtMcp.AuditGate
import OpenwrtMcp.CacheInvariant

open json maps tasks text
open openwrt_mcp_core
open tasks.Fallible (attempt)

namespace openwrt_mcp_runtime

/-- The sink has returned an error. -/
def Refused (history : History) : Prop :=
  ∃ worker, .happened (.record_returns worker false) ∈ history

/-- A request has closed the latch. -/
def Stored (history : History) : Prop := ∃ i, .answered i .store_failed () ∈ history

def Stopped (history : History) : Prop := Refused history ∨ Stored history

/-- The thread says that the record was written, or the latch is closed because it does not. -/
def resolves : (c : Call) → Answer c → Bool
  | .join _, ok => ok
  | .store_failed, _ => true
  | _, _ => false

/-- A place to wait is given back right after its record was written, or the latch was closed. -/
def GivenBack (told : Told) : Prop :=
  ∀ before after, told = before ++ ⟨.release_waiter, ()⟩ :: after →
    ∃ first x, before = first ++ [x] ∧ resolves x.1 x.2 = true

/-- What a request knows of the latch: whether it is late, because a record had failed when it
started, and whether it has seen the latch open since it has the gate. `resolved` is about its last
call, and `lost` says that it has given back a place before its record was resolved. -/
structure Latch where
  late : Bool
  gate : Bool
  checked : Bool
  resolved : Bool
  lost : Bool

namespace Latch

def fresh (late : Bool) : Latch := ⟨late, false, false, false, false⟩

/-- A late request asks no device, and nothing is recorded but under an open latch. -/
def may (l : Latch) : Call → Prop
  | .begins _ => l.late = false
  | .spawn_record _ => l.checked = true
  | _ => True

def knows (l : Latch) : (c : Call) → Answer c → Prop
  | .load_failed, failed => l.late = true → l.gate = true → failed = true
  | _, _ => True

def after (l : Latch) (c : Call) (a : Answer c) : Latch where
  late := l.late
  gate := match c with
    | .acquire_gate => true
    | .release_gate => false
    | .spawn_record _ => false
    | _ => l.gate
  checked := match c, a with
    | .load_failed, failed => l.gate && !failed
    | .acquire_gate, _ => false
    | .release_gate, _ => false
    | .spawn_record _, _ => false
    | _, _ => l.checked
  resolved := resolves c a
  lost := match c with
    | .release_waiter => l.lost || !l.resolved
    | _ => l.lost

/-- The gate is not held, and no place was given back too early. -/
structure Calm (late : Bool) (l : Latch) : Prop where
  late : l.late = late
  gate : l.gate = false
  lost : l.lost = false

end Latch

def latching : Contract Latch Call Answer where
  may := Latch.may
  knows := Latch.knows
  after := Latch.after

/-! ## Requests -/

namespace Latch

section
variable {d : Dispatcher} {l : Latch} {late : Bool} {α : Type}

theorem fresh_calm (late : Bool) : (fresh late).Calm late := ⟨rfl, rfl, rfl⟩

theorem record_spec {event : AuditEvent} (h : l.Calm late) :
    Safe latching (fun l' r => l'.Calm late ∧ (r = .ok () → late = false ∧ l'.resolved = true))
      (Calm late) (Dispatcher.record event).run l := by
  unfold Dispatcher.record
  refine Safe.then_await trivial h fun _ _ => ?_
  refine Safe.then_ask trivial fun failed hfailed => ?_
  split
  · refine Safe.then_ask trivial fun _ _ => ?_
    exact ⟨⟨h.late, rfl, h.lost⟩, fun hr => by cases hr⟩
  · rename_i hopen
    rw [Bool.not_eq_true] at hopen
    subst hopen
    have hearly : late = false := by
      by_contra hlate
      have hlate : l.late = true := h.late.trans (Bool.not_eq_false _ ▸ hlate)
      cases hfailed hlate rfl
    refine Safe.then_ask rfl fun worker _ => ?_
    refine Safe.then_await trivial ⟨h.late, rfl, h.lost⟩ fun ok _ => ?_
    split
    · rename_i hok
      exact ⟨⟨h.late, rfl, h.lost⟩, fun _ => ⟨hearly, hok⟩⟩
    · exact ⟨⟨h.late, rfl, h.lost⟩, fun hr => by cases hr⟩

theorem record_waiting_spec {event : AuditEvent} (h : l.Calm late) :
    Safe latching (fun l' r => (l'.Calm late ∧ l'.resolved = true) ∧
        (late = true → r = .error .AuditUnavailable))
      (fun _ => True) (d.record_waiting event).run l := by
  unfold Dispatcher.record_waiting
  refine Safe.then_ask trivial fun now _ => ?_
  have hcalm : (latching.after l .now now).Calm late := ⟨h.late, h.gate, h.lost⟩
  refine Safe.then_attempt ((Safe.fallible_timeout (record_spec hcalm)
    fun _ hl => ⟨hl, fun hr => by cases hr⟩).conseq (fun _ _ hl => hl) fun _ _ => trivial)
    fun l' r h' => ?_
  cases r with
  | ok _ =>
    obtain ⟨hearly, hresolved⟩ := h'.2 rfl
    exact ⟨⟨h'.1, hresolved⟩, fun hlate => by rw [hearly] at hlate; cases hlate⟩
  | error e =>
    exact Safe.then_ask trivial fun _ _ => ⟨⟨⟨h'.1.late, h'.1.gate, h'.1.lost⟩, rfl⟩, fun _ => rfl⟩

theorem record_audit_spec {event : AuditEvent} (h : l.Calm late) :
    Safe latching (fun l' r => l'.Calm late ∧ (late = true → r = .error .AuditUnavailable))
      (fun _ => True) (d.record_audit event).run l := by
  unfold Dispatcher.record_audit
  refine Safe.then_ask trivial fun failed _ => ?_
  split
  · exact ⟨⟨h.late, h.gate, h.lost⟩, fun _ => rfl⟩
  refine Safe.then_ask trivial fun place _ => ?_
  split
  · have hcalm : (latching.after (latching.after l .load_failed failed) .try_acquire_waiter
        place).Calm late := ⟨h.late, h.gate, h.lost⟩
    rw [Safe.fallible_holding_iff]
    refine (record_waiting_spec hcalm).conseq ?_ ?_
    · rintro l' r ⟨⟨hcalm, hresolved⟩, hlate⟩
      refine ⟨trivial, fun _ _ => ⟨⟨hcalm.late, hcalm.gate, ?_⟩, hlate⟩⟩
      show (l'.lost || !l'.resolved) = false
      rw [hcalm.lost, hresolved]
      rfl
    · exact fun _ _ => ⟨trivial, fun _ _ => trivial⟩
  · exact ⟨⟨h.late, h.gate, h.lost⟩, fun _ => rfl⟩

/-! ### A request that is not late -/

theorem calm_parts : Dispatcher.KeepsParts latching (Calm false)
    [.Sequence, .Readings, .Permits, .Entries, .Evidence, .Flags, .Issued, .Slot, .Probe,
      .Device] := by
  rintro c hc l h
  cases c with
  | load_failed | store_failed | try_acquire_waiter | release_waiter | acquire_gate | release_gate
  | spawn_record | join => cases hc
  | begins call => exact ⟨h.late, fun _ _ => ⟨h.late, h.gate, h.lost⟩⟩
  | _ => exact ⟨trivial, fun _ _ => ⟨h.late, h.gate, h.lost⟩⟩

/-- Whoever is dropped may give back what it holds. -/
theorem slot_part : Dispatcher.KeepsParts latching (fun _ => True) [.Slot] := by
  intro c hc l _
  cases c with
  | begins call => cases call <;> cases hc
  | spawn_record event => cases hc
  | _ => exact ⟨trivial, fun _ _ => trivial⟩

theorem keeps_record_audit {event : AuditEvent} :
    Keeps latching (Calm false) (fun _ => True) (d.record_audit event).run :=
  fun _ h => (record_audit_spec h).conseq (fun _ _ hl => hl.1) fun _ hl => hl

theorem sides (d : Dispatcher) : Dispatcher.Sides latching (Calm false) (fun _ => True) d where
  dropped _ _ := trivial
  release _ _ := ⟨trivial, fun _ _ => trivial⟩
  common c hc := calm_parts c (hc.widen (by decide))
  record _ := keeps_record_audit
  page _ _ _ _ _ := Dispatcher.keeps_invoke_page (fun _ _ => trivial)
    (fun c hc => calm_parts c (hc.widen (by decide)))
    (fun c hc => calm_parts c (hc.widen (by decide))) slot_part fun _ => keeps_record_audit
  execute _ _ _ := calm_parts.calls (fun _ hl => hl) Dispatcher.calls_execute (by decide)
  status _ _ _ := calm_parts.calls (fun _ hl => hl) Dispatcher.calls_observed_status (by decide)

/-! ### A request that is late -/

/-- The request is late, and if it has failed, the audit is why. -/
def Denied (l : Latch) (result : Except RuntimeError α) : Prop :=
  l.Calm true ∧ ∀ e, result = .error e → e = .AuditUnavailable

/-- The request is late and has failed. -/
def Closed (l : Latch) (result : Except RuntimeError α) : Prop :=
  l.Calm true ∧ result = .error .AuditUnavailable

theorem Closed.denied {result : Except RuntimeError α} (h : l.Closed result) : l.Denied result := by
  obtain ⟨hcalm, rfl⟩ := h
  exact ⟨hcalm, fun e he => (Except.error.inj he).symm⟩

theorem late_record_event (h : l.Calm true) {sequence : Nat} {phase : AuditPhase} {name : Str}
    {outcome : AuditOutcome} {duration_ms : Option Nat} {kind : AuditKind} :
    Safe latching Closed (fun _ => True)
      (d.record_event sequence phase name outcome duration_ms kind).run l := by
  refine Safe.then_ask trivial fun timestamp_ms _ => ?_
  have hcalm : (latching.after l .system_now timestamp_ms).Calm true := ⟨h.late, h.gate, h.lost⟩
  refine (record_audit_spec hcalm).conseq ?_ fun _ hl => hl
  exact fun _ _ hl => ⟨hl.1, hl.2 rfl⟩

/-- A part that fails, and whatever would come behind it. -/
theorem closed_then {β : Type} {p : Program α} {f : α → Program β}
    (h : Safe latching Closed (fun _ => True) p.run l) :
    Safe latching Closed (fun _ => True) (p >>= f).run l := by
  refine Safe.and_then h ?_ ?_
  · rintro _ _ ⟨-, hr⟩
    cases hr
  · rintro _ _ ⟨hcalm, hr⟩
    exact ⟨hcalm, congrArg Except.error (Except.error.inj hr)⟩

theorem late_authorize (h : l.Calm true) {name : Str} {sequence : Nat} {kind : AuditKind} :
    Safe latching Denied (fun _ => True) (d.authorize name sequence kind).run l := by
  unfold Dispatcher.authorize
  split
  · exact (closed_then (late_record_event h)).conseq (fun _ _ h => h.denied) fun _ h => h
  · split
    · exact (closed_then (late_record_event h)).conseq (fun _ _ h => h.denied) fun _ h => h
    · exact ⟨h, fun e he => by cases he⟩

theorem late_admission (h : l.Calm true) {operation : Operation} {sequence : Nat}
    {kind : AuditKind} :
    Safe latching Closed (fun _ => True) (d.admit_operation operation sequence kind).run l := by
  unfold Dispatcher.admit_operation
  refine Safe.then_ask trivial fun permit _ => ?_
  split
  · rw [Safe.guarding_iff]
    refine (late_record_event ⟨h.late, h.gate, h.lost⟩).conseq ?_
      fun _ _ => ⟨trivial, fun _ _ => trivial⟩
    rintro l' _ ⟨hcalm, rfl⟩
    exact ⟨trivial, fun _ _ => ⟨⟨hcalm.late, hcalm.gate, hcalm.lost⟩, rfl⟩⟩
  · exact closed_then (late_record_event ⟨h.late, h.gate, h.lost⟩)

/-- The operation is authorized, and the rest fails. -/
theorem denied_then {β : Type} {p : Program α} {f : α → Program β}
    (h : Safe latching Denied (fun _ => True) p.run l)
    (hf : ∀ (l : Latch) a, l.Calm true → Safe latching Closed (fun _ => True) (f a).run l) :
    Safe latching Closed (fun _ => True) (p >>= f).run l := by
  refine Safe.and_then h ?_ ?_
  · rintro l' a ⟨hcalm, -⟩
    exact hf l' a hcalm
  · rintro _ e ⟨hcalm, he⟩
    exact ⟨hcalm, congrArg Except.error (he e rfl)⟩

theorem late_invoke (h : l.Calm true) {name : Str} {arguments : Value} :
    Safe latching Closed (fun _ => True) (d.invoke name arguments).run l := by
  unfold Dispatcher.invoke
  refine Safe.then_ask trivial fun sequence _ => ?_
  have hcalm : (latching.after l .fetch_add sequence).Calm true := ⟨h.late, h.gate, h.lost⟩
  refine denied_then (late_authorize hcalm) fun l' operation hcalm => ?_
  split
  · exact closed_then (late_record_event hcalm)
  · exact closed_then (late_admission hcalm)

theorem late_capability_status (h : l.Calm true) {arguments : Value} :
    Safe latching Closed (fun _ => True) (d.capability_status arguments).run l := by
  unfold Dispatcher.capability_status
  refine Safe.then_ask trivial fun sequence _ => ?_
  have hcalm : (latching.after l .fetch_add sequence).Calm true := ⟨h.late, h.gate, h.lost⟩
  split
  · exact closed_then (late_record_event hcalm)
  split
  · exact closed_then (late_record_event hcalm)
  refine denied_then (late_authorize hcalm) fun l' operation hcalm => ?_
  split
  · exact closed_then (late_admission hcalm)
  · exact closed_then (late_record_event hcalm)

/-- How a request ends. -/
def Ended (l : Latch) (result : Except RuntimeError α) : Prop :=
  l.lost = false ∧ (l.late = true → result = .error .AuditUnavailable)

theorem program_spec (r : Request) (late : Bool) :
    Safe latching Ended (fun _ => True) (d.program r) (fresh late) := by
  cases late with
  | false =>
    refine ((sides d).program r _ (fresh_calm false)).conseq ?_ fun _ _ => trivial
    intro l result hcalm
    exact ⟨hcalm.lost, fun hlate => by rw [hcalm.late] at hlate; cases hlate⟩
  | true =>
    have hclosed : Safe latching Closed (fun _ => True) (d.program r) (fresh true) := by
      cases r with
      | invoke name arguments => exact closed_then (late_invoke (fresh_calm true))
      | capability_status arguments => exact closed_then (late_capability_status (fresh_calm true))
    exact hclosed.conseq (fun _ _ h => ⟨h.1.lost, fun _ => h.2⟩) fun _ h => h

end

end Latch

/-! ## Runs -/

/-- The latch is closed, or a thread is about to close it. -/
def World.stopped (s : World) : Bool :=
  s.audit_failed || s.workers.any fun worker => decide (worker.phase = .Failing)

/-- Whether a request is late. -/
def late_of (ls : List (Waiter × Latch)) (i : Nat) : Option Bool := (ls[i]?).map fun x => x.2.late

/-- What a request knows is so: it knows of the gate, and of the records before. -/
structure Informed (history : History) (i : Nat) (w : Waiter) (l : Latch) : Prop where
  gate : w.gate = l.gate
  late : l.late = true → Stopped history
  checked : l.checked = true → l.gate = true ∧ ¬ Refused history
  resolved : l.resolved = true →
    ∃ first x, answers i history = first ++ [x] ∧ resolves x.1 x.2 = true
  given : l.lost = false → GivenBack (answers i history)

/-- The latch is closed, or about to be, when a record has failed, and the late ones are those that
started after. -/
structure LatchState (history : History) (s : World) (ls : List (Waiter × Latch)) : Prop where
  stopped : s.stopped = true ↔ Stopped history
  stored : Stored history → s.audit_failed = true
  informed : ∀ (i : Nat) (w : Waiter) (l : Latch), ls[i]? = some (w, l) → Informed history i w l
  started : ∀ (before later : History) (i : Nat) (r : Request),
    history = before ++ .started i r :: later → Stopped before → late_of ls i = some true
  asked : ∀ (i : Nat) (call : BackendCall), .answered i (.begins call) () ∈ history →
    late_of ls i = some false
  spawned : ∀ (before later : History) (i : Nat) (event : AuditEvent) (worker : Nat),
    history = before ++ .answered i (.spawn_record event) worker :: later → ¬ Refused before

section
variable {history later : History} {s s' : World} {ls : List (Waiter × Latch)} {m : Happening}
  {w : Waiter} {l : Latch} {i places : Nat} {c : Call} {a : Answer c}

theorem Refused.mono (h : Refused history) : Refused (history ++ later) := by
  obtain ⟨worker, hw⟩ := h
  exact ⟨worker, List.mem_append_left _ hw⟩

theorem Stopped.mono (h : Stopped history) : Stopped (history ++ later) :=
  h.imp Refused.mono fun ⟨i, hi⟩ => ⟨i, List.mem_append_left _ hi⟩

theorem Refused.of_snoc (h : Refused (history ++ [m]))
    (hm : ∀ worker, m ≠ .happened (.record_returns worker false)) : Refused history := by
  obtain ⟨worker, hw⟩ := h
  exact ⟨worker, (List.mem_append.1 hw).resolve_right fun hlast =>
    hm worker (List.mem_singleton.1 hlast).symm⟩

theorem Stored.of_snoc (h : Stored (history ++ [m])) (hm : ∀ i, m ≠ .answered i .store_failed ()) :
    Stored history := by
  obtain ⟨i, hi⟩ := h
  exact ⟨i, (List.mem_append.1 hi).resolve_right fun hlast =>
    hm i (List.mem_singleton.1 hlast).symm⟩

/-- No record fails in this moment. -/
theorem stopped_snoc (hrefused : ∀ worker, m ≠ .happened (.record_returns worker false))
    (hstored : ∀ i, m ≠ .answered i .store_failed ()) :
    Stopped (history ++ [m]) ↔ Stopped history :=
  ⟨fun h => h.imp (fun h => h.of_snoc hrefused) fun h => h.of_snoc hstored, Stopped.mono⟩

theorem GivenBack.snoc {told : Told} (h : GivenBack told)
    (hlast : c = .release_waiter → ∃ first x, told = first ++ [x] ∧ resolves x.1 x.2 = true) :
    GivenBack (told ++ [⟨c, a⟩]) := by
  intro before after hsplit
  rcases split_snoc hsplit with ⟨rfl, heq⟩ | ⟨later, htold⟩
  · exact hlast (congrArg Sigma.fst heq).symm
  · exact h before later htold

theorem get_set {x y : Waiter × Latch} {j : Nat} (h : (ls.set i x)[j]? = some y) :
    (i = j ∧ y = x) ∨ (i ≠ j ∧ ls[j]? = some y) := by
  rw [List.getElem?_set] at h
  split at h
  · rename_i hij
    split at h
    · exact .inl ⟨hij, (Option.some.inj h).symm⟩
    · cases h
  · rename_i hij
    exact .inr ⟨hij, h⟩

theorem late_of_set {x : Waiter × Latch} (hl : ls[i]? = some (w, l)) (hlate : x.2.late = l.late)
    (j : Nat) : late_of (ls.set i x) j = late_of ls j := by
  unfold late_of
  rw [List.getElem?_set]
  split
  · rename_i hij
    subst hij
    rw [if_pos (List.getElem?_eq_some_iff.1 hl).1, hl]
    exact congrArg some hlate
  · rfl

/-- A moment that tells this request nothing. -/
theorem Informed.untold (h : Informed history i w l) (hm : m.told i = none)
    (hrefused : l.checked = true → ∀ worker, m ≠ .happened (.record_returns worker false)) :
    Informed (history ++ [m]) i w l where
  gate := h.gate
  late hlate := (h.late hlate).mono
  checked hchecked :=
    ⟨(h.checked hchecked).1, fun hr => (h.checked hchecked).2 (hr.of_snoc (hrefused hchecked))⟩
  resolved hresolved := by
    rw [answers_snoc, hm, Option.toList_none, List.append_nil]
    exact h.resolved hresolved
  given hlost := by
    rw [answers_snoc, hm, Option.toList_none, List.append_nil]
    exact h.given hlost

/-- A request has its answer. -/
theorem Informed.told (h : Informed history i w l)
    (hchecked : (l.after c a).checked = true → (l.after c a).gate = true ∧ ¬ Refused history) :
    Informed (history ++ [.answered i c a]) i (w.after c a) (l.after c a) where
  gate := by
    cases c with
    | acquire_gate | release_gate | spawn_record => rfl
    | _ => exact h.gate
  late hlate := (h.late hlate).mono
  checked hl :=
    ⟨(hchecked hl).1, fun hr => (hchecked hl).2 (hr.of_snoc fun _ heq => by cases heq)⟩
  resolved hresolved := by
    rw [answers_snoc, told_answered]
    exact ⟨answers i history, ⟨c, a⟩, rfl, hresolved⟩
  given hlost := by
    rw [answers_snoc, told_answered]
    have hbefore : l.lost = false ∧ (c = .release_waiter → l.resolved = true) := by
      cases c with
      | release_waiter =>
        have hlost : (l.lost || !l.resolved) = false := hlost
        simpa using hlost
      | _ => exact ⟨hlost, fun heq => by cases heq⟩
    exact (h.given hbefore.1).snoc fun heq => h.resolved (hbefore.2 heq)

/-- A moment that tells no request anything. -/
theorem LatchState.untold (h : LatchState history s ls) (hm : ∀ i, m.told i = none)
    (hstart : ∀ i r, m ≠ .started i r)
    (hstopped : s'.stopped = true ↔ Stopped (history ++ [m]))
    (hkept : s.audit_failed = true → s'.audit_failed = true)
    (hrefused : ∀ (i : Nat) (w : Waiter) (l : Latch), ls[i]? = some (w, l) → l.gate = true →
      ∀ worker, m ≠ .happened (.record_returns worker false)) :
    LatchState (history ++ [m]) s' ls where
  stopped := hstopped
  stored hstored := by
    refine hkept (h.stored (hstored.of_snoc ?_))
    rintro i rfl
    have hnone := hm i
    rw [told_answered] at hnone
    cases hnone
  informed i w l hl := (h.informed i w l hl).untold (hm i) fun hchecked =>
    hrefused i w l hl ((h.informed i w l hl).checked hchecked).1
  started before later i r hsplit hlatched := by
    rcases split_snoc hsplit with ⟨-, hlast⟩ | ⟨later', hsplit'⟩
    · exact absurd hlast.symm (hstart i r)
    · exact h.started before later' i r hsplit' hlatched
  asked i call hmem := by
    rcases List.mem_append.1 hmem with hmem | hmem
    · exact h.asked i call hmem
    · have hnone := hm i
      rw [← List.mem_singleton.1 hmem, told_answered] at hnone
      cases hnone
  spawned before later i event worker hsplit := by
    rcases split_snoc hsplit with ⟨-, hlast⟩ | ⟨later', hsplit'⟩
    · have hnone := hm i
      rw [← hlast, told_answered] at hnone
      cases hnone
    · exact h.spawned before later' i event worker hsplit'

/-- Nobody fails, and the latch stays as it is. -/
theorem LatchState.quiet (h : LatchState history s ls) (hm : ∀ i, m.told i = none)
    (hstart : ∀ i r, m ≠ .started i r) (hs : s'.stopped = s.stopped)
    (hfailed : s'.audit_failed = s.audit_failed)
    (hrefused : ∀ worker, m ≠ .happened (.record_returns worker false)) :
    LatchState (history ++ [m]) s' ls := by
  refine h.untold hm hstart ?_ (fun hf => hfailed.trans hf) fun _ _ _ _ _ => hrefused
  rw [hs, h.stopped, stopped_snoc hrefused]
  rintro i rfl
  have hnone := hm i
  rw [told_answered] at hnone
  cases hnone

/-- A request goes on. -/
theorem LatchState.goes_on (h : LatchState history s ls) (hl : ls[i]? = some (w, l))
    (hmay : l.may c) (hstopped : s'.stopped = true ↔ Stopped (history ++ [.answered i c a]))
    (hstored : Stored (history ++ [.answered i c a]) → s'.audit_failed = true)
    (hchecked : (l.after c a).checked = true → (l.after c a).gate = true ∧ ¬ Refused history) :
    LatchState (history ++ [.answered i c a]) s' (ls.set i (w.after c a, l.after c a)) where
  stopped := hstopped
  stored := hstored
  informed j w' l' hj := by
    rcases get_set hj with ⟨rfl, heq⟩ | ⟨hij, hj⟩
    · cases heq
      exact (h.informed i w l hl).told hchecked
    · refine (h.informed j w' l' hj).untold (if_neg hij) fun _ worker heq => ?_
      cases heq
  started before later j r hsplit hlatched := by
    rw [late_of_set hl rfl]
    rcases split_snoc hsplit with ⟨-, hlast⟩ | ⟨later', hsplit'⟩
    · cases hlast
    · exact h.started before later' j r hsplit' hlatched
  asked j call hmem := by
    rw [late_of_set hl rfl]
    rcases List.mem_append.1 hmem with hmem | hmem
    · exact h.asked j call hmem
    · cases List.mem_singleton.1 hmem
      have hlate : l.late = false := hmay
      rw [late_of, hl]
      exact congrArg some hlate
  spawned before later j event worker hsplit := by
    rcases split_snoc hsplit with ⟨rfl, hlast⟩ | ⟨later', hsplit'⟩
    · cases hlast
      exact ((h.informed i w l hl).checked hmay).2
    · exact h.spawned before later' j event worker hsplit'

theorem LatchState.starts (h : LatchState history s ls) (hnone : answers ls.length history = [])
    (r : Request) :
    LatchState (history ++ [.started ls.length r]) s
      (ls ++ [(Waiter.idle, Latch.fresh s.stopped)]) := by
  have hold : ∀ {i : Nat} {b : Bool}, late_of ls i = some b →
      late_of (ls ++ [(Waiter.idle, Latch.fresh s.stopped)]) i = some b := by
    intro i b hi
    unfold late_of at hi ⊢
    obtain ⟨x, hx, -⟩ := Option.map_eq_some_iff.1 hi
    rw [List.getElem?_append_left (List.getElem?_eq_some_iff.1 hx).1]
    exact hi
  refine ⟨?_, ?_, ?_, ?_, ?_, ?_⟩
  · rw [h.stopped, stopped_snoc (by simp) (by simp)]
  · exact fun hstored => h.stored (hstored.of_snoc (by simp))
  · intro i w l hl
    rw [List.getElem?_append] at hl
    split at hl
    · exact (h.informed i w l hl).untold rfl fun _ worker heq => by cases heq
    · rename_i hge
      have hsingle : (w, l) = (Waiter.idle, Latch.fresh s.stopped) :=
        List.mem_singleton.1 (List.mem_of_getElem? hl)
      have hi : i = ls.length := by
        have hlt := (List.getElem?_eq_some_iff.1 hl).1
        rw [List.length_singleton] at hlt
        omega
      cases hsingle
      subst hi
      have hquiet : (.started ls.length r : Happening).told ls.length = none := rfl
      have hempty : answers ls.length (history ++ [.started ls.length r]) = [] := by
        rw [answers_snoc, hquiet, hnone]
        rfl
      refine ⟨rfl, fun hlate => (h.stopped.1 hlate).mono, fun hc => (by cases hc),
        fun hr => (by cases hr), fun _ => ?_⟩
      intro before after hsplit
      rw [hempty] at hsplit
      simp at hsplit
  · intro before later i r' hsplit hlatched
    rcases split_snoc hsplit with ⟨rfl, hlast⟩ | ⟨later', hsplit'⟩
    · cases hlast
      rw [late_of, List.getElem?_append_right (Nat.le_refl _), Nat.sub_self]
      exact congrArg some (h.stopped.2 hlatched)
    · exact hold (h.started before later' i r' hsplit' hlatched)
  · intro i call hmem
    exact hold (h.asked i call (by simpa using hmem))
  · intro before later i event worker hsplit
    rcases split_snoc hsplit with ⟨-, hlast⟩ | ⟨later', hsplit'⟩
    · cases hlast
    · exact h.spawned before later' i event worker hsplit'

end

section
variable {d : Dispatcher} {time : Nat} {epoch : Option Nat} {history : History}
  {p : Pool World Call Answer Nat (Except RuntimeError Reply)}

end

end openwrt_mcp_runtime
