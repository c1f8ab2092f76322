-- At most one thread writes at a time, also when nobody waits for it any more, and the places to
-- wait for a record are bounded.
import OpenwrtMcp.DispatcherReplay
import OpenwrtMcp.DeviceCalls

open json maps tasks text
open openwrt_mcp_core
open tasks.Fallible (attempt)

namespace openwrt_mcp_runtime

/-- What a program holds of the audit: a place to wait, and the gate. -/
structure Waiter where
  place : Bool
  gate : Bool

namespace Waiter

def idle : Waiter := ⟨false, false⟩

def may (l : Waiter) : Call → Prop
  | .try_acquire_waiter => l.place = false
  | .release_waiter => l.place = true
  | .acquire_gate => l.gate = false
  | .release_gate | .spawn_record _ => l.gate = true
  | _ => True

/-- The gate goes to the thread that writes. -/
def after (l : Waiter) : (c : Call) → Answer c → Waiter
  | .try_acquire_waiter, place => { l with place := place }
  | .release_waiter, _ => { l with place := false }
  | .acquire_gate, _ => { l with gate := true }
  | .release_gate, _ | .spawn_record _, _ => { l with gate := false }
  | _, _ => l

/-- A place to wait is held, and the gate is not. -/
def Placed (l : Waiter) : Prop := l = ⟨true, false⟩

end Waiter

def waiting : Contract Waiter Call Answer where
  may := Waiter.may
  knows _ _ _ := True
  after := Waiter.after

namespace Waiter

section
variable {d : Dispatcher} {α : Type}

/-- Whoever holds nothing of the audit goes on without it. -/
theorem idle_parts : Dispatcher.KeepsParts waiting (· = idle)
    [.Sequence, .Readings, .Permits, .Entries, .Evidence, .Flags, .Issued, .Slot, .Probe,
      .Device] := by
  rintro c hc _ rfl
  cases c with
  | load_failed | store_failed | try_acquire_waiter | release_waiter | acquire_gate | release_gate
  | spawn_record | join => cases hc
  | _ => exact ⟨trivial, fun _ _ => rfl⟩

theorem record_spec {event : AuditEvent} {l : Waiter} (h : l.Placed) :
    Safe waiting (fun l' _ => l'.Placed) Placed (Dispatcher.record event).run l := by
  subst h
  unfold Dispatcher.record
  refine Safe.then_await rfl rfl fun _ _ => ?_
  refine Safe.then_ask trivial fun failed _ => ?_
  split
  · exact Safe.then_ask rfl fun _ _ => rfl
  · refine Safe.then_ask rfl fun worker _ => ?_
    refine Safe.then_await trivial rfl fun ok _ => ?_
    split
    · rfl
    · rfl

theorem record_waiting_spec {event : AuditEvent} {l : Waiter} (h : l.Placed) :
    Safe waiting (fun l' _ => l'.Placed) Placed (d.record_waiting event).run l := by
  unfold Dispatcher.record_waiting
  refine Safe.then_ask trivial fun now _ => ?_
  refine Safe.then_attempt (Safe.fallible_timeout (record_spec h) fun _ h => h) fun l' r h' => ?_
  split
  · exact h'
  · exact Safe.then_ask trivial fun _ _ => h'

theorem record_audit_spec {event : AuditEvent} :
    Keeps waiting (· = idle) (· = idle) (d.record_audit event).run := by
  rintro _ rfl
  unfold Dispatcher.record_audit
  refine Safe.then_ask trivial fun failed _ => ?_
  split
  · rfl
  refine Safe.then_ask rfl fun place _ => ?_
  split
  · rename_i hplace
    subst hplace
    rw [Safe.fallible_holding_iff]
    refine (record_waiting_spec rfl).conseq ?_ ?_
    · rintro l' _ rfl
      exact ⟨rfl, fun _ _ => rfl⟩
    · rintro l' rfl
      exact ⟨rfl, fun _ _ => rfl⟩
  · rename_i hplace
    rw [Bool.not_eq_true] at hplace
    subst hplace
    rfl

theorem sides (d : Dispatcher) : Dispatcher.Sides waiting (· = idle) (· = idle) d where
  dropped _ hl := hl
  release := idle_parts _ rfl
  common c hc := idle_parts c (hc.widen (by decide))
  record _ := record_audit_spec
  page _ _ _ _ _ := Dispatcher.keeps_invoke_page (fun _ hl => hl)
    (fun c hc => idle_parts c (hc.widen (by decide)))
    (fun c hc => idle_parts c (hc.widen (by decide)))
    (fun c hc => idle_parts c (hc.widen (by decide))) fun _ => record_audit_spec
  execute _ _ _ := idle_parts.calls (fun _ hl => hl) Dispatcher.calls_execute (by decide)
  status _ _ _ := idle_parts.calls (fun _ hl => hl) Dispatcher.calls_observed_status (by decide)

end

/-- What a request holds after all that it was told. -/
def of_told (told : Told) : Waiter := told.foldl (fun l x => l.after x.1 x.2) idle

theorem of_told_snoc {told : Told} {c : Call} {a : Answer c} :
    of_told (told ++ [⟨c, a⟩]) = (of_told told).after c a := List.foldl_concat ..

end Waiter

/-! ## Who holds the gate -/

def Phase.is_open : Phase → Bool
  | .Finished _ => false
  | _ => true

/-- The gate is held by a request, or by a thread up to its end. -/
def Holder (s : World) (ls : List Waiter) : Nat ⊕ Nat → Prop
  | .inl i => ∃ l, ls[i]? = some l ∧ l.gate = true
  | .inr worker => ∃ phase, s.phase worker = some phase ∧ phase.is_open = true

/-- Nobody holds a free gate, and never two hold it. Whoever has no place is counted. -/
structure GateState (places : Nat) (history : History) (s : World) (ls : List Waiter) : Prop where
  places : s.audit_waiters + ls.countP Waiter.place = places
  free : s.audit_gate = true → ∀ x, ¬ Holder s ls x
  one : ∀ x y, Holder s ls x → Holder s ls y → x = y
  told : ∀ (i : Nat) (l : Waiter), ls[i]? = some l → l = Waiter.of_told (answers i history)
  answered : ∀ (i : Nat) (c : Call) (a : Answer c), .answered i c a ∈ history → i < ls.length

section
variable {history : History} {s s' : World} {ls : List Waiter} {l l' : Waiter} {m : Happening}
  {places i : Nat}

theorem places_set (hl : ls[i]? = some l) :
    (ls.set i l').countP Waiter.place + (if l.place then 1 else 0) =
      ls.countP Waiter.place + (if l'.place then 1 else 0) := by
  obtain ⟨hi, rfl⟩ := List.getElem?_eq_some_iff.1 hl
  have hset := List.countP_set (p := Waiter.place) (a := l') hi
  have hle := List.boole_getElem_le_countP (p := Waiter.place) hi
  omega

/-- A moment that tells no request anything. -/
theorem GateState.untold (h : GateState places history s ls) (hm : ∀ i, m.told i = none)
    (hplaces : s'.audit_waiters = s.audit_waiters)
    (hfree : s'.audit_gate = true → ∀ x, ¬ Holder s' ls x)
    (hone : ∀ x y, Holder s' ls x → Holder s' ls y → x = y) :
    GateState places (history ++ [m]) s' ls where
  places := by
    rw [hplaces]
    exact h.places
  free := hfree
  one := hone
  told i l hl := by
    rw [answers_snoc, hm, Option.toList_none, List.append_nil]
    exact h.told i l hl
  answered i c a hmem := by
    rcases List.mem_append.1 hmem with hmem | hmem
    · exact h.answered i c a hmem
    · have hnone := hm i
      rw [← List.mem_singleton.1 hmem, told_answered] at hnone
      cases hnone

/-- The holders are the ones that there were. -/
theorem GateState.quiet (h : GateState places history s ls) (hm : ∀ i, m.told i = none)
    (hplaces : s'.audit_waiters = s.audit_waiters) (hgate : s'.audit_gate = s.audit_gate)
    (hsub : ∀ x, Holder s' ls x → Holder s ls x) : GateState places (history ++ [m]) s' ls :=
  h.untold hm hplaces (fun hfree x hx => h.free (hgate ▸ hfree) x (hsub x hx))
    fun x y hx hy => h.one x y (hsub x hx) (hsub y hy)

/-- A request goes on. -/
theorem GateState.goes_on (h : GateState places history s ls) (hl : ls[i]? = some l) {c : Call}
    {a : Answer c}
    (hplaces : s'.audit_waiters + (if (l.after c a).place then 1 else 0) =
      s.audit_waiters + (if l.place then 1 else 0))
    (hfree : s'.audit_gate = true → ∀ x, ¬ Holder s' (ls.set i (l.after c a)) x)
    (hone : ∀ x y, Holder s' (ls.set i (l.after c a)) x → Holder s' (ls.set i (l.after c a)) y →
      x = y) :
    GateState places (history ++ [.answered i c a]) s' (ls.set i (l.after c a)) where
  places := by
    have hcount : (ls.set i (l.after c a)).countP Waiter.place + (if l.place then 1 else 0) =
        ls.countP Waiter.place + (if (l.after c a).place then 1 else 0) := places_set hl
    have hbefore := h.places
    omega
  free := hfree
  one := hone
  told j x hx := by
    rw [answers_snoc]
    rw [List.getElem?_set] at hx
    split at hx
    · rename_i hij
      subst hij
      split at hx
      · cases hx
        rw [told_answered, h.told i l hl]
        exact Waiter.of_told_snoc.symm
      · cases hx
    · rename_i hij
      rw [Moment.told, if_neg hij, Option.toList_none, List.append_nil]
      exact h.told j x hx
  answered j c' a' hmem := by
    rw [List.length_set]
    rcases List.mem_append.1 hmem with hmem | hmem
    · exact h.answered j c' a' hmem
    · cases List.mem_singleton.1 hmem
      exact (List.getElem?_eq_some_iff.1 hl).1

/-- Who holds the gate after one request has gone on. -/
theorem holder_set {x : Nat ⊕ Nat} (hx : Holder s' (ls.set i l') x)
    (hs : ∀ worker, s'.phase worker = s.phase worker) :
    (x = .inl i ∧ l'.gate = true) ∨ (x ≠ .inl i ∧ Holder s ls x) := by
  cases x with
  | inl j =>
    obtain ⟨k, hk, hgate⟩ := hx
    rw [List.getElem?_set] at hk
    split at hk
    · rename_i hij
      subst hij
      split at hk
      · cases hk
        exact .inl ⟨rfl, hgate⟩
      · cases hk
    · rename_i hij
      exact .inr ⟨fun heq => hij (Sum.inl.inj heq).symm, k, hk, hgate⟩
  | inr worker =>
    obtain ⟨phase, hphase, hopen⟩ := hx
    exact .inr ⟨Sum.inr_ne_inl, phase, hs worker ▸ hphase, hopen⟩

theorem exec_audit {c : Call} {a : Answer c} (h : exec i c s a s') (hc : c.part ≠ .Audit) :
    s'.audit_waiters = s.audit_waiters ∧ s'.audit_gate = s.audit_gate ∧
      s'.workers = s.workers := by
  cases c with
  | load_failed | store_failed | try_acquire_waiter | release_waiter | acquire_gate | release_gate
  | spawn_record | join => exact absurd rfl hc
  | lock_entries =>
    obtain ⟨-, -, rfl⟩ := h
    exact ⟨rfl, rfl, rfl⟩
  | release_permit | set_issued | unlock_slot | set_slot | nonce | begins | returns
  | unlock_entries | insert_entry =>
    obtain rfl := h
    exact ⟨rfl, rfl, rfl⟩
  | _ =>
    obtain ⟨-, rfl⟩ := h
    exact ⟨rfl, rfl, rfl⟩

/-- A place is taken, if there is one, or given back. -/
theorem GateState.moves_place (h : GateState places history s ls) (hl : ls[i]? = some l) {c : Call}
    {a : Answer c} (hsame : (l.after c a).gate = l.gate)
    (hplaces : s'.audit_waiters + (if (l.after c a).place then 1 else 0) =
      s.audit_waiters + (if l.place then 1 else 0))
    (hgate : s'.audit_gate = s.audit_gate) (hworkers : s'.workers = s.workers) :
    GateState places (history ++ [.answered i c a]) s' (ls.set i (l.after c a)) := by
  have hold : ∀ x, Holder s' (ls.set i (l.after c a)) x → Holder s ls x := by
    intro x hx
    have hphases : ∀ worker, s'.phase worker = s.phase worker := fun worker => by
      unfold World.phase
      rw [hworkers]
    rcases holder_set hx hphases with ⟨rfl, hheld⟩ | ⟨-, hx⟩
    · exact ⟨l, hl, hsame ▸ hheld⟩
    · exact hx
  refine h.goes_on hl hplaces ?_ ?_
  · exact fun hfree x hx => h.free (hgate ▸ hfree) x (hold x hx)
  · exact fun x y hx hy => h.one x y (hold x hx) (hold y hy)

/-- A call that has nothing to do with the places and the gate. -/
theorem GateState.passes (h : GateState places history s ls) (hl : ls[i]? = some l) {c : Call}
    {a : Answer c} (hsame : l.after c a = l) (hplaces : s'.audit_waiters = s.audit_waiters)
    (hgate : s'.audit_gate = s.audit_gate) (hworkers : s'.workers = s.workers) :
    GateState places (history ++ [.answered i c a]) s' (ls.set i (l.after c a)) :=
  h.moves_place hl (by rw [hsame]) (by rw [hsame, hplaces]) hgate hworkers

theorem GateState.acquires (h : GateState places history s ls) (hl : ls[i]? = some l)
    (hfree : s.audit_gate = true) :
    GateState places (history ++ [.answered i .acquire_gate ()]) { s with audit_gate := false }
      (ls.set i (l.after .acquire_gate ())) := by
  have honly : ∀ x, Holder { s with audit_gate := false } (ls.set i (l.after .acquire_gate ())) x →
      x = .inl i := by
    intro x hx
    rcases holder_set (s := s) hx fun _ => rfl with ⟨rfl, -⟩ | ⟨-, hx⟩
    · rfl
    · exact absurd hx (h.free hfree x)
  exact h.goes_on hl rfl (fun hgate => absurd hgate Bool.false_ne_true)
    fun x y hx hy => (honly x hx).trans (honly y hy).symm

theorem GateState.releases (h : GateState places history s ls) (hl : ls[i]? = some l)
    (hheld : l.gate = true) :
    GateState places (history ++ [.answered i .release_gate ()]) { s with audit_gate := true }
      (ls.set i (l.after .release_gate ())) := by
  have hnone : ∀ x, ¬ Holder { s with audit_gate := true } (ls.set i (l.after .release_gate ()))
    x := by
    intro x hx
    rcases holder_set (s := s) hx fun _ => rfl with ⟨-, hgate⟩ | ⟨hne, hx⟩
    · cases hgate
    · exact hne (h.one x (.inl i) hx ⟨l, hl, hheld⟩)
  exact h.goes_on hl rfl (fun _ => hnone) fun x _ hx => absurd hx (hnone x)

/-- The gate goes from the request to its thread. -/
theorem GateState.spawns (h : GateState places history s ls) (hl : ls[i]? = some l)
    (hheld : l.gate = true) (event : AuditEvent) :
    GateState places (history ++ [.answered i (.spawn_record event) s.workers.length])
      { s with workers := s.workers ++ [⟨event, .Queued⟩] }
      (ls.set i (l.after (.spawn_record event) s.workers.length)) := by
  have hmine : Holder s ls (.inl i) := ⟨l, hl, hheld⟩
  have honly : ∀ x, Holder { s with workers := s.workers ++ [⟨event, .Queued⟩] }
      (ls.set i (l.after (.spawn_record event) s.workers.length)) x →
        x = .inr s.workers.length := by
    intro x hx
    cases x with
    | inl j =>
      obtain ⟨k, hk, hgate⟩ := hx
      rw [List.getElem?_set] at hk
      split at hk
      · split at hk
        · cases hk
          cases hgate
        · cases hk
      · rename_i hij
        exact absurd (Sum.inl.inj (h.one (.inl j) (.inl i) ⟨k, hk, hgate⟩ hmine)).symm hij
    | inr worker =>
      obtain ⟨phase, hphase, hopen⟩ := hx
      unfold World.phase at hphase
      rw [List.getElem?_append] at hphase
      split at hphase
      · cases h.one (.inr worker) (.inl i) ⟨phase, hphase, hopen⟩ hmine
      · rename_i hge
        obtain ⟨w, hw, -⟩ := Option.map_eq_some_iff.1 hphase
        have hlt := (List.getElem?_eq_some_iff.1 hw).1
        rw [List.length_singleton] at hlt
        exact congrArg Sum.inr (by omega)
  refine h.goes_on hl rfl ?_ fun x y hx hy => (honly x hx).trans (honly y hy).symm
  exact fun hgate _ _ => h.free hgate _ hmine

theorem GateState.starts (h : GateState places history s ls) (r : Request) :
    GateState places (history ++ [.started ls.length r]) s (ls ++ [Waiter.idle]) := by
  have hold : ∀ x, Holder s (ls ++ [Waiter.idle]) x → Holder s ls x := by
    intro x hx
    cases x with
    | inl j =>
      obtain ⟨k, hk, hgate⟩ := hx
      rw [List.getElem?_append] at hk
      split at hk
      · exact ⟨k, hk, hgate⟩
      · obtain rfl := List.mem_singleton.1 (List.mem_of_getElem? hk)
        cases hgate
    | inr worker => exact hx
  refine ⟨?_, ?_, ?_, ?_, ?_⟩
  · rw [List.countP_append]
    exact h.places
  · exact fun hfree x hx => h.free hfree x (hold x hx)
  · exact fun x y hx hy => h.one x y (hold x hx) (hold y hy)
  · intro i l hl
    have hquiet : (.started ls.length r : Happening).told i = none := rfl
    rw [answers_snoc, hquiet, Option.toList_none, List.append_nil]
    rw [List.getElem?_append] at hl
    split at hl
    · exact h.told i l hl
    · rename_i hge
      obtain rfl := List.mem_singleton.1 (List.mem_of_getElem? hl)
      have hnone : answers i history = [] := by
        rw [List.eq_nil_iff_forall_not_mem]
        intro x hx
        exact hge (h.answered i _ _ (mem_answers.1 hx))
      rw [hnone]
      rfl
  · intro i c a hmem
    rw [List.length_append]
    exact Nat.lt_add_right _ (h.answered i c a (by simpa using hmem))

/-- A thread goes on, which was not at its end. -/
theorem GateState.moves (h : GateState places history s ls) {e : Event} {worker : Nat}
    {before after : Phase} (hphase : s.phase worker = some before) (hopen : before.is_open = true)
    (hplaces : s'.audit_waiters = s.audit_waiters) (hgate : s'.audit_gate = s.audit_gate)
    (hworkers : s'.workers = (s.set_phase worker after).workers) :
    GateState places (history ++ [.happened e]) s' ls := by
  refine h.quiet (fun _ => rfl) hplaces hgate ?_
  intro x hx
  cases x with
  | inl j => exact hx
  | inr other =>
    obtain ⟨phase, hother, hopen'⟩ := hx
    have heq : s'.phase other = (s.set_phase worker after).phase other := by
      unfold World.phase
      rw [hworkers]
    rw [heq, phase_set_phase] at hother
    split at hother
    · rename_i hsame
      subst hsame
      exact ⟨before, hphase, hopen⟩
    · exact ⟨phase, hother, hopen'⟩

/-- A thread gives the gate back at its end. -/
theorem GateState.gives_back (h : GateState places history s ls) {worker : Nat} {ok : Bool}
    (hphase : s.phase worker = some (.Closing ok)) :
    GateState places (history ++ [.happened (.gives_back worker)])
      { s.set_phase worker (.Finished ok) with audit_gate := true } ls := by
  have hmine : Holder s ls (.inr worker) := ⟨_, hphase, rfl⟩
  have hnone : ∀ x, ¬ Holder { s.set_phase worker (.Finished ok) with audit_gate := true } ls
    x := by
    intro x hx
    cases x with
    | inl j => cases h.one (.inl j) (.inr worker) hx hmine
    | inr other =>
      obtain ⟨phase, hother, hopen⟩ := hx
      have hother : (s.set_phase worker (.Finished ok)).phase other = some phase := hother
      rw [phase_set_phase] at hother
      split at hother
      · obtain ⟨_, _, rfl⟩ := Option.map_eq_some_iff.1 hother
        cases hopen
      · rename_i hne
        exact hne (Sum.inr.inj (h.one (.inr other) (.inr worker) ⟨phase, hother, hopen⟩ hmine)).symm
  exact h.untold (fun _ => rfl) rfl (fun _ => hnone) fun x _ hx => absurd hx (hnone x)

end

/-! ## Runs -/

def gate_protocol (d : Dispatcher) (time : Nat) (epoch : Option Nat) :
    Protocol (d.system time epoch) Waiter where
  toContract := waiting
  fresh _ _ := Waiter.idle
  ended l _ := l = Waiter.idle
  gone l := l = Waiter.idle
  Inv := GateState (d.limits.max_concurrent + 1)

section
variable {d : Dispatcher} {time : Nat} {epoch : Option Nat} {history : History}
  {p : Pool World Call Answer Nat (Except RuntimeError Reply)}

theorem gate_protocol_kept : (gate_protocol d time epoch).Kept where
  initial := by
    refine ⟨rfl, fun _ x hx => ?_, fun x _ hx => ?_, by simp, by simp⟩
    · cases x with
      | inl i =>
        obtain ⟨l, hl, -⟩ := hx
        cases hl
      | inr worker =>
        obtain ⟨phase, hphase, -⟩ := hx
        cases hphase
    · cases x with
      | inl i =>
        obtain ⟨l, hl, -⟩ := hx
        cases hl
      | inr worker =>
        obtain ⟨phase, hphase, -⟩ := hx
        cases hphase
  start h := ⟨(Waiter.sides d).program _ _ rfl, h.starts _⟩
  late h := h.quiet (fun _ => rfl) rfl rfl fun _ hx => hx
  cancelled h := h.quiet (fun _ => rfl) rfl rfl fun _ hx => hx
  call := by
    intro history s ls i l c a s' h hl hmay hexec
    have hexec : exec i c s a s' := hexec
    refine ⟨trivial, ?_⟩
    cases c with
    | try_acquire_waiter =>
      obtain ⟨rfl, rfl⟩ := hexec
      have hplace : l.place = false := hmay
      refine h.moves_place hl rfl ?_ rfl rfl
      show s.audit_waiters - 1 + (if decide (0 < s.audit_waiters) = true then 1 else 0) =
        s.audit_waiters + (if l.place then 1 else 0)
      rw [hplace]
      by_cases hsome : 0 < s.audit_waiters
      · simp only [hsome, decide_true, ↓reduceIte, Bool.false_eq_true]
        omega
      · simp only [hsome, decide_false, ↓reduceIte, Bool.false_eq_true]
        omega
    | release_waiter =>
      obtain rfl := hexec
      have hplace : l.place = true := hmay
      refine h.moves_place hl rfl ?_ rfl rfl
      rw [hplace]
      rfl
    | acquire_gate =>
      obtain ⟨hfree, rfl⟩ := hexec
      exact h.acquires hl hfree
    | release_gate =>
      obtain rfl := hexec
      exact h.releases hl hmay
    | spawn_record event =>
      obtain ⟨rfl, rfl⟩ := hexec
      exact h.spawns hl hmay event
    | load_failed | join =>
      obtain ⟨-, rfl⟩ := hexec
      exact h.passes hl rfl rfl rfl rfl
    | store_failed =>
      obtain rfl := hexec
      exact h.passes hl rfl rfl rfl rfl
    | begins call =>
      obtain rfl := hexec
      exact h.passes hl rfl rfl rfl rfl
    | returns call =>
      obtain rfl := hexec
      exact h.passes hl rfl rfl rfl rfl
    | _ =>
      obtain ⟨hplaces, hgate, hworkers⟩ := exec_audit hexec (by simp [Call.part])
      exact h.passes hl rfl hplaces hgate hworkers
  outside := by
    intro history s ls e s' h hout
    cases e with
    | passes time =>
      obtain ⟨-, rfl⟩ := hout
      exact h.quiet (fun _ => rfl) rfl rfl fun _ hx => hx
    | turns epoch =>
      obtain rfl := hout
      exact h.quiet (fun _ => rfl) rfl rfl fun _ hx => hx
    | gives_back worker =>
      obtain ⟨ok, hphase, rfl⟩ := hout
      exact h.gives_back hphase
    | _ =>
      obtain ⟨hphase, rfl⟩ := hout
      exact h.moves hphase rfl rfl rfl rfl

/-- At no moment do two threads write, also when whoever waited for one of them has gone. As many
places to wait are taken as there are requests that hold one, which none does at its end, so never
more than one for each request that can run, and one. -/
theorem at_most_one_record_is_written_at_a_time (h : Reached (d.system time epoch) history p) :
    (∀ worker other, p.shared.phase worker = some .Recording →
      p.shared.phase other = some .Recording → worker = other) ∧
    p.shared.audit_waiters + ((List.range p.running.length).countP fun i =>
      (Waiter.of_told (answers i history)).place) = d.limits.max_concurrent + 1 ∧
    ∀ i, (∃ result, p.running[i]? = some (.active (.done result))) ∨
      p.running[i]? = some (.dropped []) →
      Waiter.of_told (answers i history) = Waiter.idle := by
  obtain ⟨ls, hgood⟩ := (gate_protocol_kept (d := d)).reached h
  have hls : ls = (List.range p.running.length).map fun i =>
    Waiter.of_told (answers i history) := by
    refine List.ext_getElem? fun i => ?_
    rw [List.getElem?_map]
    rcases Nat.lt_or_ge i p.running.length with hi | hi
    · rw [List.getElem?_range hi, List.getElem?_eq_getElem (hgood.length ▸ hi)]
      exact congrArg some (hgood.inv.told i _ (List.getElem?_eq_getElem (hgood.length ▸ hi)))
    · rw [List.getElem?_eq_none (hgood.length ▸ hi), List.getElem?_eq_none (by simpa using hi)]
      rfl
  refine ⟨?_, ?_, ?_⟩
  · intro worker other hworker hother
    exact Sum.inr.inj
      (hgood.inv.one (.inr worker) (.inr other) ⟨_, hworker, rfl⟩ ⟨_, hother, rfl⟩)
  · have hplaces := hgood.inv.places
    rw [hls, List.countP_map] at hplaces
    exact hplaces
  · rintro i (⟨result, hdone⟩ | hdropped)
    · obtain ⟨l, hl, hended⟩ := hgood.local hdone
      rw [← hgood.inv.told i l hl]
      exact hended
    · obtain ⟨l, hl, hgone⟩ := hgood.local hdropped
      rw [← hgood.inv.told i l hl]
      exact hgone

/-- A request goes away while the thread writes its start, and another one comes to the gate. -/
def abandoned_script : List (Cue Event Request) :=
  .request scan_request :: List.replicate 9 (.turn 0) ++
    [.event (.record_begins 0), .cancel 0, .turn 0, .turn 0, .request scan_request] ++
    List.replicate 6 (.turn 1)

def still_writes (scene : Scene (scanner.system 0 (some 1))) : Bool :=
  scene.2.shared.phase 0 = some .Recording

theorem an_abandoned_record_is_written_alone :
    ∃ scene, played abandoned_script = some scene ∧ scene.2.shared.phase 0 = some .Recording ∧
      ∀ other, scene.2.shared.phase other = some .Recording → 0 = other := by
  obtain ⟨scene, hscene, hreached, hseen⟩ :=
    played_to abandoned_script still_writes (by decide +kernel)
  have hwrites : scene.2.shared.phase 0 = some .Recording := of_decide_eq_true hseen
  exact ⟨scene, hscene, hwrites,
    fun other hother => (at_most_one_record_is_written_at_a_time hreached).1 0 other hwrites hother⟩

end

end openwrt_mcp_runtime
