-- Loops over the messages of a channel: on every message the loop goes on, returns or fails,
-- and a channel that ends before it returned is a failure.
import Mathlib

namespace message_loops

variable {S M N R ε : Type}

/-- What a loop does behind a message. -/
inductive Turn (S R : Type)
  | Continue (s : S)
  | Return (r : R)

/-- The loop itself; `ended` is the error of a channel that ends. -/
def receive (turn : S → M → Except ε (Turn S R)) (ended : ε) : S → List M → Except ε R
  | _, [] => .error ended
  | s, m :: rest =>
    match turn s m with
    | .error e => .error e
    | .ok (.Return r) => .ok r
    | .ok (.Continue s') => receive turn ended s' rest

/-- The loop goes on at each of the messages, and is in the second state behind them. -/
inductive Taken (turn : S → M → Except ε (Turn S R)) : S → List M → S → Prop
  | nil (s : S) : Taken turn s [] s
  | cons {s s' t : S} {m : M} {rest : List M} (head : turn s m = .ok (.Continue s'))
      (tail : Taken turn s' rest t) : Taken turn s (m :: rest) t

section
variable {turn : S → M → Except ε (Turn S R)} {ended : ε} {s t : S} {m : M} {ms : List M}

@[simp] theorem taken_nil : Taken turn s [] t ↔ t = s := by
  constructor
  · intro h
    cases h
    rfl
  · rintro rfl
    exact .nil t

@[simp] theorem taken_cons :
    Taken turn s (m :: ms) t ↔ ∃ s', turn s m = .ok (.Continue s') ∧ Taken turn s' ms t := by
  constructor
  · intro h
    cases h with
    | cons head tail => exact ⟨_, head, tail⟩
  · rintro ⟨s', head, tail⟩
    exact .cons head tail

theorem taken_snoc :
    Taken turn s (ms ++ [m]) t ↔ ∃ s', Taken turn s ms s' ∧ turn s' m = .ok (.Continue t) := by
  induction ms generalizing s with
  | nil => simp
  | cons m' ms ih =>
    simp only [List.cons_append, taken_cons, ih]
    constructor
    · rintro ⟨s', head, s'', tail, last⟩
      exact ⟨s'', ⟨s', head, tail⟩, last⟩
    · rintro ⟨s'', ⟨s', head, tail⟩, last⟩
      exact ⟨s', head, s'', tail, last⟩

/-- What is so at the start, and so behind one message more exactly when the loop goes on
there, says what is taken of messages of one kind. -/
theorem taken_iff {K : M → Prop} {P : List M → S → Prop} (hms : ∀ m ∈ ms, K m)
    (start : ∀ t, P [] t ↔ t = s)
    (more : ∀ ms m t, K m → (P (ms ++ [m]) t ↔ ∃ s', P ms s' ∧ turn s' m = .ok (.Continue t))) :
    Taken turn s ms t ↔ P ms t := by
  induction ms using List.reverseRecOn generalizing t with
  | nil => rw [taken_nil, start]
  | append_singleton ms m ih =>
    simp only [taken_snoc, more _ _ _ (hms m (by simp)), ih fun x hx => hms x (by simp [hx])]

/-- A loop returns at the first message that it does not take. -/
theorem receive_ok {r : R} :
    receive turn ended s ms = .ok r ↔ ∃ body m rest t,
      ms = body ++ m :: rest ∧ Taken turn s body t ∧ turn t m = .ok (.Return r) := by
  constructor
  · intro h
    induction ms generalizing s with
    | nil => simp [receive] at h
    | cons m ms ih =>
      unfold receive at h
      split at h
      · simp at h
      · rename_i hturn
        cases h
        exact ⟨[], m, ms, s, rfl, .nil s, hturn⟩
      · rename_i s' hturn
        obtain ⟨body, m', rest, t, rfl, htaken, hend⟩ := ih h
        exact ⟨m :: body, m', rest, t, rfl, .cons hturn htaken, hend⟩
  · rintro ⟨body, m, rest, t, rfl, htaken, hend⟩
    induction htaken with
    | nil s => simp [receive, hend]
    | cons head tail ih => simp [receive, head, ih hend]

/-- A loop that fails does so at a message that it does not take, or at the end. -/
theorem receive_error {e : ε} (h : receive turn ended s ms = .error e) :
    e = ended ∨ ∃ body m rest t,
      ms = body ++ m :: rest ∧ Taken turn s body t ∧ turn t m = .error e := by
  induction ms generalizing s with
  | nil =>
    unfold receive at h
    cases h
    exact Or.inl rfl
  | cons m ms ih =>
    unfold receive at h
    split at h
    · rename_i hturn
      cases h
      exact Or.inr ⟨[], m, ms, s, rfl, .nil s, hturn⟩
    · simp at h
    · rename_i s' hturn
      rcases ih h with hended | ⟨body, m', rest, t, rfl, htaken, hend⟩
      · exact Or.inl hended
      · exact Or.inr ⟨m :: body, m', rest, t, rfl, .cons hturn htaken, hend⟩

/-- Of the messages only those count that the loop does something on. -/
theorem receive_filterMap {turn' : S → N → Except ε (Turn S R)} {view : M → Option N}
    (skip : ∀ m ∈ ms, view m = none → ∀ s, turn s m = .ok (.Continue s))
    (same : ∀ m ∈ ms, ∀ n, view m = some n → ∀ s, turn s m = turn' s n) :
    receive turn ended s ms = receive turn' ended s (ms.filterMap view) := by
  induction ms generalizing s with
  | nil => rfl
  | cons m ms ih =>
    have tail : ∀ t, receive turn ended t ms = receive turn' ended t (ms.filterMap view) :=
      fun t => ih (fun x hx => skip x (.tail _ hx)) (fun x hx => same x (.tail _ hx))
    cases hview : view m with
    | none =>
      rw [List.filterMap_cons_none hview, ← tail s]
      simp [receive, skip m (.head _) hview s]
    | some n =>
      rw [List.filterMap_cons_some hview]
      simp only [receive, same m (.head _) n hview s, tail]

end

/-- Every message is so behind the ones before it. -/
def Each (P : List M → M → Prop) (ms : List M) : Prop :=
  ∀ before m after, ms = before ++ m :: after → P before m

theorem each_nil (P : List M → M → Prop) : Each P [] := by
  simp [Each]

theorem each_snoc {P : List M → M → Prop} {ms : List M} {m : M} :
    Each P (ms ++ [m]) ↔ Each P ms ∧ P ms m := by
  constructor
  · intro h
    refine ⟨?_, h ms m [] rfl⟩
    rintro before x after rfl
    exact h before x (after ++ [m]) (by simp)
  · rintro ⟨h, hlast⟩ before x after heq
    induction after using List.reverseRecOn with
    | nil =>
      obtain ⟨rfl, hm⟩ := List.append_inj' heq rfl
      cases hm
      exact hlast
    | append_singleton after y =>
      rw [← List.cons_append, ← List.append_assoc] at heq
      obtain ⟨rfl, -⟩ := List.append_inj' heq rfl
      exact h before x after rfl

end message_loops
