-- Programs over a state that stop with a value or with an error, and triples with one
-- postcondition for each of the two ends. A stop keeps the state it was reached in.
import Mathlib

namespace programs

variable {S ε ε' α β : Type}

theorem except_bind_ok {x : Except ε α} {f : α → Except ε β} {b : β} :
    (x >>= f) = .ok b ↔ ∃ a, x = .ok a ∧ f a = .ok b := by
  cases x with
  | error e => simp [Bind.bind, Except.bind]
  | ok a => simp [Bind.bind, Except.bind]

/-- A program: from a state to an end and the state there. -/
def Prog (S ε α : Type) := S → Except ε α × S

namespace Prog

def pure (a : α) : Prog S ε α := fun s => (.ok a, s)

def bind (x : Prog S ε α) (f : α → Prog S ε β) : Prog S ε β := fun s =>
  match x s with
  | (.ok a, s') => f a s'
  | (.error e, s') => (.error e, s')

instance : Monad (Prog S ε) where
  pure := Prog.pure
  bind := Prog.bind

def stop (e : ε) : Prog S ε α := fun s => (.error e, s)

def get : Prog S ε S := fun s => (.ok s, s)

def modify (f : S → S) : Prog S ε Unit := fun s => (.ok (), f s)

/-- `x` only if the condition holds. -/
def when (c : Bool) (x : Prog S ε Unit) : Prog S ε Unit := if c then x else Pure.pure ()

/-- The value, or a stop. -/
def ok_or : Option α → ε → Prog S ε α
  | some a, _ => Pure.pure a
  | none, e => stop e

/-- A computation with no state. -/
def lift : Except ε α → Prog S ε α
  | .ok a => Pure.pure a
  | .error e => stop e

/-- `x` with its errors of one kind as values; `select` picks the errors that are caught. -/
def attempt (select : ε → Except ε ε') (x : Prog S ε α) : Prog S ε (Except ε' α) := fun s =>
  match x s with
  | (.ok a, s') => (.ok (.ok a), s')
  | (.error e, s') =>
    match select e with
    | .ok e' => (.ok (.error e'), s')
    | .error e => (.error e, s')

/-! ### Runs that end with a value -/

section
variable {s s' : S} {a c : α} {b : β} {e : ε}

@[simp] theorem pure_ok : (Pure.pure a : Prog S ε α) s = (.ok c, s') ↔ a = c ∧ s = s' := by
  show ((.ok a, s) : Except ε α × S) = _ ↔ _
  simp

@[simp] theorem stop_ok : (stop e : Prog S ε α) s = (.ok a, s') ↔ False := by
  simp [stop]

theorem bind_ok {x : Prog S ε α} {f : α → Prog S ε β} :
    (x >>= f) s = (.ok b, s') ↔ ∃ a m, x s = (.ok a, m) ∧ f a m = (.ok b, s') := by
  show bind x f s = _ ↔ _
  unfold bind
  cases hx : x s with
  | mk r m =>
    cases r with
    | ok a => simp
    | error e => simp

theorem pure_bind (f : α → Prog S ε β) : (Pure.pure a >>= f) = f a := rfl

theorem stop_bind (f : α → Prog S ε β) : ((stop e : Prog S ε α) >>= f) = stop e := rfl

theorem bind_assoc {γ : Type} (x : Prog S ε α) (f : α → Prog S ε β) (g : β → Prog S ε γ) :
    ((x >>= f) >>= g) = x >>= fun a => f a >>= g := by
  funext s
  show bind (bind x f) g s = bind x (fun a => bind (f a) g) s
  unfold bind
  cases x s with
  | mk r m =>
    cases r with
    | ok a => rfl
    | error e => rfl

theorem bind_pure (x : Prog S ε α) : (x >>= fun a => Pure.pure a) = x := by
  funext s
  show bind x pure s = x s
  unfold bind
  cases x s with
  | mk r m =>
    cases r with
    | ok a => rfl
    | error e => rfl

theorem when_ok {c : Bool} {x : Prog S ε Unit} :
    when c x s = (.ok (), s') ↔ if c then x s = (.ok (), s') else s = s' := by
  unfold when
  cases c with
  | true => rfl
  | false => simp

@[simp] theorem ok_or_ok {o : Option α} :
    (ok_or o e : Prog S ε α) s = (.ok a, s') ↔ o = some a ∧ s = s' := by
  cases o with
  | none => simp [ok_or]
  | some b => simp [ok_or]

theorem ok_or_bind_ok {o : Option α} {f : α → Prog S ε β} :
    (ok_or o e >>= f) s = (.ok b, s') ↔ ∃ a, o = some a ∧ f a s = (.ok b, s') := by
  rw [bind_ok]
  cases o with
  | none => simp
  | some a => simp

@[simp] theorem ok_or_some_bind {f : α → Prog S ε β} : (ok_or (some a) e >>= f) = f a := rfl

@[simp] theorem ok_or_none_bind {f : α → Prog S ε β} : (ok_or none e >>= f) = stop e := rfl

@[simp] theorem lift_ok_bind {f : α → Prog S ε β} : (lift (.ok a) >>= f) = f a := rfl

@[simp] theorem lift_error_bind {f : α → Prog S ε β} : (lift (.error e) >>= f) = stop e := rfl

theorem lift_bind_ok {x : Except ε α} {f : α → Prog S ε β} :
    (lift x >>= f) s = (.ok b, s') ↔ ∃ a, x = .ok a ∧ f a s = (.ok b, s') := by
  rw [bind_ok]
  cases x with
  | error e => simp [lift]
  | ok a => simp [lift]

end

end Prog

/-- From `P`, the program ends in `Q` with a value or in `E` with an error. -/
def Triple (P : S → Prop) (x : Prog S ε α) (Q : α → S → Prop) (E : ε → S → Prop) : Prop :=
  ∀ s, P s →
    match x s with
    | (.ok a, s') => Q a s'
    | (.error e, s') => E e s'

namespace Triple

variable {P P' : S → Prop} {Q Q' : α → S → Prop} {R : β → S → Prop} {E E' : ε → S → Prop}

theorem pure {a : α} (h : ∀ s, P s → Q a s) : Triple P (Pure.pure a : Prog S ε α) Q E :=
  fun s hs => h s hs

theorem bind {x : Prog S ε α} {f : α → Prog S ε β} (hx : Triple P x Q E)
    (hf : ∀ a, Triple (Q a) (f a) R E) : Triple P (x >>= f) R E := by
  intro s hs
  have h := hx s hs
  show match Prog.bind x f s with
    | (.ok b, s') => R b s'
    | (.error e, s') => E e s'
  unfold Prog.bind
  cases hr : x s with
  | mk r s' =>
    rw [hr] at h
    cases r with
    | ok a => exact hf a s' h
    | error e => exact h

theorem stop {e : ε} (h : ∀ s, P s → E e s) : Triple P (Prog.stop e : Prog S ε α) Q E :=
  fun s hs => h s hs

theorem modify {f : S → S} {Q : Unit → S → Prop} (h : ∀ s, P s → Q () (f s)) :
    Triple P (Prog.modify f : Prog S ε Unit) Q E := fun s hs => h s hs

theorem conseq {x : Prog S ε α} (hx : Triple P x Q E) (hP : ∀ s, P' s → P s)
    (hQ : ∀ a s, Q a s → Q' a s) (hE : ∀ e s, E e s → E' e s) : Triple P' x Q' E' := by
  intro s hs
  have h := hx s (hP s hs)
  cases hr : x s with
  | mk r s' =>
    rw [hr] at h
    cases r with
    | ok a => exact hQ a s' h
    | error e => exact hE e s' h

theorem attempt {select : ε → Except ε ε'} {x : Prog S ε α} {Q' : Except ε' α → S → Prop}
    (hx : Triple P x (fun a => Q' (.ok a)) fun e s =>
      match select e with
      | .ok e' => Q' (.error e') s
      | .error e => E e s) : Triple P (Prog.attempt select x) Q' E := by
  intro s hs
  have h := hx s hs
  unfold Prog.attempt
  cases hr : x s with
  | mk r s' =>
    rw [hr] at h
    cases r with
    | ok a => exact h
    | error e =>
      simp only at h ⊢
      cases hsel : select e with
      | ok e' =>
        rw [hsel] at h
        exact h
      | error e'' =>
        rw [hsel] at h
        exact h

/-- A program that reads the state goes on from that state. -/
theorem get_bind {f : S → Prog S ε α} (h : ∀ s, P s → Triple (· = s) (f s) Q E) :
    Triple P (Prog.get >>= f) Q E := fun s hs => h s hs s rfl

theorem modify_bind {M : S → Prop} {f : S → S} {x : Unit → Prog S ε α}
    (hP : ∀ s, P s → M (f s)) (hx : Triple M (x ()) Q E) : Triple P (Prog.modify f >>= x) Q E :=
      fun s hs => hx _ (hP s hs)

/-- The state at the end, whatever the end is. -/
theorem after {x : Prog S ε α} {R : S → Prop} (hx : Triple P x (fun _ => R) fun _ => R) {s : S}
    (hs : P s) : R (x s).2 := by
  have h := hx s hs
  cases hr : x s with
  | mk r s' =>
    rw [hr] at h
    cases r with
    | ok a => exact h
    | error e => exact h

theorem and {x : Prog S ε α} (hx : Triple P x Q E) (hx' : Triple P' x Q' E') :
    Triple (fun s => P s ∧ P' s) x (fun a s => Q a s ∧ Q' a s) fun e s => E e s ∧ E' e s := by
  rintro s ⟨hs, hs'⟩
  have h := hx s hs
  have h' := hx' s hs'
  cases hr : x s with
  | mk r s' =>
    rw [hr] at h h'
    cases r with
    | ok a => exact ⟨h, h'⟩
    | error e => exact ⟨h, h'⟩

/-- A fact about no state. -/
theorem of_and {φ : Prop} {x : Prog S ε α} (h : φ → Triple P x Q E) :
    Triple (fun s => φ ∧ P s) x Q E := fun s hs => h hs.1 s hs.2

end Triple

end programs
