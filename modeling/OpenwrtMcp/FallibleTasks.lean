-- Programs that may fail: what they hold is given back on an error, at their end, or when they are
-- dropped.
import OpenwrtMcp.Protocols

namespace tasks

abbrev Fallible (Call : Type) (Answer : Call → Type) (Time ε α : Type) :=
  ExceptT ε (Task Call Answer Time) α

section
variable {Call : Type} {Answer : Call → Type} {Time ε α β : Type}

namespace Fallible

/-- A call, and its answer. -/
def ask (c : Call) : Fallible Call Answer Time ε (Answer c) := .lift (Task.ask c)

/-- A call that is waited for. -/
def await (c : Call) : Fallible Call Answer Time ε (Answer c) := .lift (Task.await c)

/-- The result as a value: the program goes on also after an error. -/
def attempt (p : Fallible Call Answer Time ε α) : Fallible Call Answer Time ε (Except ε α) :=
  .lift p.run

def covered (release : List Call) (p : Fallible Call Answer Time ε α) :
    Fallible Call Answer Time ε α := .mk (p.run.covered release)

def holding (release : List Call) (p : Fallible Call Answer Time ε α) :
    Fallible Call Answer Time ε α := .mk (p.run.holding release)

/-- After an error, the calls are made. -/
def settle (release : List Call) : Except ε α → Task Call Answer Time (Except ε α)
  | .ok a => .done (.ok a)
  | .error e => Task.run release (.done (.error e))

/-- What is held is given back on an error. When there is none, it is still held. -/
def guarding (release : List Call) (p : Fallible Call Answer Time ε α) :
    Fallible Call Answer Time ε α := .mk (p.run.covered release >>= settle release)

/-- The program up to a time, or an error when that has come first. -/
def timeout (limit : Time) (late : ε) (p : Fallible Call Answer Time ε α) :
    Fallible Call Answer Time ε α :=
  .mk (p.run.timeout limit >>= fun r => .done (r.getD (.error late)))

end Fallible

/-! ## The rules -/

variable {L : Type} {C : Contract L Call Answer} {Q : L → Except ε α → Prop}
  {R : L → Except ε β → Prop} {D : L → Prop} {l : L} {p : Fallible Call Answer Time ε α}

/-- What is needed where a program ends: the rest is safe, or there is none after an error. -/
def Then (R : L → Except ε β → Prop) (k : α → L → Prop) (l : L) : Except ε α → Prop
  | .ok a => k a l
  | .error e => R l (.error e)

namespace Safe

theorem and_then_iff {f : α → Fallible Call Answer Time ε β} :
    Safe C R D (p >>= f).run l ↔
      Safe C (fun l r => Then R (fun a l => Safe C R D (f a).run l) l r) D p.run l := by
  rw [ExceptT.run_bind, bind_iff]
  have hthen : ∀ (l : L) (r : Except ε α), Safe C R D (ExceptT.bindCont f r) l ↔
      Then R (fun a l => Safe C R D (f a).run l) l r := by
    intro l r
    cases r with
    | ok a => exact Iff.rfl
    | error e => exact Iff.rfl
  exact ⟨fun h => h.conseq (fun l r => (hthen l r).1) fun _ hD => hD,
    fun h => h.conseq (fun l r => (hthen l r).2) fun _ hD => hD⟩

theorem lift_iff {t : Task Call Answer Time α} :
    Safe C Q D (ExceptT.lift t : Fallible Call Answer Time ε α).run l ↔
      Safe C (fun l a => Q l (.ok a)) D t l := bind_iff

theorem fallible_ask_iff {c : Call} {Q : L → Except ε (Answer c) → Prop} :
    Safe C Q D (Fallible.ask c : Fallible Call Answer Time ε _).run l ↔
      C.may l c ∧ ∀ a, C.knows l c a → Q (C.after l c a) (.ok a) := lift_iff

theorem fallible_await_iff {c : Call} {Q : L → Except ε (Answer c) → Prop} :
    Safe C Q D (Fallible.await c : Fallible Call Answer Time ε _).run l ↔
      C.may l c ∧ (∀ a, C.knows l c a → Q (C.after l c a) (.ok a)) ∧ D l := lift_iff

/-- The program goes on after a call. -/
theorem then_ask {c : Call} {f : Answer c → Fallible Call Answer Time ε β} (hmay : C.may l c)
    (h : ∀ a, C.knows l c a → Safe C R D (f a).run (C.after l c a)) :
    Safe C R D (Fallible.ask c >>= f).run l :=
  and_then_iff.2 (fallible_ask_iff.2 ⟨hmay, h⟩)

/-- The program goes on after a wait, where it can be dropped. -/
theorem then_await {c : Call} {f : Answer c → Fallible Call Answer Time ε β} (hmay : C.may l c)
    (hdrop : D l) (h : ∀ a, C.knows l c a → Safe C R D (f a).run (C.after l c a)) :
    Safe C R D (Fallible.await c >>= f).run l :=
  and_then_iff.2 (fallible_await_iff.2 ⟨hmay, h, hdrop⟩)

/-- The program goes on after a part that is safe, or ends with its error. -/
theorem and_then {f : α → Fallible Call Answer Time ε β} (h : Safe C Q D p.run l)
    (hok : ∀ l a, Q l (.ok a) → Safe C R D (f a).run l)
    (herror : ∀ l e, Q l (.error e) → R l (.error e)) : Safe C R D (p >>= f).run l := by
  refine and_then_iff.2 (h.conseq ?_ fun _ hD => hD)
  intro l r hr
  cases r with
  | ok a => exact hok l a hr
  | error e => exact herror l e hr

/-- The program goes on in any case after a part that is safe. -/
theorem then_attempt {f : Except ε α → Fallible Call Answer Time ε β} (h : Safe C Q D p.run l)
    (hnext : ∀ l r, Q l r → Safe C R D (f r).run l) : Safe C R D (p.attempt >>= f).run l :=
  and_then_iff.2 (lift_iff.2 (h.conseq hnext fun _ hD => hD))

theorem attempt_iff {Q : L → Except ε (Except ε α) → Prop} :
    Safe C Q D p.attempt.run l ↔ Safe C (fun l r => Q l (.ok r)) D p.run l := lift_iff

theorem fallible_holding_iff {release : List Call} :
    Safe C Q D (p.holding release).run l ↔ Safe C
      (fun l r => Unwinds C (fun l => Q l r) release l) (Unwinds C D release) p.run l := holding_iff

/-- What is needed where a guarded program ends. -/
def Settled (C : Contract L Call Answer) (Q : L → Except ε α → Prop) (release : List Call) (l : L) :
    Except ε α → Prop
  | .ok a => Q l (.ok a)
  | .error e => Unwinds C (fun l => Q l (.error e)) release l

theorem guarding_iff {release : List Call} :
    Safe C Q D (p.guarding release).run l ↔
      Safe C (Settled C Q release) (Unwinds C D release) p.run l := by
  show Safe C Q D (p.run.covered release >>= Fallible.settle release) l ↔ _
  rw [bind_iff, covered_iff]
  have hsettle : ∀ (l : L) (r : Except ε α),
      Safe C Q D (Fallible.settle release r : Task Call Answer Time _) l ↔
        Settled C Q release l r := by
    intro l r
    cases r with
    | ok a => exact Iff.rfl
    | error e => exact run_iff
  exact ⟨fun h => h.conseq (fun l r => (hsettle l r).1) fun _ hD => hD,
    fun h => h.conseq (fun l r => (hsettle l r).2) fun _ hD => hD⟩

theorem fallible_timeout {limit : Time} {late : ε} (h : Safe C Q D p.run l)
    (hlate : ∀ l, D l → Q l (.error late)) : Safe C Q D (p.timeout limit late).run l := by
  show Safe C Q D (p.run.timeout limit >>= _) l
  rw [bind_iff]
  refine (timeout h).conseq ?_ fun _ hD => hD
  intro l r hr
  cases r with
  | none => exact hlate l hr
  | some r => exact hr

end Safe

namespace Task

variable {P : Call → Prop}

theorem Calls.fallible_bind {f : α → Fallible Call Answer Time ε β} (h : p.run.Calls P)
    (hf : ∀ a, (f a).run.Calls P) : (p >>= f).run.Calls P := by
  rw [ExceptT.run_bind]
  refine h.bind ?_
  intro r
  cases r with
  | ok a => exact hf a
  | error e => trivial

theorem Calls.lift {t : Task Call Answer Time α} (h : t.Calls P) :
    (ExceptT.lift t : Fallible Call Answer Time ε α).run.Calls P := h.bind fun _ => trivial

theorem Calls.guarding {release : List Call} (hrelease : ∀ c ∈ release, P c) (h : p.run.Calls P) :
    (p.guarding release).run.Calls P := by
  refine (h.covered hrelease).bind ?_
  intro r
  cases r with
  | ok a => trivial
  | error e => exact .run hrelease trivial

theorem Calls.fallible_timeout {limit : Time} {late : ε} (h : p.run.Calls P) :
    (p.timeout limit late).run.Calls P := h.timeout.bind fun _ => trivial

end Task

end

/-! ## What is kept -/

section
variable {Call : Type} {Answer : Call → Type} {Time ε α β : Type} {L : Type}
  {C : Contract L Call Answer} {I D : L → Prop} {p : Fallible Call Answer Time ε α}

/-- The call may be made wherever this holds, and it holds after it. -/
def Keeping (C : Contract L Call Answer) (I : L → Prop) (c : Call) : Prop :=
  ∀ l, I l → C.may l c ∧ ∀ a, C.knows l c a → I (C.after l c a)

/-- The program is safe wherever `I` holds, and keeps it. When it is dropped, `D` holds. -/
def Keeps (C : Contract L Call Answer) (I D : L → Prop) (t : Task Call Answer Time α) : Prop :=
  ∀ l, I l → Safe C (fun l' _ => I l') D t l

theorem Keeps.of_calls {t : Task Call Answer Time α} (hD : ∀ l, I l → D l)
    (h : t.Calls (Keeping C I)) : Keeps C I D t :=
  fun _ hI => (Safe.of_calls h (fun l _ hl hc => hc l hl) hI).conseq (fun _ _ hl => hl) hD

theorem unwinds_keeping {release : List Call} (h : ∀ c ∈ release, Keeping C I c) {l : L}
    (hI : I l) : Unwinds C I release l := by
  induction release generalizing l with
  | nil => exact hI
  | cons c cs ih =>
    rw [List.forall_mem_cons] at h
    obtain ⟨hmay, hafter⟩ := h.1 l hI
    exact ⟨hmay, fun a ha => ih h.2 (hafter a ha)⟩

namespace Keeps

theorem pure {a : α} : Keeps C I D (pure a : Fallible Call Answer Time ε α).run := fun _ hI => hI

theorem throw {e : ε} : Keeps C I D (throw e : Fallible Call Answer Time ε α).run := fun _ hI => hI

theorem ask {c : Call} (h : Keeping C I c) :
    Keeps C I D (Fallible.ask c : Fallible Call Answer Time ε _).run :=
  fun l hI => Safe.fallible_ask_iff.2 (h l hI)

theorem and_then {f : α → Fallible Call Answer Time ε β} (h : Keeps C I D p.run)
    (hf : ∀ a, Keeps C I D (f a).run) : Keeps C I D (p >>= f).run :=
  fun l hI => Safe.and_then (h l hI) (fun l' a hl' => hf a l' hl') fun _ _ hl' => hl'

theorem attempt (h : Keeps C I D p.run) : Keeps C I D p.attempt.run :=
  fun l hI => Safe.attempt_iff.2 (h l hI)

/-- Out of time, the program is dropped, and what is behind it goes on. -/
theorem timeout {limit : Time} {late : ε} (hD : ∀ l, I l → D l) (h : Keeps C I I p.run) :
    Keeps C I D (p.timeout limit late).run :=
  fun l hI => (Safe.fallible_timeout (h l hI) fun _ hl' => hl').conseq (fun _ _ hl' => hl') hD

theorem holding {release : List Call} (hrelease : ∀ c ∈ release, Keeping C I c)
    (hdrop : ∀ c ∈ release, Keeping C D c) (h : Keeps C I D p.run) :
    Keeps C I D (p.holding release).run := by
  intro l hI
  rw [Safe.fallible_holding_iff]
  exact (h l hI).conseq (fun _ _ hl' => unwinds_keeping hrelease hl')
    fun _ hl' => unwinds_keeping hdrop hl'

theorem guarding {release : List Call} (hrelease : ∀ c ∈ release, Keeping C I c)
    (hdrop : ∀ c ∈ release, Keeping C D c) (h : Keeps C I D p.run) :
    Keeps C I D (p.guarding release).run := by
  intro l hI
  rw [Safe.guarding_iff]
  refine (h l hI).conseq ?_ fun _ hl' => unwinds_keeping hdrop hl'
  intro l' r hl'
  cases r with
  | ok a => exact hl'
  | error e => exact unwinds_keeping hrelease hl'

end Keeps

end

end tasks
