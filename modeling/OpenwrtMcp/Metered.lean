-- Programs that stop when a meter passes a limit, next to the same programs with no limit.
import OpenwrtMcp.Programs

namespace programs

variable {S ε α β : Type}

/-- `x` does what `y` does as long as the meter of `y` ends within the limit, and stops with
`e` otherwise. The meter of `y` never falls. -/
structure Metered (meter : S → Nat) (max : Nat) (e : ε) (x y : Prog S ε α) : Prop where
  run : ∀ s, meter s ≤ max →
    (x s = y s ∧ ∀ a s', y s = (.ok a, s') → meter s' ≤ max) ∨
      ((x s).1 = .error e ∧ ∀ a s', y s = (.ok a, s') → max < meter s')
  grows : ∀ s a s', y s = (.ok a, s') → meter s ≤ meter s'

namespace Metered

variable {meter : S → Nat} {max : Nat} {e : ε}

/-- A program that leaves the meter alone. -/
theorem same {x : Prog S ε α} (h : ∀ s a s', x s = (.ok a, s') → meter s' = meter s) :
    Metered meter max e x x where
  run s hs := .inl ⟨rfl, fun a s' hrun => (h s a s' hrun) ▸ hs⟩
  grows s a s' hrun := Nat.le_of_eq (h s a s' hrun).symm

theorem pure (a : α) : Metered meter max e (Pure.pure a : Prog S ε α) (Pure.pure a) :=
  same fun s b s' h => by rw [(Prog.pure_ok.1 h).2]

theorem stop (e' : ε) : Metered meter max e (Prog.stop e' : Prog S ε α) (Prog.stop e') :=
  same fun _ _ _ h => (Prog.stop_ok.1 h).elim

theorem bind {x y : Prog S ε α} {f g : α → Prog S ε β} (hx : Metered meter max e x y)
    (hf : ∀ a, Metered meter max e (f a) (g a)) : Metered meter max e (x >>= f) (y >>= g) where
  run s hs := by
    have hbind : ∀ (z : Prog S ε α) (k : α → Prog S ε β) {a m}, z s = (.ok a, m) →
        (z >>= k) s = k a m := by
      intro z k a m hz
      show Prog.bind z k s = _
      rw [Prog.bind, hz]
    have hfail : ∀ (z : Prog S ε α) (k : α → Prog S ε β) {e m}, z s = (.error e, m) →
        (z >>= k) s = (.error e, m) := by
      intro z k e m hz
      show Prog.bind z k s = _
      rw [Prog.bind, hz]
    rcases hx.run s hs with ⟨heq, hle⟩ | ⟨hstop, hlt⟩
    · cases hy : y s with
      | mk r m =>
        rw [hy] at heq
        cases r with
        | ok a =>
          rw [hbind x f heq, hbind y g hy]
          exact (hf a).run m (hle a m hy)
        | error e' =>
          left
          rw [hfail x f heq, hfail y g hy]
          exact ⟨rfl, fun a s' h => by cases h⟩
    · right
      refine ⟨?_, fun b s' h => ?_⟩
      · rw [hfail x f (Prod.ext hstop rfl : x s = (.error e, (x s).2))]
      · obtain ⟨a, m, hy, hg⟩ := Prog.bind_ok.1 h
        exact Nat.lt_of_lt_of_le (hlt a m hy) ((hf a).grows m b s' hg)
  grows s b s' h := by
    obtain ⟨a, m, hy, hg⟩ := Prog.bind_ok.1 h
    exact Nat.le_trans (hx.grows s a m hy) ((hf a).grows m b s' hg)

theorem when {c : Bool} {x y : Prog S ε Unit} (h : Metered meter max e x y) :
    Metered meter max e (Prog.when c x) (Prog.when c y) := by
  cases c with
  | false => exact pure ()
  | true => exact h

theorem ok_or {o : Option α} {e' : ε} {f g : α → Prog S ε β}
    (h : ∀ a, o = some a → Metered meter max e (f a) (g a)) :
    Metered meter max e (Prog.ok_or o e' >>= f) (Prog.ok_or o e' >>= g) := by
  cases o with
  | none => exact stop e'
  | some a => exact h a rfl

theorem lift {r : Except ε α} {f g : α → Prog S ε β}
    (h : ∀ a, r = .ok a → Metered meter max e (f a) (g a)) :
    Metered meter max e (Prog.lift r >>= f) (Prog.lift r >>= g) := by
  cases r with
  | error e' => exact stop e'
  | ok a => exact h a rfl

theorem ite {c : Prop} [Decidable c] {x y x' y' : Prog S ε α} (hx : Metered meter max e x y)
    (hy : Metered meter max e x' y') :
    Metered meter max e (if c then x else x') (if c then y else y') := by
  split
  · exact hx
  · exact hy

end Metered

end programs
