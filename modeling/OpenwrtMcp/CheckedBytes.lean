-- Bytes that are read at offsets nobody vouches for. A sum of two offsets panics when the machine
-- has no word for it, unless it is a checked one.
import OpenwrtMcp.Programs
import OpenwrtMcp.Slices

open programs slices

namespace checked_bytes

variable {ε α β : Type} {calm : Prop}

abbrev Bytes := List UInt8

def fail (e : ε) : Except (Abort ε) α := .error (.err e)

/-- `a + b`, for words of 64 bits. -/
def add (a b : Nat) : Except (Abort ε) Nat := if a + b < 2 ^ 64 then .ok (a + b) else .error .panic

/-- `a.checked_add(b).ok_or(e)?` -/
def checked_add (a b : Nat) (e : ε) : Except (Abort ε) Nat :=
  if a + b < 2 ^ 64 then .ok (a + b) else fail e

/-- `bytes.get(low..high)` -/
def get (bytes : Bytes) (low high : Nat) : Option Bytes :=
  if low ≤ high ∧ high ≤ bytes.length then some ((bytes.drop low).take (high - low)) else none

/-- The bytes of a part that is known to be there. -/
def part (bytes : Bytes) (start length : Nat) : Bytes := (bytes.drop start).take length

/-- `bytes.get(start..start.checked_add(length).ok_or(e)?).ok_or(e)` -/
def span (e : ε) (bytes : Bytes) (start length : Nat) : Except (Abort ε) Bytes := do
  let stop ← checked_add start length e
  match get bytes start stop with
  | none => fail e
  | some part => .ok part

/-- The lowest byte stands first. -/
def from_le_bytes : Bytes → Nat
  | [] => 0
  | b :: rest => b.toNat + 256 * from_le_bytes rest

/-- The number that stands in `width` bytes. -/
def number (width : Nat) (e : ε) (bytes : Bytes) (offset : Nat) : Except (Abort ε) Nat := do
  let part ← span e bytes offset width
  .ok (from_le_bytes part)

def number_at (bytes : Bytes) (width offset : Nat) : Nat := from_le_bytes (part bytes offset width)

theorem from_le_bytes_lt (bytes : Bytes) : from_le_bytes bytes < 256 ^ bytes.length := by
  induction bytes with
  | nil => simp [from_le_bytes]
  | cons b rest ih =>
    have hb := b.toNat_lt
    rw [from_le_bytes, List.length_cons, Nat.pow_succ]
    omega

theorem number_at_lt (bytes : Bytes) (width offset : Nat) :
    number_at bytes width offset < 256 ^ width := by
  have hlength : (part bytes offset width).length ≤ width := by
    unfold part
    rw [List.length_take]
    exact Nat.min_le_left _ _
  exact (from_le_bytes_lt _).trans_le (Nat.pow_le_pow_right (by decide) hlength)

/-! ## What a computation does -/

/-- It does not panic, as long as `calm` holds, and a value that it gives is as described. -/
def Spec (calm : Prop) (x : Except (Abort ε) α) (P : α → Prop) : Prop :=
  (calm → x ≠ .error .panic) ∧ ∀ a, x = .ok a → P a

namespace Spec

variable {P Q : α → Prop} {R : β → Prop}

theorem ok {a : α} (h : P a) : Spec calm (.ok a : Except (Abort ε) α) P := by
  constructor
  · intro _ hpanic
    cases hpanic
  · intro b hb
    cases hb
    exact h

theorem fail (e : ε) : Spec calm (checked_bytes.fail e : Except (Abort ε) α) P := by
  constructor
  · intro _ h
    cases h
  · intro _ h
    cases h

theorem conseq {x : Except (Abort ε) α} (h : Spec calm x P) (hPQ : ∀ a, P a → Q a) :
    Spec calm x Q :=
  ⟨h.1, fun a ha => hPQ a (h.2 a ha)⟩

theorem bind {x : Except (Abort ε) α} {f : α → Except (Abort ε) β} (hx : Spec calm x P)
    (hf : ∀ a, P a → Spec calm (f a) R) : Spec calm (x >>= f) R := by
  cases x with
  | error e =>
    constructor
    · intro hcalm heq
      cases heq
      exact hx.1 hcalm rfl
    · intro b hb
      cases hb
  | ok a => exact hf a (hx.2 a rfl)

/-- A condition that is no ground to stop. -/
theorem guard {c : Prop} [Decidable c] {e : ε} {x : Except (Abort ε) α}
    (h : ¬ c → Spec calm x P) : Spec calm (if c then checked_bytes.fail e else x) P := by
  by_cases hc : c
  · rw [if_pos hc]
    exact fail e
  · rw [if_neg hc]
    exact h hc

end Spec

theorem add_spec {a b : Nat} (h : calm → a + b < 2 ^ 64) :
    Spec calm (add a b : Except (Abort ε) Nat) (· = a + b) := by
  unfold add
  by_cases hlt : a + b < 2 ^ 64
  · rw [if_pos hlt]
    exact .ok rfl
  · rw [if_neg hlt]
    constructor
    · intro hcalm
      exact absurd (h hcalm) hlt
    · intro _ heq
      cases heq

theorem checked_add_spec (a b : Nat) (e : ε) :
    Spec calm (checked_add a b e) (· = a + b) := by
  unfold checked_add
  by_cases hlt : a + b < 2 ^ 64
  · rw [if_pos hlt]
    exact .ok rfl
  · rw [if_neg hlt]
    exact .fail e

theorem get_eq_some {bytes bs : Bytes} {low high : Nat} : get bytes low high = some bs ↔
    low ≤ high ∧ high ≤ bytes.length ∧ bs = part bytes low (high - low) := by
  unfold get part
  split
  · rename_i h
    simp [h, eq_comm]
  · rename_i h
    simp only [reduceCtorEq, false_iff]
    intro hsome
    exact h ⟨hsome.1, hsome.2.1⟩

theorem span_spec (e : ε) (bytes : Bytes) (start length : Nat) :
    Spec calm (span e bytes start length) fun bs =>
      start + length ≤ bytes.length ∧ bs = part bytes start length := by
  unfold span
  refine (checked_add_spec start length e).bind ?_
  intro stop hstop
  rw [hstop]
  cases hget : get bytes start (start + length) with
  | none => exact .fail e
  | some bs =>
    obtain ⟨-, hbound, hbs⟩ := get_eq_some.1 hget
    rw [Nat.add_sub_cancel_left] at hbs
    exact .ok ⟨hbound, hbs⟩

theorem number_spec (width : Nat) (e : ε) (bytes : Bytes) (offset : Nat) :
    Spec calm (number width e bytes offset) fun n =>
      offset + width ≤ bytes.length ∧ n = number_at bytes width offset := by
  unfold number
  refine (span_spec e bytes offset width).bind ?_
  intro bs hbs
  exact .ok ⟨hbs.1, by rw [hbs.2]; rfl⟩

/-! ## Longer files -/

/-- The second computation gives every value that the first one gives. -/
def Follows (x y : Except (Abort ε) α) : Prop := ∀ a, x = .ok a → y = .ok a

theorem Follows.refl (x : Except (Abort ε) α) : Follows x x := fun _ h => h

theorem Follows.bind {x y : Except (Abort ε) α} {f g : α → Except (Abort ε) β} (h : Follows x y)
    (hfg : ∀ a, x = .ok a → Follows (f a) (g a)) : Follows (x >>= f) (y >>= g) := by
  intro b hb
  obtain ⟨a, ha, hfa⟩ := except_bind_ok.1 hb
  exact except_bind_ok.2 ⟨a, h a ha, hfg a ha b hfa⟩

theorem Follows.guard {c : Prop} [Decidable c] {e : ε} {x y : Except (Abort ε) α}
    (h : Follows x y) : Follows (if c then fail e else x) (if c then fail e else y) := by
  by_cases hc : c
  · rw [if_pos hc, if_pos hc]
    exact .refl _
  · rw [if_neg hc, if_neg hc]
    exact h

theorem part_append {bytes more : Bytes} {start length : Nat}
    (h : start + length ≤ bytes.length) : part (bytes ++ more) start length =
      part bytes start length := by
  unfold part
  rw [List.drop_append_of_le_length (by omega), List.take_append_of_le_length]
  rw [List.length_drop]
  omega

theorem span_follows (e : ε) (bytes more : Bytes) (start length : Nat) :
    Follows (span e bytes start length) (span e (bytes ++ more) start length) := by
  intro bs h
  have hspec : Spec True (span e bytes start length) _ := span_spec e bytes start length
  obtain ⟨hbound, hbs⟩ := hspec.2 bs h
  unfold span at h ⊢
  refine except_bind_ok.2 ?_
  obtain ⟨stop, hstop, -⟩ := except_bind_ok.1 h
  refine ⟨stop, hstop, ?_⟩
  have hadd : Spec True (checked_add start length e) _ := checked_add_spec start length e
  have hsum := hadd.2 stop hstop
  have hget : get (bytes ++ more) start stop = some bs := by
    refine get_eq_some.2 ⟨by omega, by rw [List.length_append]; omega, ?_⟩
    rw [hbs, hsum, Nat.add_sub_cancel_left, part_append hbound]
  rw [hget]

theorem number_follows (width : Nat) (e : ε) (bytes more : Bytes) (offset : Nat) :
    Follows (number width e bytes offset) (number width e (bytes ++ more) offset) :=
  (span_follows e bytes more offset width).bind fun _ _ => .refl _

end checked_bytes
