-- Checks with one verdict. They refuse with one error only, never panic, and the values that they
-- give are described exactly.
import OpenwrtMcp.CheckedBytes

open checked_bytes programs slices

namespace verdicts

variable {ε α β : Type} {e : ε} {P Q : α → Prop} {R : α → β → Prop}

/-- The computation gives the values that are described, and else it refuses with `e`. -/
structure Decides (e : ε) (x : Except (Abort ε) α) (P : α → Prop) : Prop where
  ok_iff : ∀ a, x = .ok a ↔ P a
  refuses : ∀ stop, x = .error stop → stop = .err e

def refuse_if (e : ε) (c : Prop) [Decidable c] : Except (Abort ε) Unit :=
  if c then fail e else .ok ()

/-- `o.ok_or(e)?` -/
def ok_or (o : Option α) (e : ε) : Except (Abort ε) α :=
  match o with
  | none => fail e
  | some a => .ok a

namespace Decides

theorem no_panic {x : Except (Abort ε) α} (h : Decides e x P) : x ≠ .error .panic := by
  intro hpanic
  cases h.refuses _ hpanic

/-- Two checks of the same give the same. -/
theorem congr {x y : Except (Abort ε) α} (hx : Decides e x P) (hy : Decides e y Q)
    (h : ∀ a, P a ↔ Q a) : x = y := by
  cases hrun : x with
  | ok a => exact ((hy.ok_iff a).2 ((h a).1 ((hx.ok_iff a).1 hrun))).symm
  | error stop =>
    have hstop := hx.refuses stop hrun
    cases hrun' : y with
    | ok a =>
      have hok := (hx.ok_iff a).2 ((h a).2 ((hy.ok_iff a).1 hrun'))
      rw [hrun] at hok
      cases hok
    | error stop' => rw [hstop, hy.refuses stop' hrun']

theorem conseq {x : Except (Abort ε) α} (h : Decides e x P) (hPQ : ∀ a, P a ↔ Q a) :
    Decides e x Q :=
  ⟨fun a => (h.ok_iff a).trans (hPQ a), h.refuses⟩

theorem ok (a : α) : Decides e (.ok a : Except (Abort ε) α) (· = a) where
  ok_iff b := by simp [eq_comm]
  refuses stop h := by cases h

theorem refuse_if (c : Prop) [Decidable c] :
    Decides e (verdicts.refuse_if e c) fun _ => ¬ c where
  ok_iff a := by
    unfold verdicts.refuse_if
    by_cases hc : c
    · simp [hc, fail]
    · simp [hc]
  refuses stop h := by
    unfold verdicts.refuse_if at h
    split at h
    · cases h
      rfl
    · cases h

theorem ok_or (o : Option α) : Decides e (verdicts.ok_or o e) fun a => o = some a where
  ok_iff a := by
    cases o with
    | none => simp [verdicts.ok_or, fail]
    | some b => simp [verdicts.ok_or]
  refuses stop h := by
    cases o with
    | none =>
      cases h
      rfl
    | some b => cases h

theorem bind {x : Except (Abort ε) α} {f : α → Except (Abort ε) β} (hx : Decides e x P)
    (hf : ∀ a, P a → Decides e (f a) (R a)) : Decides e (x >>= f) fun b => ∃ a, P a ∧ R a b where
  ok_iff b := by
    rw [except_bind_ok]
    constructor
    · rintro ⟨a, ha, hb⟩
      have hP := (hx.ok_iff a).1 ha
      exact ⟨a, hP, ((hf a hP).ok_iff b).1 hb⟩
    · rintro ⟨a, hP, hR⟩
      exact ⟨a, (hx.ok_iff a).2 hP, ((hf a hP).ok_iff b).2 hR⟩
  refuses stop h := by
    cases hrun : x with
    | error stop' =>
      rw [hrun] at h
      cases h
      exact hx.refuses _ hrun
    | ok a =>
      rw [hrun] at h
      exact (hf a ((hx.ok_iff a).1 hrun)).refuses stop h

/-- A test before the rest. -/
theorem test {c : Prop} [Decidable c] {x : Unit → Except (Abort ε) β} {R : β → Prop}
    (hx : ¬ c → Decides e (x ()) R) :
    Decides e (verdicts.refuse_if e c >>= x) fun b => ¬ c ∧ R b :=
  (bind (R := fun _ => R) (refuse_if c) fun _ => hx).conseq fun b => by simp

/-- An index that is in bounds. -/
theorem index {xs : List α} {i : Nat} (h : i < xs.length) :
    Decides e (slices.index xs i) fun x => xs[i]? = some x := by
  rw [index_eq (List.getElem?_eq_getElem h)]
  exact (ok _).conseq fun a => by simp [List.getElem?_eq_getElem h, eq_comm]

/-- A slice that is in bounds. -/
theorem slice {xs : List α} {low high : Nat} (h : low ≤ high) (hhigh : high ≤ xs.length) :
    Decides e (slices.slice xs low high) (· = (xs.drop low).take (high - low)) := by
  rw [slice_eq h hhigh]
  exact ok _

end Decides

/-! ## Parts of bytes -/

variable {bytes piece whole : Bytes} {start width i : Nat}

theorem get_decides (low width : Nat) :
    Decides e (ok_or (get bytes low (low + width)) e) fun a =>
      low + width ≤ bytes.length ∧ a = part bytes low width :=
  (Decides.ok_or _).conseq fun a => by
    rw [get_eq_some, Nat.add_sub_cancel_left]
    simp

/-- A piece stands at an offset. -/
theorem stands_iff : piece <+: whole.drop start ↔ piece = part whole start piece.length :=
  List.prefix_iff_eq_take

theorem stands_length (h : piece <+: whole.drop start) (hpos : 0 < piece.length) :
    start + piece.length ≤ whole.length := by
  have hle := h.length_le
  rw [List.length_drop] at hle
  omega

theorem length_part (h : start + width ≤ bytes.length) :
    (part bytes start width).length = width := by
  unfold part
  rw [List.length_take, List.length_drop]
  omega

theorem part_stands (bytes : Bytes) (start width : Nat) :
    part bytes start width <+: bytes.drop start := List.take_prefix _ _

/-- A part of a piece is a part of the whole. -/
theorem part_of_piece (h : piece <+: whole.drop start) (hfits : i + width ≤ piece.length) :
    part whole (start + i) width = part piece i width := by
  obtain ⟨rest, hrest⟩ := h
  unfold part
  rw [← List.drop_drop, ← hrest, List.drop_append_of_le_length (by omega),
    List.take_append_of_le_length (by rw [List.length_drop]; omega)]

/-- Pieces of a piece stand in the whole. -/
theorem stands_trans {inner : Bytes} (h : piece <+: whole.drop start) (hi : i ≤ piece.length)
    (hinner : inner <+: piece.drop i) : inner <+: whole.drop (start + i) := by
  obtain ⟨rest, hrest⟩ := h
  obtain ⟨more, hmore⟩ := hinner
  rw [← List.drop_drop, ← hrest, List.drop_append_of_le_length hi, ← hmore]
  exact ⟨more ++ rest, by rw [List.append_assoc]⟩

end verdicts
