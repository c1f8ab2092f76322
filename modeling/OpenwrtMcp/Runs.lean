-- Runs of a list between separators: how long the last one is, and whether any of them is longer
-- than a bound.
import Mathlib

namespace runs

variable {α : Type} [DecidableEq α] {sep : α} {max : Nat}

/-- How many elements stand after the last separator. -/
def trailing (sep : α) (xs : List α) : Nat := xs.foldl (fun n x => if x = sep then 0 else n + 1) 0

/-- More than `max` elements stand next to each other with no separator among them. -/
def LongRun (sep : α) (max : Nat) (xs : List α) : Prop :=
  ∃ front run back, xs = front ++ (run ++ back) ∧ sep ∉ run ∧ max < run.length

omit [DecidableEq α] in
theorem longRun_append {xs : List α} (h : LongRun sep max xs) (ys : List α) :
    LongRun sep max (xs ++ ys) := by
  obtain ⟨front, run, back, rfl, hrun, hlen⟩ := h
  exact ⟨front, run, back ++ ys, by simp, hrun, hlen⟩

omit [DecidableEq α] in
theorem not_longRun_nil : ¬ LongRun sep max ([] : List α) := by
  rintro ⟨front, run, back, heq, -, hlen⟩
  obtain ⟨-, hrest⟩ := List.append_eq_nil_iff.1 heq.symm
  rw [(List.append_eq_nil_iff.1 hrest).1, List.length_nil] at hlen
  omega

@[simp] theorem trailing_nil : trailing sep ([] : List α) = 0 := rfl

@[simp] theorem trailing_snoc (xs : List α) (x : α) :
    trailing sep (xs ++ [x]) = if x = sep then 0 else trailing sep xs + 1 := by
  simp [trailing]

/-- The elements after the last separator are a run. -/
theorem trailing_run (sep : α) (xs : List α) :
    ∃ front run, xs = front ++ run ∧ sep ∉ run ∧ run.length = trailing sep xs := by
  induction xs using List.reverseRecOn with
  | nil => exact ⟨[], [], rfl, by simp, rfl⟩
  | append_singleton xs x ih =>
    rw [trailing_snoc]
    by_cases hx : x = sep
    · exact ⟨xs ++ [x], [], by simp, by simp, by simp [hx]⟩
    · obtain ⟨front, run, rfl, hrun, hlen⟩ := ih
      refine ⟨front, run ++ [x], by simp, ?_, ?_⟩
      · simpa [hrun] using Ne.symm hx
      · rw [List.length_append, List.length_singleton, hlen, if_neg hx]

/-- No run at the end of a list is longer than that. -/
theorem run_le_trailing (front run : List α) (h : sep ∉ run) :
    run.length ≤ trailing sep (front ++ run) := by
  induction run using List.reverseRecOn with
  | nil => simp
  | append_singleton run x ih =>
    rw [List.mem_append, not_or, List.mem_singleton] at h
    rw [← List.append_assoc, trailing_snoc, if_neg (Ne.symm h.2), List.length_append,
      List.length_singleton]
    exact Nat.add_le_add_right (ih h.1) 1

/-- One more element makes a run too long exactly when it ends one that is as long as may be. -/
theorem longRun_snoc (sep : α) (max : Nat) (xs : List α) (x : α) :
    LongRun sep max (xs ++ [x]) ↔ LongRun sep max xs ∨ (x ≠ sep ∧ max < trailing sep xs + 1) := by
  constructor
  · rintro ⟨front, run, back, heq, hrun, hlen⟩
    rcases List.eq_nil_or_concat back with rfl | ⟨back, y, rfl⟩
    · rcases List.eq_nil_or_concat run with rfl | ⟨run, y, rfl⟩
      · simp at hlen
      · rw [List.append_nil, List.concat_eq_append, ← List.append_assoc] at heq
        obtain ⟨rfl, hxy⟩ := List.append_inj' heq rfl
        obtain rfl := (List.cons.inj hxy).1
        rw [List.concat_eq_append, List.mem_append, not_or, List.mem_singleton] at hrun
        rw [List.concat_eq_append, List.length_append, List.length_singleton] at hlen
        have hle := run_le_trailing front run hrun.1
        exact .inr ⟨Ne.symm hrun.2, by omega⟩
    · rw [List.concat_eq_append, ← List.append_assoc, ← List.append_assoc] at heq
      obtain ⟨rfl, -⟩ := List.append_inj' heq rfl
      exact .inl ⟨front, run, back, by simp, hrun, hlen⟩
  · rintro (h | ⟨hx, hlen⟩)
    · exact longRun_append h [x]
    · obtain ⟨front, run, hxs, hrun, hrunlen⟩ := trailing_run sep xs
      refine ⟨front, run ++ [x], [], by simp [hxs], ?_, ?_⟩
      · simpa [hrun] using Ne.symm hx
      · rw [List.length_append, List.length_singleton, hrunlen]
        exact hlen

end runs
