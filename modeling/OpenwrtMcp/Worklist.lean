-- The search of a graph with a stack. A node goes on the stack once, and
-- leaves it for the done nodes; its successors wait until each is looked at.
import Mathlib

namespace worklist

variable {ι : Type} {next : ι → ι → Prop} {start : ι → Prop}

/-- A path of any length leads from a start node to `x`. -/
def Reachable (next : ι → ι → Prop) (start : ι → Prop) (x : ι) : Prop :=
  ∃ r, start r ∧ Relation.ReflTransGen next r x

theorem Reachable.step {x y : ι} (h : Reachable next start x) (hxy : next x y) :
    Reachable next start y := by
  obtain ⟨r, hr, hp⟩ := h
  exact ⟨r, hr, hp.tail hxy⟩

/-- What holds of the stack, of the successors that wait, and of the done nodes. -/
structure Explored (next : ι → ι → Prop) (start : ι → Prop) (stack waiting done : List ι) :
    Prop where
  nodup : (stack ++ done).Nodup
  reach : ∀ x, x ∈ stack ∨ x ∈ waiting ∨ x ∈ done → Reachable next start x
  started : ∀ x, start x → x ∈ stack ∨ x ∈ done
  closed : ∀ x ∈ done, ∀ y, next x y → y ∈ stack ∨ y ∈ waiting ∨ y ∈ done

theorem explored_init {stack : List ι} (hn : stack.Nodup) (h : ∀ x, start x ↔ x ∈ stack) :
    Explored next start stack [] [] where
  nodup := by simpa using hn
  reach := by
    intro x hx
    simp only [List.not_mem_nil, or_false] at hx
    exact ⟨x, (h x).mpr hx, .refl⟩
  started := fun x hx => .inl ((h x).mp hx)
  closed := by simp

/-- The top of the stack becomes a done node, and its successors wait. -/
theorem Explored.pop {x : ι} {stack waiting done : List ι}
    (h : Explored next start (x :: stack) [] done) (hw : ∀ y, y ∈ waiting ↔ next x y) :
    Explored next start stack waiting (x :: done) where
  nodup := by
    have hp : (x :: stack ++ done).Perm (stack ++ x :: done) := by
      exact (List.perm_middle : (stack ++ x :: done).Perm (x :: (stack ++ done))).symm
    exact hp.nodup_iff.mp h.nodup
  reach := by
    rintro y (hy | hy | hy)
    · exact h.reach y (.inl (by simp [hy]))
    · exact (h.reach x (.inl (by simp))).step ((hw y).mp hy)
    · rcases List.mem_cons.mp hy with rfl | hy
      · exact h.reach y (.inl (by simp))
      · exact h.reach y (.inr (.inr hy))
  started := by
    intro y hy
    rcases h.started y hy with h1 | h1
    · rcases List.mem_cons.mp h1 with rfl | h1
      · exact .inr (by simp)
      · exact .inl h1
    · exact .inr (by simp [h1])
  closed := by
    intro a ha y hay
    rcases List.mem_cons.mp ha with rfl | ha
    · exact .inr (.inl ((hw y).mpr hay))
    · rcases h.closed a ha y hay with h1 | h1 | h1
      · rcases List.mem_cons.mp h1 with rfl | h1
        · exact .inr (.inr (by simp))
        · exact .inl h1
      · simp at h1
      · exact .inr (.inr (by simp [h1]))

/-- A successor that was seen before is dropped. -/
theorem Explored.skip {y : ι} {stack waiting done : List ι}
    (h : Explored next start stack (y :: waiting) done) (hy : y ∈ stack ∨ y ∈ done) :
    Explored next start stack waiting done where
  nodup := h.nodup
  reach := fun x hx => h.reach x (by simp only [List.mem_cons]; tauto)
  started := h.started
  closed := by
    intro a ha z haz
    rcases h.closed a ha z haz with h1 | h1 | h1
    · exact .inl h1
    · rcases List.mem_cons.mp h1 with rfl | h1
      · exact hy.elim .inl fun h => .inr (.inr h)
      · exact .inr (.inl h1)
    · exact .inr (.inr h1)

/-- A successor that is new goes on the stack. -/
theorem Explored.push {y : ι} {stack waiting done : List ι}
    (h : Explored next start stack (y :: waiting) done) (h1 : y ∉ stack) (h2 : y ∉ done) :
    Explored next start (y :: stack) waiting done where
  nodup := by
    rw [List.cons_append, List.nodup_cons, List.mem_append]
    exact ⟨fun hc => hc.elim h1 h2, h.nodup⟩
  reach := fun x hx => h.reach x (by simp only [List.mem_cons] at hx ⊢; tauto)
  started := fun x hx => (h.started x hx).imp (by simp +contextual) id
  closed := by
    intro a ha z haz
    rcases h.closed a ha z haz with h3 | h3 | h3
    · exact .inl (by simp [h3])
    · rcases List.mem_cons.mp h3 with rfl | h3
      · exact .inl (by simp)
      · exact .inr (.inl h3)
    · exact .inr (.inr h3)

/-- With an empty stack the done nodes are the nodes that can be reached. -/
theorem Explored.mem_done_iff {done : List ι} (h : Explored next start [] [] done) (x : ι) :
    x ∈ done ↔ Reachable next start x := by
  constructor
  · intro hx
    exact h.reach x (.inr (.inr hx))
  · rintro ⟨r, hr, hp⟩
    induction hp with
    | refl => simpa using h.started r hr
    | tail _ hxy ih => simpa using h.closed _ ih _ hxy

end worklist
