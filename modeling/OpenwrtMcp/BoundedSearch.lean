-- A search of a graph that may be infinite. It looks at what is pending again when it comes to it,
-- and it stops to push once it has seen enough. No node is lost when there are not more than that.
import OpenwrtMcp.Worklist

namespace bounded_search

open worklist

variable {ι : Type} {next : ι → ι → Prop} {start x : ι} {pending done done' : List ι}

/-- The nodes that can be reached. -/
def Reach (next : ι → ι → Prop) (start x : ι) : Prop := Reachable next (· = start) x

theorem Reach.refl : Reach next start start := ⟨start, rfl, .refl⟩

/-- What holds of the nodes that are pending and of those that are done. -/
structure Searched (next : ι → ι → Prop) (start : ι) (pending done : List ι) : Prop where
  nodup : done.Nodup
  reach : ∀ x, x ∈ pending ∨ x ∈ done → Reach next start x
  started : start ∈ pending ∨ start ∈ done

/-- Nothing is lost: a successor of a node that is done is pending or done. -/
def Closed (next : ι → ι → Prop) (pending done : List ι) : Prop :=
  ∀ x ∈ done, ∀ y, next x y → y ∈ pending ∨ y ∈ done

theorem searched_init : Searched next start [start] [] where
  nodup := List.nodup_nil
  reach := by
    intro x hx
    simp only [List.mem_singleton, List.not_mem_nil, or_false] at hx
    exact hx ▸ .refl
  started := .inl List.mem_cons_self

/-- A node that is done already is dropped. -/
theorem Searched.skip (h : Searched next start (x :: pending) done) (hx : x ∈ done) :
    Searched next start pending done where
  nodup := h.nodup
  reach := fun y hy => h.reach y (hy.imp (List.mem_cons_of_mem _) id)
  started := by
    rcases h.started with hs | hs
    · rcases List.mem_cons.1 hs with rfl | hs
      · exact .inr hx
      · exact .inl hs
    · exact .inr hs

theorem Closed.skip (h : Closed next (x :: pending) done) (hx : x ∈ done) :
    Closed next pending done := by
  intro z hz y hzy
  rcases h z hz y hzy with hy | hy
  · rcases List.mem_cons.1 hy with rfl | hy
    · exact .inr hx
    · exact .inl hy
  · exact .inr hy

section
variable {pushed : List ι} (hdone : ∀ y, y ∈ done' ↔ y = x ∨ y ∈ done)
include hdone

/-- A new node is done, and some of its successors are pushed. -/
theorem Searched.visit (h : Searched next start (x :: pending) done) (hnodup : done'.Nodup)
    (hpushed : ∀ y ∈ pushed, y ∈ pending ∨ next x y) (hkept : ∀ y ∈ pending, y ∈ pushed) :
    Searched next start pushed done' where
  nodup := hnodup
  reach := by
    have hx : Reach next start x := h.reach x (.inl List.mem_cons_self)
    rintro y (hy | hy)
    · rcases hpushed y hy with hy | hy
      · exact h.reach y (.inl (List.mem_cons_of_mem _ hy))
      · exact Reachable.step hx hy
    · rcases (hdone y).1 hy with rfl | hy
      · exact hx
      · exact h.reach y (.inr hy)
  started := by
    rcases h.started with hs | hs
    · rcases List.mem_cons.1 hs with rfl | hs
      · exact .inr ((hdone _).2 (.inl rfl))
      · exact .inl (hkept _ hs)
    · exact .inr ((hdone _).2 (.inr hs))

theorem Closed.visit (h : Closed next (x :: pending) done) (hkept : ∀ y ∈ pending, y ∈ pushed)
    (hnew : ∀ y, next x y → y ∈ pushed ∨ y ∈ done') : Closed next pushed done' := by
  intro z hz y hzy
  rcases (hdone z).1 hz with rfl | hz
  · exact hnew y hzy
  · rcases h z hz y hzy with hy | hy
    · rcases List.mem_cons.1 hy with rfl | hy
      · exact .inr ((hdone _).2 (.inl rfl))
      · exact .inl (hkept y hy)
    · exact .inr ((hdone y).2 (.inr hy))

end

/-- As many nodes are done as there are: then they are all of them. -/
theorem Searched.all_done (h : Searched next start pending done) (most : Nat)
    (hmost : {y | Reach next start y}.encard ≤ most) (hlength : most ≤ done.length)
    (hx : Reach next start x) : x ∈ done := by
  classical
  have hsub : ((done.toFinset : Finset ι) : Set ι) ⊆ {y | Reach next start y} := by
    intro y hy
    exact h.reach y (.inr (by simpa using hy))
  have hcard : (done.toFinset : Set ι).encard = done.length := by
    rw [Set.encard_coe_eq_coe_finsetCard, List.toFinset_card_of_nodup h.nodup]
  have hle : {y | Reach next start y}.encard ≤ (done.toFinset : Set ι).encard := by
    rw [hcard]
    exact hmost.trans (by exact_mod_cast hlength)
  have heq := done.toFinset.finite_toSet.eq_of_subset_of_encard_le hsub hle
  have hmem : x ∈ ((done.toFinset : Finset ι) : Set ι) := by
    rw [heq]
    exact hx
  simpa using hmem

/-- With nothing pending the done nodes are those that can be reached. -/
theorem Searched.mem_done_iff (h : Searched next start [] done) (hclosed : Closed next [] done)
    (x : ι) : x ∈ done ↔ Reach next start x := by
  constructor
  · intro hx
    exact h.reach x (.inr hx)
  · rintro ⟨r, rfl, hp⟩
    induction hp with
    | refl => simpa using h.started
    | tail _ hxy ih => simpa using hclosed _ ih _ hxy

end bounded_search
