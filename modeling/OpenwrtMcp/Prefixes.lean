-- Lists none of which starts another. Once such lists are sorted it is enough to look at
-- neighbours: what stands between a list and one that it starts begins with it too.
import OpenwrtMcp.Slices

namespace slices

variable {α : Type}

/-- Neither of two lists is the start of the other, and they differ. -/
def Apart (xs ys : List α) : Prop := ¬ xs <+: ys ∧ ¬ ys <+: xs

/-- No list is the start of a list at another place. -/
def PrefixFree (lists : List (List α)) : Prop := lists.Pairwise Apart

theorem Apart.symm {xs ys : List α} (h : Apart xs ys) : Apart ys xs := ⟨h.2, h.1⟩

theorem prefixFree_perm {lists lists' : List (List α)} (h : lists.Perm lists') :
    PrefixFree lists ↔ PrefixFree lists' :=
  h.pairwise_iff Apart.symm

variable [LinearOrder α]

theorem nil_le (xs : List α) : [] ≤ xs := by
  rw [le_iff_lt_or_eq]
  rcases List.lex_nil_or_eq_nil  xs with h | rfl
  · exact .inl h
  · exact .inr rfl

theorem cons_le_cons {x y : α} {xs ys : List α} :
    x :: xs ≤ y :: ys ↔ x < y ∨ x = y ∧ xs ≤ ys := by
  rw [le_iff_lt_or_eq, le_iff_lt_or_eq, List.cons_lt_cons_iff, List.cons.injEq]
  tauto

/-- What stands between a list and one that it starts begins with it too. -/
theorem prefix_between {xs ys zs : List α} (hxy : xs ≤ ys) (hyz : ys ≤ zs) (h : xs <+: zs) :
    xs <+: ys := by
  induction xs generalizing ys zs with
  | nil => exact List.nil_prefix
  | cons x xs ih =>
    cases zs with
    | nil => simp at h
    | cons z zs =>
      obtain ⟨rfl, hrest⟩ := List.cons_prefix_cons.1 h
      cases ys with
      | nil => exact absurd (le_antisymm hxy (nil_le _)) (List.cons_ne_nil x xs)
      | cons y ys =>
        rw [cons_le_cons] at hxy hyz
        rcases hxy with hlt | ⟨rfl, hxy⟩
        · rcases hyz with hgt | ⟨rfl, -⟩
          · exact absurd hgt (lt_asymm hlt)
          · exact absurd hlt (lt_irrefl _)
        · rcases hyz with hgt | ⟨-, hyz⟩
          · exact absurd hgt (lt_irrefl _)
          · exact List.cons_prefix_cons.2 ⟨rfl, ih hxy hyz hrest⟩

/-- A list is not before its own start. -/
theorem prefix_le {xs ys : List α} (h : xs <+: ys) : xs ≤ ys := by
  obtain ⟨rest, rfl⟩ := h
  induction xs with
  | nil => exact nil_le rest
  | cons x xs ih =>
    rw [List.cons_append, cons_le_cons]
    exact .inr ⟨rfl, ih⟩

/-- In sorted lists no start stands before its list when none stands right before it. -/
theorem pairwise_of_neighbours {lists : List (List α)} (hsorted : lists.Pairwise (· ≤ ·))
    (h : ∀ p ∈ windows2 lists, ¬ p.1 <+: p.2) : lists.Pairwise fun xs ys => ¬ xs <+: ys := by
  induction lists with
  | nil => exact List.Pairwise.nil
  | cons xs lists ih =>
    obtain ⟨hxs, hlists⟩ := List.pairwise_cons.1 hsorted
    cases lists with
    | nil => exact List.pairwise_singleton _ _
    | cons ys lists =>
      have hnext : ¬ xs <+: ys := h (xs, ys) (by simp [windows2])
      have htail := ih hlists fun p hp => h p (by
        simp only [windows2, List.tail_cons, List.zip_cons_cons] at hp ⊢
        exact List.mem_cons_of_mem _ hp)
      refine List.pairwise_cons.2 ⟨fun zs hzs hprefix => hnext ?_, htail⟩
      rcases List.mem_cons.1 hzs with rfl | hzs
      · exact hprefix
      · exact prefix_between (hxs ys (by simp)) ((List.pairwise_cons.1 hlists).1 zs hzs) hprefix

/-- The test of neighbours decides about all the lists. -/
theorem neighbours_prefix_free (lists : List (List α)) :
    (∀ p ∈ windows2 (sort_by_key id lists), ¬ p.1 <+: p.2) ↔ PrefixFree lists := by
  have hsorted : (sort_by_key id lists).Pairwise (· ≤ ·) := by
    simpa using sort_by_key_sorted id lists
  rw [← prefixFree_perm (sort_by_key_perm id lists)]
  generalize sort_by_key id lists = sorted at hsorted
  constructor
  · intro h
    refine (hsorted.and (pairwise_of_neighbours hsorted h)).imp fun {xs ys} hboth => ?_
    refine ⟨hboth.2, fun hback => hboth.2 ?_⟩
    rw [le_antisymm hboth.1 (prefix_le hback)]
  · intro h
    induction sorted with
    | nil => simp [windows2]
    | cons xs rest ih =>
      obtain ⟨hxs, hrest⟩ := List.pairwise_cons.1 h
      cases rest with
      | nil => simp [windows2]
      | cons ys rest =>
        intro p hp
        simp only [windows2, List.tail_cons, List.zip_cons_cons, List.mem_cons] at hp
        rcases hp with rfl | hp
        · exact (hxs ys (by simp)).1
        · exact ih (List.pairwise_cons.1 hsorted).2 hrest p hp

end slices
