-- A `BTreeMap` is determined by its entries in any order, and collects them from any order.
import OpenwrtMcp.Maps

namespace maps.BTreeMap

variable {K V : Type} [LinearOrder K] {m m' : BTreeMap K V} {key : K} {value : V}
  {entries : List (K × V)}

theorem insert_entry_perm (h : key ∉ entries.map Prod.fst) :
    (insert_entry key value entries).Perm ((key, value) :: entries) := by
  induction entries with
  | nil => exact .refl _
  | cons e rest ih =>
    rw [List.map_cons, List.mem_cons, not_or] at h
    unfold insert_entry
    split
    · exact .refl _
    · rw [if_neg h.1]
      exact ((ih h.2).cons e).trans (.swap _ _ _)

/-- A new key is one more entry. -/
theorem insert_perm (h : key ∉ m.keys) :
    (m.insert key value).entries.Perm ((key, value) :: m.entries) := insert_entry_perm h

theorem len_insert (h : key ∉ m.keys) : (m.insert key value).len = m.len + 1 :=
  (insert_perm h).length_eq

theorem mem_keys_insert {k : K} : k ∈ (m.insert key value).keys ↔ k = key ∨ k ∈ m.keys :=
  mem_keys_insert_entry

/-- Maps with the same entries are the same. -/
theorem eq_of_perm (h : m.entries.Perm m'.entries) : m = m' := by
  obtain ⟨entries, hsorted⟩ := m
  obtain ⟨entries', hsorted'⟩ := m'
  rw [List.pairwise_map] at hsorted hsorted'
  obtain rfl : entries = entries' :=
    h.eq_of_pairwise (fun a b _ _ hab hba => absurd (hab.trans hba) (lt_irrefl _)) hsorted hsorted'
  rfl

/-! ## Several entries -/

/-- `m.extend(entries)` -/
def extend (m : BTreeMap K V) (entries : List (K × V)) : BTreeMap K V :=
  entries.foldl (fun m e => m.insert e.1 e.2) m

theorem extend_perm (hnodup : (entries.map Prod.fst).Nodup) (hnew : ∀ e ∈ entries, e.1 ∉ m.keys) :
    (m.extend entries).entries.Perm (entries ++ m.entries) := by
  induction entries generalizing m with
  | nil => exact .refl _
  | cons e entries ih =>
    simp only [List.map_cons, List.nodup_cons, List.forall_mem_cons] at hnodup hnew
    have hrest : ∀ e' ∈ entries, e'.1 ∉ (m.insert e.1 e.2).keys := by
      intro e' he' hmem
      rcases mem_keys_insert.1 hmem with heq | hmem
      · exact hnodup.1 (heq ▸ List.mem_map_of_mem he')
      · exact hnew.2 e' he' hmem
    show ((m.insert e.1 e.2).extend entries).entries.Perm _
    refine (ih hnodup.2 hrest).trans ?_
    exact ((insert_perm hnew.1).append_left entries).trans List.perm_middle

theorem collect_perm (h : (entries.map Prod.fst).Nodup) :
    (collect entries).entries.Perm entries := by
  have hperm := extend_perm (m := (empty : BTreeMap K V)) h (by simp [empty, keys])
  simpa [collect, extend, empty] using hperm

/-! ## Room for more entries -/

/-- Entries with new keys, and the map with all of them has no more entries than the bound. -/
structure Fits (bound : Nat) (entries : List (K × V)) (m : BTreeMap K V) : Prop where
  count : entries.length + m.len ≤ bound
  once : (entries.map Prod.fst).Nodup
  fresh : ∀ e ∈ entries, e.1 ∉ m.keys

theorem fits_nil {bound : Nat} : Fits bound [] m ↔ m.len ≤ bound := by
  constructor
  · intro h
    simpa using h.count
  · intro h
    exact ⟨by simpa using h, by simp, by simp⟩

/-- The first entry fits, and then the others do. -/
theorem fits_cons {bound : Nat} : Fits bound ((key, value) :: entries) m ↔
    m.len < bound ∧ key ∉ m.keys ∧ Fits bound entries (m.insert key value) := by
  constructor
  · intro h
    have hcount := h.count
    have honce := List.nodup_cons.1 h.once
    have hfresh := List.forall_mem_cons.1 h.fresh
    rw [List.length_cons] at hcount
    refine ⟨by omega, hfresh.1, ?_, honce.2, ?_⟩
    · rw [len_insert hfresh.1]
      omega
    · intro e he hmem
      rcases mem_keys_insert.1 hmem with heq | hmem
      · exact honce.1 (List.mem_map.2 ⟨e, he, heq⟩)
      · exact hfresh.2 e he hmem
  · intro h
    obtain ⟨hlen, hnew, h⟩ := h
    have hcount := h.count
    rw [len_insert hnew] at hcount
    refine ⟨?_, ?_, List.forall_mem_cons.2 ⟨hnew, ?_⟩⟩
    · rw [List.length_cons]
      omega
    · rw [List.map_cons, List.nodup_cons]
      refine ⟨?_, h.once⟩
      intro hmem
      obtain ⟨e, he, heq⟩ := List.mem_map.1 hmem
      exact h.fresh e he (mem_keys_insert.2 (.inl heq))
    · intro e he hmem
      exact h.fresh e he (mem_keys_insert.2 (.inr hmem))

theorem Fits.of_empty {bound : Nat} (hcount : entries.length ≤ bound)
    (honce : (entries.map Prod.fst).Nodup) : Fits bound entries empty := by
  refine ⟨?_, honce, by simp [empty, keys]⟩
  simpa [empty, len] using hcount

/-- A map collects its own entries, in any order. -/
theorem collect_eq (h : entries.Perm m.entries) : collect entries = m := by
  have hnodup : (entries.map Prod.fst).Nodup := (h.map Prod.fst).nodup_iff.2 m.nodup_keys
  exact eq_of_perm ((collect_perm hnodup).trans h)

end maps.BTreeMap
