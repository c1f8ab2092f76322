-- A `BTreeMap`: the entries in the order of their keys, each key once.
import Mathlib

namespace maps

variable {K V : Type} [LinearOrder K]

structure BTreeMap (K V : Type) [LinearOrder K] where
  entries : List (K × V)
  sorted : (entries.map Prod.fst).Pairwise (· < ·)

namespace BTreeMap

def empty : BTreeMap K V := ⟨[], .nil⟩

def keys (m : BTreeMap K V) : List K := m.entries.map Prod.fst

def len (m : BTreeMap K V) : Nat := m.entries.length

def is_empty (m : BTreeMap K V) : Bool := m.entries.isEmpty

def get (m : BTreeMap K V) (key : K) : Option V := m.entries.lookup key

def contains_key (m : BTreeMap K V) (key : K) : Bool := (m.get key).isSome

theorem nodup_keys (m : BTreeMap K V) : m.keys.Nodup := m.sorted.imp ne_of_lt

/-- A key of the map has one entry. -/
theorem lookup_of_mem {entries : List (K × V)} (h : (entries.map Prod.fst).Nodup) {key : K}
    {value : V} (hmem : (key, value) ∈ entries) : entries.lookup key = some value := by
  induction entries with
  | nil => simp at hmem
  | cons e entries ih =>
    rw [List.map_cons, List.nodup_cons] at h
    rcases List.mem_cons.1 hmem with rfl | hmem
    · simp
    · have hne : key ≠ e.1 := by
        intro heq
        exact h.1 (heq ▸ List.mem_map_of_mem hmem)
      rw [List.lookup_cons, beq_false_of_ne hne]
      exact ih h.2 hmem

theorem lookup_eq_some {entries : List (K × V)} (h : (entries.map Prod.fst).Nodup) {key : K}
    {value : V} : entries.lookup key = some value ↔ (key, value) ∈ entries := by
  constructor
  · intro hsome
    obtain ⟨l, r, hm, -⟩ := List.lookup_eq_some_iff.1 hsome
    simp [hm]
  · exact lookup_of_mem h

theorem get_eq_some {m : BTreeMap K V} {key : K} {value : V} :
    m.get key = some value ↔ (key, value) ∈ m.entries := lookup_eq_some m.nodup_keys

theorem contains_key_iff {m : BTreeMap K V} {key : K} :
    m.contains_key key = true ↔ key ∈ m.keys := by
  unfold contains_key keys
  rw [Option.isSome_iff_exists]
  constructor
  · rintro ⟨value, h⟩
    exact List.mem_map_of_mem (get_eq_some.1 h)
  · intro h
    obtain ⟨e, he, rfl⟩ := List.mem_map.1 h
    exact ⟨e.2, get_eq_some.2 he⟩

theorem get_eq_none {m : BTreeMap K V} {key : K} : m.get key = none ↔ key ∉ m.keys := by
  rw [← contains_key_iff]
  unfold contains_key
  cases m.get key <;> simp

/-! ## A new entry -/

/-- The entry replaces the one of the same key. -/
def insert_entry (key : K) (value : V) : List (K × V) → List (K × V)
  | [] => [(key, value)]
  | e :: rest =>
    if key < e.1 then (key, value) :: e :: rest
    else if key = e.1 then (key, value) :: rest
    else e :: insert_entry key value rest

theorem mem_keys_insert_entry {key k : K} {value : V} {entries : List (K × V)} :
    k ∈ (insert_entry key value entries).map Prod.fst ↔ k = key ∨ k ∈ entries.map Prod.fst := by
  induction entries with
  | nil => simp [insert_entry]
  | cons e rest ih =>
    unfold insert_entry
    by_cases hlt : key < e.1
    · simp [hlt]
    · by_cases heq : key = e.1
      · simp [heq]
      · rw [if_neg hlt, if_neg heq, List.map_cons, List.mem_cons, ih, List.map_cons,
          List.mem_cons]
        tauto

theorem sorted_insert_entry (key : K) (value : V) {entries : List (K × V)}
    (h : (entries.map Prod.fst).Pairwise (· < ·)) :
    ((insert_entry key value entries).map Prod.fst).Pairwise (· < ·) := by
  induction entries with
  | nil => simp [insert_entry]
  | cons e rest ih =>
    rw [List.map_cons, List.pairwise_cons] at h
    unfold insert_entry
    by_cases hlt : key < e.1
    · rw [if_pos hlt, List.map_cons, List.map_cons, List.pairwise_cons, List.pairwise_cons]
      refine ⟨?_, h⟩
      intro k hk
      rcases List.mem_cons.1 hk with rfl | hk
      · exact hlt
      · exact hlt.trans (h.1 k hk)
    · by_cases heq : key = e.1
      · rw [if_neg hlt, if_pos heq, List.map_cons, List.pairwise_cons, heq]
        exact h
      · rw [if_neg hlt, if_neg heq, List.map_cons, List.pairwise_cons]
        refine ⟨?_, ih h.2⟩
        intro k hk
        rcases mem_keys_insert_entry.1 hk with rfl | hk
        · exact lt_of_le_of_ne (not_lt.1 hlt) (Ne.symm heq)
        · exact h.1 k hk

def insert (m : BTreeMap K V) (key : K) (value : V) : BTreeMap K V :=
  ⟨insert_entry key value m.entries, sorted_insert_entry key value m.sorted⟩

theorem lookup_insert_entry (key k : K) (value : V) (entries : List (K × V)) :
    (insert_entry key value entries).lookup k =
      if k = key then some value else entries.lookup k := by
  induction entries with
  | nil =>
    by_cases hk : k = key
    · simp [insert_entry, hk]
    · simp [insert_entry, hk]
  | cons e rest ih =>
    obtain ⟨first, v⟩ := e
    unfold insert_entry
    by_cases hlt : key < first
    · by_cases hk : k = key
      · simp [hlt, hk]
      · rw [if_pos hlt, if_neg hk, List.lookup_cons, beq_false_of_ne hk]
    · by_cases heq : key = first
      · rw [if_neg hlt, if_pos heq, List.lookup_cons, List.lookup_cons, ← heq]
        by_cases hk : k = key
        · simp [hk]
        · rw [if_neg hk, beq_false_of_ne hk]
      · rw [if_neg hlt, if_neg heq, List.lookup_cons, List.lookup_cons, ih]
        by_cases hk : k = key
        · simp [hk, beq_false_of_ne heq]
        · simp [hk]

theorem get_insert (m : BTreeMap K V) (key k : K) (value : V) :
    (m.insert key value).get k = if k = key then some value else m.get k :=
  lookup_insert_entry key k value m.entries

/-- `entries.collect()`: a later entry replaces an earlier one. -/
def collect (entries : List (K × V)) : BTreeMap K V :=
  entries.foldl (fun m e => m.insert e.1 e.2) empty

theorem get_foldl_insert {entries : List (K × V)} (h : (entries.map Prod.fst).Nodup)
    (m : BTreeMap K V) (key : K) :
    (entries.foldl (fun m e => m.insert e.1 e.2) m).get key =
      (entries.lookup key).or (m.get key) := by
  induction entries generalizing m with
  | nil => simp
  | cons e entries ih =>
    rw [List.map_cons, List.nodup_cons] at h
    rw [List.foldl_cons, ih h.2, get_insert, List.lookup_cons]
    by_cases hk : key = e.1
    · have hnone : entries.lookup key = none := by
        rw [List.lookup_eq_none_iff]
        intro p hp
        have hne : key ≠ p.1 := by
          intro heq
          exact h.1 (hk ▸ heq ▸ List.mem_map_of_mem hp)
        simpa using hne
      rw [← hk, hnone]
      simp
    · simp [hk, beq_false_of_ne hk]

theorem get_collect {entries : List (K × V)} (h : (entries.map Prod.fst).Nodup) {key : K}
    {value : V} : (collect entries).get key = some value ↔ (key, value) ∈ entries := by
  unfold collect
  rw [get_foldl_insert h, ← lookup_eq_some h]
  simp [empty, get]

/-! ## An entry that is taken out -/

def remove (m : BTreeMap K V) (key : K) : BTreeMap K V :=
  ⟨m.entries.filter fun e => e.1 ≠ key,
    m.sorted.sublist (List.filter_sublist.map Prod.fst)⟩

theorem get_remove (m : BTreeMap K V) (key k : K) :
    (m.remove key).get k = if k = key then none else m.get k := by
  apply Option.ext
  intro value
  rw [get_eq_some]
  show (k, value) ∈ m.entries.filter (fun e => e.1 ≠ key) ↔ _
  rw [List.mem_filter]
  by_cases hk : k = key
  · simp [hk]
  · simp [hk, get_eq_some]

end BTreeMap

end maps
