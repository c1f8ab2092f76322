-- Slices as Rust has them: an index out of bounds panics, and
-- `binary_search_by` halves a window until one element is left.
import Mathlib

namespace slices

variable {α κ ε : Type}

/-! ## Checked access -/

/-- How a call ends that gives no value: with an error, or with a panic. -/
inductive Abort (ε : Type)
  | err (e : ε)
  | panic
  deriving DecidableEq, Repr

/-- `xs[i]` -/
def index (xs : List α) (i : Nat) : Except (Abort ε) α :=
  match xs[i]? with
  | some x => .ok x
  | none => .error .panic

/-- `xs[i] = x` -/
def write (xs : List α) (i : Nat) (x : α) : Except (Abort ε) (List α) :=
  if i < xs.length then .ok (xs.set i x) else .error .panic

/-- `&xs[lo..hi]` -/
def slice (xs : List α) (lo hi : Nat) : Except (Abort ε) (List α) :=
  if lo ≤ hi ∧ hi ≤ xs.length then .ok ((xs.drop lo).take (hi - lo)) else .error .panic

theorem index_eq {xs : List α} {i : Nat} {x : α} (h : xs[i]? = some x) :
    index (ε := ε) xs i = .ok x := by
  unfold index
  rw [h]

theorem write_eq {xs : List α} {i : Nat} (x : α) (h : i < xs.length) :
    write (ε := ε) xs i x = .ok (xs.set i x) := by
  simp [write, h]

theorem slice_eq {xs : List α} {lo hi : Nat} (h1 : lo ≤ hi) (h2 : hi ≤ xs.length) :
    slice (ε := ε) xs lo hi = .ok ((xs.drop lo).take (hi - lo)) := by
  simp [slice, h1, h2]

/-! ## Binary search -/

/-- The loop of `binary_search_by`: the window is `[base, base + size)`. A turn leaves the
window smaller, so `todo` turns are enough for a window of `todo` elements. -/
def search_window (f : α → Ordering) (xs : List α) : Nat → Nat → Nat → Nat
  | 0, base, _ => base
  | todo + 1, base, size =>
    if 1 < size then
      let half := size / 2
      let mid := base + half
      if (xs[mid]?.map f) = some .gt then search_window f xs todo base (size - half)
      else search_window f xs todo mid (size - half)
    else base

/-- `slice::binary_search_by`: the index of a match, or the index to insert at. -/
def binary_search_by (xs : List α) (f : α → Ordering) : Except Nat Nat :=
  if xs.length = 0 then .error 0
  else
    let base := search_window f xs xs.length 0 xs.length
    match xs[base]?.map f with
    | some .eq => .ok base
    | some .lt => .error (base + 1)
    | _ => .error base

/-- Before each turn the element that matches is in the window. -/
theorem search_window_spec [LinearOrder κ] (key : α → κ) (k : κ) (xs : List α)
    (todo base size i : Nat) (hs : (xs.map key).Pairwise (· < ·)) (htodo : size ≤ todo)
    (hlen : base + size ≤ xs.length) (hi : xs[i]?.map key = some k) (hlo : base ≤ i)
    (hhi : i < base + size) :
    search_window (fun x => cmp (key x) k) xs todo base size = i := by
  induction todo generalizing base size with
  | zero => omega
  | succ todo ih =>
    unfold search_window
    split
    · rename_i hone
      have hmid : base + size / 2 < xs.length := by omega
      have hkey : (xs.map key)[i]? = some k := by simpa using hi
      obtain ⟨hil, hik⟩ := List.getElem?_eq_some_iff.mp hkey
      simp only [List.length_map] at hil
      have hlt := List.pairwise_iff_getElem.mp hs
      have hgt : (xs[base + size / 2]?.map fun x => cmp (key x) k) = some Ordering.gt ↔
          i < base + size / 2 := by
        rw [List.getElem?_eq_getElem hmid]
        simp only [Option.map_some, Option.some.injEq, cmp_eq_gt_iff]
        rw [← hik, List.getElem_map]
        constructor
        · intro h
          by_contra hc
          rcases Nat.lt_or_ge (base + size / 2) i with h1 | h1
          · have := hlt (base + size / 2) i (by simpa using hmid) (by simpa using hil) h1
            simp only [List.getElem_map] at this
            exact lt_asymm h this
          · have he : base + size / 2 = i := by omega
            simp only [he] at h
            exact lt_irrefl _ h
        · intro h
          have := hlt i (base + size / 2) (by simpa using hil) (by simpa using hmid) h
          simpa only [List.getElem_map] using this
      simp only [hgt]
      split
      · exact ih base _ (by omega) (by omega) hlo (by omega)
      · exact ih (base + size / 2) _ (by omega) (by omega) (by omega) (by omega)
    · omega

/-- On keys that strictly increase, the search finds the key at its only index. -/
theorem binary_search_by_ok_iff [LinearOrder κ] (key : α → κ) (k : κ) (xs : List α) (i : Nat)
    (hs : (xs.map key).Pairwise (· < ·)) :
    binary_search_by xs (fun x => cmp (key x) k) = .ok i ↔ xs[i]?.map key = some k := by
  constructor
  · intro h
    unfold binary_search_by at h
    split at h
    · cases h
    · simp only at h
      split at h
      · rename_i he
        cases h
        cases hx : xs[search_window (fun x => cmp (key x) k) xs xs.length 0 xs.length]? with
        | none => simp [hx] at he
        | some x =>
          simp only [hx, Option.map_some, Option.some.injEq, cmp_eq_eq_iff] at he
          simp [he]
      · cases h
      · cases h
  · intro h
    have hil : i < xs.length := by
      rcases Nat.lt_or_ge i xs.length with h1 | h1
      · exact h1
      · simp [List.getElem?_eq_none h1] at h
    have hw := search_window_spec key k xs xs.length 0 xs.length i hs (Nat.le_refl _) (by omega) h
      (by omega) (by omega)
    unfold binary_search_by
    rw [if_neg (by omega)]
    simp only [hw]
    have hx : xs[i]?.map (fun x => cmp (key x) k) = some Ordering.eq := by
      rw [List.getElem?_eq_getElem hil] at h ⊢
      simp only [Option.map_some, Option.some.injEq] at h ⊢
      exact cmp_eq_eq_iff _ _ |>.mpr h
    simp only [hx]

/-- The index of a key in a list of keys that strictly increase. -/
theorem idxOf_getElem? {ks : List κ} [DecidableEq κ] {k : κ} (h : k ∈ ks) :
    ks[ks.idxOf k]? = some k := by
  rw [List.getElem?_eq_getElem (List.idxOf_lt_length_of_mem h)]
  simp

theorem binary_search_by_eq [LinearOrder κ] (key : α → κ) (k : κ) (xs : List α)
    (hs : (xs.map key).Pairwise (· < ·)) (hk : k ∈ xs.map key) :
    binary_search_by xs (fun x => cmp (key x) k) = .ok ((xs.map key).idxOf k) := by
  rw [binary_search_by_ok_iff key k xs _ hs, ← List.getElem?_map]
  exact idxOf_getElem? hk

theorem binary_search_by_none [LinearOrder κ] (key : α → κ) (k : κ) (xs : List α)
    (hs : (xs.map key).Pairwise (· < ·)) (hk : k ∉ xs.map key) :
    ∃ j, binary_search_by xs (fun x => cmp (key x) k) = .error j := by
  rcases h : binary_search_by xs (fun x => cmp (key x) k) with j | i
  · exact ⟨j, rfl⟩
  · rw [binary_search_by_ok_iff key k xs i hs, ← List.getElem?_map] at h
    exact absurd (List.mem_of_getElem? h) hk

/-! ## Sorting, and the test of neighbours -/

/-- `xs.windows(2)` -/
def windows2 (xs : List α) : List (α × α) := xs.zip xs.tail

/-- `xs.sort_by(|a, b| key(a).cmp(key(b)))`; the sort is stable. -/
def sort_by_key [LinearOrder κ] (key : α → κ) (xs : List α) : List α :=
  xs.insertionSort (fun a b => key a ≤ key b)

theorem sort_by_key_perm [LinearOrder κ] (key : α → κ) (xs : List α) :
    (sort_by_key key xs).Perm xs := List.perm_insertionSort _ _

theorem mem_sort_by_key [LinearOrder κ] {key : α → κ} {xs : List α} {x : α} :
    x ∈ sort_by_key key xs ↔ x ∈ xs := (sort_by_key_perm key xs).mem_iff

theorem sort_by_key_sorted [LinearOrder κ] (key : α → κ) (xs : List α) :
    ((sort_by_key key xs).map key).Pairwise (· ≤ ·) := by
  have htotal : Std.Total (fun a b : α => key a ≤ key b) := ⟨fun a b => le_total (key a) (key b)⟩
  have htrans : IsTrans α (fun a b => key a ≤ key b) := ⟨fun _ _ _ h1 h2 => h1.trans h2⟩
  rw [List.pairwise_map]
  exact List.pairwise_insertionSort (fun a b => key a ≤ key b) xs

/-- Neighbours that differ in a sorted list: the keys strictly increase. -/
theorem pairwise_lt_of_windows [LinearOrder κ] {ks : List κ} (hs : ks.Pairwise (· ≤ ·))
    (hw : ∀ p ∈ windows2 ks, p.1 ≠ p.2) : ks.Pairwise (· < ·) := by
  induction ks with
  | nil => exact List.Pairwise.nil
  | cons a ks ih =>
    obtain ⟨ha, hks⟩ := List.pairwise_cons.mp hs
    cases ks with
    | nil => exact List.pairwise_singleton _ _
    | cons b ks =>
      have htail := ih hks fun p hp => hw p (by
        simp only [windows2, List.tail_cons, List.zip_cons_cons] at hp ⊢
        exact List.mem_cons_of_mem _ hp)
      have hab : a < b := lt_of_le_of_ne (ha b (by simp)) (hw (a, b) (by simp [windows2]))
      refine List.pairwise_cons.mpr ⟨?_, htail⟩
      intro c hc
      rcases List.mem_cons.mp hc with rfl | hc
      · exact hab
      · exact hab.trans ((List.pairwise_cons.mp htail).1 c hc)

/-- `windows(2)` on the sorted list found no equal neighbours. -/
theorem sort_by_key_lt [LinearOrder κ] (key : α → κ) (xs : List α)
    (h : ∀ p ∈ windows2 (sort_by_key key xs), key p.1 ≠ key p.2) :
    ((sort_by_key key xs).map key).Pairwise (· < ·) := by
  apply pairwise_lt_of_windows (sort_by_key_sorted key xs)
  intro p hp
  unfold windows2 at hp
  rw [← List.map_tail, List.zip_map, List.mem_map] at hp
  obtain ⟨q, hq, rfl⟩ := hp
  exact h q hq

theorem windows_ne {ks : List κ} (h : ks.Nodup) : ∀ p ∈ windows2 ks, p.1 ≠ p.2 := by
  induction ks with
  | nil => simp [windows2]
  | cons a ks ih =>
    rw [List.nodup_cons] at h
    cases ks with
    | nil => simp [windows2]
    | cons b ks =>
      intro p hp
      simp only [windows2, List.tail_cons, List.zip_cons_cons, List.mem_cons] at hp
      rcases hp with rfl | hp
      · intro heq
        have heq : a = b := heq
        exact h.1 (by simp [heq])
      · exact ih h.2 p hp

section
variable {R : Type} [LinearOrder κ] {key : R → κ}

/-- No two neighbours are equal exactly when no key stands twice. -/
theorem neighbours_iff {rows : List R} :
    ((windows2 (sort_by_key key rows)).any fun pair => key pair.1 = key pair.2) = false ↔
      (rows.map key).Nodup := by
  have hperm := (sort_by_key_perm key rows).map key
  rw [List.any_eq_false, ← hperm.nodup_iff]
  constructor
  · intro h
    have hlt := sort_by_key_lt key rows fun p hp => by simpa using h p hp
    exact hlt.imp ne_of_lt
  · intro h p hp
    have hmem : (key p.1, key p.2) ∈ windows2 ((sort_by_key key rows).map key) := by
      unfold windows2 at hp ⊢
      rw [← List.map_tail, List.zip_map]
      exact List.mem_map.2 ⟨p, hp, rfl⟩
    simpa using windows_ne h _ hmem

theorem sorted_of_nodup {rows : List R} (h : (rows.map key).Nodup) :
    ((sort_by_key key rows).map key).Pairwise (· < ·) :=
  sort_by_key_lt key rows fun p hp => by
    simpa using List.any_eq_false.1 (neighbours_iff.2 h) p hp

/-- The order of the rows that are sorted makes no difference. -/
theorem sort_eq_of_perm {rows rows' : List R} (hperm : rows.Perm rows')
    (h : (rows.map key).Nodup) : sort_by_key key rows = sort_by_key key rows' := by
  have hsorted := sorted_of_nodup h
  have hsorted' := sorted_of_nodup ((hperm.map key).nodup_iff.1 h)
  rw [List.pairwise_map] at hsorted hsorted'
  have hall : (sort_by_key key rows).Perm (sort_by_key key rows') :=
    (sort_by_key_perm key rows).trans (hperm.trans (sort_by_key_perm key rows').symm)
  exact hall.eq_of_pairwise (fun a b _ _ hab hba => absurd (hab.trans hba) (lt_irrefl _)) hsorted
    hsorted'

end

/-! ## Chunks -/

/-- The loop of `chunks`: `todo` is at least the number of chunks to come. -/
def chunks_from (size : Nat) : Nat → List α → List (List α)
  | 0, _ => []
  | todo + 1, xs => if xs.isEmpty then [] else xs.take size :: chunks_from size todo (xs.drop size)

/-- `xs.chunks(size)` -/
def chunks (size : Nat) (xs : List α) : List (List α) := chunks_from size xs.length xs

theorem chunks_from_flatten {size : Nat} (hsize : 0 < size) (todo : Nat) (xs : List α)
    (h : xs.length ≤ todo) : (chunks_from size todo xs).flatten = xs := by
  induction todo generalizing xs with
  | zero =>
    rw [Nat.le_zero, List.length_eq_zero_iff] at h
    rw [h]
    rfl
  | succ todo ih =>
    unfold chunks_from
    split
    · rename_i hnil
      rw [List.isEmpty_iff] at hnil
      rw [hnil]
      rfl
    · rw [List.flatten_cons, ih (xs.drop size) (by rw [List.length_drop]; omega),
        List.take_append_drop]

theorem chunks_flatten {size : Nat} (hsize : 0 < size) (xs : List α) :
    (chunks size xs).flatten = xs := chunks_from_flatten hsize xs.length xs (Nat.le_refl _)

theorem chunks_from_length_le {size : Nat} (todo : Nat) (xs : List α) :
    ∀ chunk ∈ chunks_from size todo xs, chunk.length ≤ size := by
  induction todo generalizing xs with
  | zero => simp [chunks_from]
  | succ todo ih =>
    unfold chunks_from
    split
    · simp
    · intro chunk hchunk
      rcases List.mem_cons.mp hchunk with rfl | hrest
      · exact List.length_take_le size xs
      · exact ih (xs.drop size) chunk hrest

theorem chunks_length_le {size : Nat} {xs chunk : List α} (h : chunk ∈ chunks size xs) :
    chunk.length ≤ size := chunks_from_length_le xs.length xs chunk h

end slices
