-- The union of two lists that are sorted by a key. The merge reads each list
-- once, from the front, and joins two elements that have the same key.
import Mathlib

namespace sorted_union

variable {α κ : Type} [LinearOrder κ]

/-- The keys strictly increase, so no key stands twice. -/
def Increasing (key : α → κ) (xs : List α) : Prop := (xs.map key).Pairwise (· < ·)

theorem increasing_cons {key : α → κ} {x : α} {xs : List α} :
    Increasing key (x :: xs) ↔ (∀ y ∈ xs, key x < key y) ∧ Increasing key xs := by
  simp [Increasing]

theorem Increasing.nodup {key : α → κ} {xs : List α} (h : Increasing key xs) :
    (xs.map key).Nodup := h.imp ne_of_lt

/-- The merge; `both` joins the elements of a key that stands in both lists. -/
def union (key : α → κ) (both : α → α → α) : List α → List α → List α
  | [], ys => ys
  | x :: xs, [] => x :: xs
  | x :: xs, y :: ys =>
    match cmp (key x) (key y) with
    | .lt => x :: union key both xs (y :: ys)
    | .gt => y :: union key both (x :: xs) ys
    | .eq => both x y :: union key both xs ys
termination_by xs ys => xs.length + ys.length
decreasing_by all_goals simp only [List.length_cons]; omega

section
variable {key : α → κ} {both : α → α → α}

@[simp] theorem union_nil_left (ys : List α) : union key both [] ys = ys := by
  unfold union
  rfl

@[simp] theorem union_nil_right (xs : List α) : union key both xs [] = xs := by
  cases xs <;> unfold union <;> rfl

theorem union_cons_lt {x y : α} {xs ys : List α} (h : cmp (key x) (key y) = .lt) :
    union key both (x :: xs) (y :: ys) = x :: union key both xs (y :: ys) := by
  rw [union]
  simp only [h]

theorem union_cons_gt {x y : α} {xs ys : List α} (h : cmp (key x) (key y) = .gt) :
    union key both (x :: xs) (y :: ys) = y :: union key both (x :: xs) ys := by
  rw [union]
  simp only [h]

theorem union_cons_eq {x y : α} {xs ys : List α} (h : cmp (key x) (key y) = .eq) :
    union key both (x :: xs) (y :: ys) = both x y :: union key both xs ys := by
  rw [union]
  simp only [h]

/-- The keys of the union are the keys of both lists. -/
theorem mem_keys_union (hboth : ∀ x y, key x = key y → key (both x y) = key x) (xs ys : List α)
    (k : κ) :
    k ∈ (union key both xs ys).map key ↔ k ∈ xs.map key ∨ k ∈ ys.map key := by
  fun_induction union key both xs ys with
  | case1 ys => simp
  | case2 x xs => simp
  | case3 x xs y ys h ih => rw [List.map_cons, List.mem_cons, ih]; simp [or_assoc]
  | case4 x xs y ys h ih =>
    rw [List.map_cons, List.mem_cons, ih, List.map_cons (l := ys), List.mem_cons]
    tauto
  | case5 x xs y ys h ih =>
    have he : key x = key y := cmp_eq_eq_iff _ _ |>.mp h
    rw [List.map_cons, List.mem_cons, ih, hboth x y he]
    simp only [List.map_cons, List.mem_cons, ← he]
    tauto

theorem union_increasing (hboth : ∀ x y, key x = key y → key (both x y) = key x) {xs ys : List α}
    (hx : Increasing key xs) (hy : Increasing key ys) : Increasing key (union key both xs ys) := by
  have hcons : ∀ (a : α) (us vs : List α), (∀ k ∈ us.map key, key a < k) →
      (∀ k ∈ vs.map key, key a < k) → Increasing key (union key both us vs) →
      Increasing key (a :: union key both us vs) := by
    intro a us vs hu hv h
    refine increasing_cons.mpr ⟨fun z hz => ?_, h⟩
    rcases (mem_keys_union hboth us vs (key z)).mp (List.mem_map_of_mem hz) with h1 | h1
    · exact hu _ h1
    · exact hv _ h1
  fun_induction union key both xs ys with
  | case1 ys => exact hy
  | case2 x xs => exact hx
  | case3 x xs y ys h ih =>
    have hlt : key x < key y := cmp_eq_lt_iff _ _ |>.mp h
    obtain ⟨hx1, hx2⟩ := increasing_cons.mp hx
    obtain ⟨hy1, hy2⟩ := increasing_cons.mp hy
    refine hcons x _ _ (by simpa using hx1) ?_ (ih hx2 hy)
    simp only [List.map_cons, List.forall_mem_cons]
    exact ⟨hlt, by simpa using fun z hz => hlt.trans (hy1 z hz)⟩
  | case4 x xs y ys h ih =>
    have hlt : key y < key x := cmp_eq_gt_iff _ _ |>.mp h
    obtain ⟨hx1, hx2⟩ := increasing_cons.mp hx
    obtain ⟨hy1, hy2⟩ := increasing_cons.mp hy
    refine hcons y _ _ ?_ (by simpa using hy1) (ih hx hy2)
    simp only [List.map_cons, List.forall_mem_cons]
    exact ⟨hlt, by simpa using fun z hz => hlt.trans (hx1 z hz)⟩
  | case5 x xs y ys h ih =>
    have he : key x = key y := cmp_eq_eq_iff _ _ |>.mp h
    obtain ⟨hx1, hx2⟩ := increasing_cons.mp hx
    obtain ⟨hy1, hy2⟩ := increasing_cons.mp hy
    have hb := hboth x y he
    refine hcons (both x y) _ _ ?_ ?_ (ih hx2 hy2)
    · rw [hb]; simpa using hx1
    · rw [hb, he]; simpa using hy1

/-- A property that `both` takes from either side holds of an element of the union when it
holds of an element with that key in either list. -/
theorem exists_union_iff (hboth : ∀ x y, key x = key y → key (both x y) = key x)
    (P : α → Prop) (hP : ∀ x y, P (both x y) ↔ P x ∨ P y) (xs ys : List α) (k : κ) :
    (∃ z ∈ union key both xs ys, key z = k ∧ P z) ↔
      (∃ x ∈ xs, key x = k ∧ P x) ∨ ∃ y ∈ ys, key y = k ∧ P y := by
  fun_induction union key both xs ys with
  | case1 ys => simp
  | case2 x xs => simp
  | case3 x xs y ys h ih => rw [List.exists_mem_cons_iff, ih]; simp [or_assoc]
  | case4 x xs y ys h ih =>
    rw [List.exists_mem_cons_iff, ih, List.exists_mem_cons_iff (l := ys)]
    exact or_left_comm
  | case5 x xs y ys h ih =>
    have he : key x = key y := cmp_eq_eq_iff _ _ |>.mp h
    rw [List.exists_mem_cons_iff, ih, hP, hboth x y he]
    simp only [List.exists_mem_cons_iff, ← he, and_or_left]
    exact or_or_or_comm

end

end sorted_union
