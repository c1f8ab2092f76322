-- What an observation keeps: the rows that were given, valid and in the order of their keys.
-- The order in which they were given makes no difference.
import OpenwrtMcp.JsonText
import OpenwrtMcp.Packages

open json slices text
open programs (except_bind_ok)

namespace openwrt_mcp_core.packages

/-! ## The check of the rows -/

/-- The bytes of the texts of a row. -/
def texts_size (texts : List (Str × Nat)) : Nat := (texts.map fun t => len t.1).sum

theorem check_texts_ok {texts : List (Str × Nat)} {retained total : Nat}
    (hretained : retained ≤ MAX_PACKAGE_RETAINED_BYTES) :
    check_texts texts retained = .ok total ↔ (∀ t ∈ texts, valid_text t.1 t.2 = true) ∧
      total = retained + texts_size texts ∧ total ≤ MAX_PACKAGE_RETAINED_BYTES := by
  induction texts generalizing retained with
  | nil =>
    simp only [check_texts, texts_size, List.map_nil, List.sum_nil, Except.ok.injEq]
    constructor
    · rintro rfl
      exact ⟨by simp, rfl, hretained⟩
    · exact fun h => h.2.1.symm
  | cons t rest ih =>
    have hsize : texts_size (t :: rest) = len t.1 + texts_size rest := by
      simp [texts_size]
    rw [check_texts, List.forall_mem_cons, hsize]
    by_cases hvalid : valid_text t.1 t.2 = true
    · by_cases hle : retained + len t.1 ≤ MAX_PACKAGE_RETAINED_BYTES
      · have hmore : ¬ (decide (retained + len t.1 ≥ 2 ^ 64) ||
            decide (retained + len t.1 > MAX_PACKAGE_RETAINED_BYTES)) = true := by
          unfold MAX_PACKAGE_RETAINED_BYTES at hle ⊢
          simp
          omega
        rw [if_neg (by simp [hvalid]), if_neg hmore, ih hle, ← Nat.add_assoc]
        simp [hvalid]
      · have hmore : (decide (retained + len t.1 ≥ 2 ^ 64) ||
            decide (retained + len t.1 > MAX_PACKAGE_RETAINED_BYTES)) = true := by
          simp
          omega
        rw [if_neg (by simp [hvalid]), if_pos hmore]
        constructor
        · intro h
          cases h
        · intro h
          omega
    · simp [hvalid]

section
variable {R : Type} {texts : R → List (Str × Nat)} {valid : R → Bool}

/-- A row that is accepted. -/
def Valid (texts : R → List (Str × Nat)) (valid : R → Bool) (row : R) : Prop :=
  (∀ t ∈ texts row, valid_text t.1 t.2 = true) ∧ valid row = true

def rows_size (texts : R → List (Str × Nat)) (rows : List R) : Nat :=
  (rows.map fun row => texts_size (texts row)).sum

theorem check_rows_ok {rows : List R} {retained total : Nat}
    (hretained : retained ≤ MAX_PACKAGE_RETAINED_BYTES) :
    check_rows texts valid rows retained = .ok total ↔ (∀ row ∈ rows, Valid texts valid row) ∧
      total = retained + rows_size texts rows ∧ total ≤ MAX_PACKAGE_RETAINED_BYTES := by
  induction rows generalizing retained with
  | nil =>
    simp only [check_rows, rows_size, List.map_nil, List.sum_nil, Except.ok.injEq]
    constructor
    · rintro rfl
      exact ⟨by simp, rfl, hretained⟩
    · exact fun h => h.2.1.symm
  | cons row rest ih =>
    have hsize : rows_size texts (row :: rest) = texts_size (texts row) + rows_size texts rest := by
      simp [rows_size]
    rw [check_rows, except_bind_ok, List.forall_mem_cons, hsize]
    constructor
    · rintro ⟨now, htexts, h⟩
      obtain ⟨hall, rfl, hle⟩ := (check_texts_ok hretained).1 htexts
      by_cases hvalid : valid row = true
      · rw [if_neg (by simp [hvalid])] at h
        obtain ⟨hrest, rfl, htotal⟩ := (ih hle).1 h
        exact ⟨⟨⟨hall, hvalid⟩, hrest⟩, by omega, htotal⟩
      · rw [if_pos (by simp [hvalid])] at h
        cases h
    · rintro ⟨⟨⟨hall, hvalid⟩, hrest⟩, rfl, htotal⟩
      have hle : retained + texts_size (texts row) ≤ MAX_PACKAGE_RETAINED_BYTES := by omega
      refine ⟨_, (check_texts_ok hretained).2 ⟨hall, rfl, hle⟩, ?_⟩
      rw [if_neg (by simp [hvalid])]
      exact (ih hle).2 ⟨hrest, by omega, htotal⟩

variable {κ : Type} [LinearOrder κ] {key : R → κ}

theorem observe_ok {rows sorted : List R} : observe texts valid key rows = .ok sorted ↔
    rows.length ≤ MAX_PACKAGE_RECORDS ∧ (∀ row ∈ rows, Valid texts valid row) ∧
      rows_size texts rows ≤ MAX_PACKAGE_RETAINED_BYTES ∧ (rows.map key).Nodup ∧
      sorted = sort_by_key key rows := by
  unfold observe
  by_cases hlength : rows.length > MAX_PACKAGE_RECORDS
  · rw [if_pos hlength]
    constructor
    · intro h
      cases h
    · intro h
      exact absurd h.1 (Nat.not_le_of_lt hlength)
  · rw [if_neg hlength, except_bind_ok]
    constructor
    · rintro ⟨total, hcheck, h⟩
      obtain ⟨hrows, rfl, hle⟩ := (check_rows_ok (Nat.zero_le _)).1 hcheck
      by_cases hany : ((windows2 (sort_by_key key rows)).any fun pair =>
          key pair.1 = key pair.2) = true
      · rw [if_pos hany] at h
        cases h
      · rw [if_neg hany] at h
        cases h
        exact ⟨Nat.le_of_not_lt hlength, hrows, by omega, neighbours_iff.1 (by simpa using hany),
          rfl⟩
    · rintro ⟨-, hrows, hle, hnodup, rfl⟩
      refine ⟨0 + rows_size texts rows, (check_rows_ok (Nat.zero_le _)).2 ⟨hrows, rfl, by omega⟩,
        ?_⟩
      rw [if_neg (by rw [neighbours_iff.2 hnodup]; simp)]

/-- Rows that are given in another order are kept as the same observation. -/
theorem observe_perm {rows rows' sorted : List R} (hperm : rows.Perm rows')
    (h : observe texts valid key rows = .ok sorted) :
    observe texts valid key rows' = .ok sorted := by
  obtain ⟨hlength, hrows, hle, hnodup, rfl⟩ := observe_ok.1 h
  refine observe_ok.2 ⟨hperm.length_eq ▸ hlength, ?_, ?_, (hperm.map key).nodup_iff.1 hnodup,
    sort_eq_of_perm hperm hnodup⟩
  · exact fun row hrow => hrows row (hperm.mem_iff.2 hrow)
  · have hsum : rows_size texts rows = rows_size texts rows' :=
      (hperm.map fun row => texts_size (texts row)).sum_eq
    exact hsum ▸ hle

end

/-! ## The text of a row -/

theorem valid_text_cost {text : Str} {maximum : Nat} (h : valid_text text maximum = true) :
    text_cost text ≤ 2 * maximum + 2 := by
  unfold valid_text at h
  simp only [Bool.and_eq_true, decide_eq_true_eq, Bool.not_eq_true', List.any_eq_false] at h
  obtain ⟨⟨-, hlen⟩, hcontrol⟩ := h
  have hquiet : Quiet text := by
    intro c hc
    have hnot := hcontrol c hc
    unfold is_control at hnot
    simp at hnot
    exact hnot.1
  have := hquiet.text_cost_le
  omega

/-- A row in a page: it has four members, and its text is short. -/
structure Small (v : Value) : Prop where
  size : size v ≤ 1500
  depth : normalized.depth v = 1
  nodes : normalized.nodes v = 5

theorem PackageRecord.small {row : PackageRecord}
    (h : Valid PackageRecord.texts (fun row => row.layer ≤ 1) row) : Small row.to_value := by
  obtain ⟨htexts, hlayer⟩ := h
  simp only [PackageRecord.texts, List.forall_mem_cons] at htexts
  obtain ⟨hname, hversion, harch, -⟩ := htexts
  have hname := valid_text_cost hname
  have hversion := valid_text_cost hversion
  have harch := valid_text_cost harch
  have hsize : ∀ s, json.size (.String s) = text_cost s := len_encode_text
  have hkeys : text_cost "arch".toList = 6 ∧ text_cost "layer".toList = 7 ∧
      text_cost "name".toList = 6 ∧ text_cost "version".toList = 9 := by decide
  obtain ⟨h1, h2, h3, h4⟩ := hkeys
  have hdigit : json.size (.Number (.PosInt row.layer.toUInt64)) ≤ 1 := by
    have hle : row.layer ≤ 1 := by simpa using hlayer
    have hcases : row.layer = 0 ∨ row.layer = 1 := by
      have hnat : row.layer.toNat ≤ 1 := hle
      rcases Nat.le_one_iff_eq_zero_or_eq_one.1 hnat with hzero | hone
      · left
        exact UInt8.toNat_inj.1 hzero
      · right
        exact UInt8.toNat_inj.1 hone
    rcases hcases with heq | heq
    · rw [heq]
      decide
    · rw [heq]
      decide
  refine ⟨?_, rfl, rfl⟩
  simp only [PackageRecord.to_value, members, List.map_cons, List.map_nil, size_object, field_size,
    List.sum_cons, List.sum_nil, List.length_cons, List.length_nil, hsize, h1, h2, h3, h4]
  omega

theorem OpkgStatusRecord.small {row : OpkgStatusRecord}
    (h : Valid OpkgStatusRecord.texts (fun _ => true) row) : Small row.to_value := by
  obtain ⟨htexts, -⟩ := h
  simp only [OpkgStatusRecord.texts, List.forall_mem_cons] at htexts
  obtain ⟨hname, hversion, harch, hstatus, -⟩ := htexts
  have hname := valid_text_cost hname
  have hversion := valid_text_cost hversion
  have harch := valid_text_cost harch
  have hstatus := valid_text_cost hstatus
  unfold MAX_OPKG_STATUS_BYTES at hstatus
  have hsize : ∀ s, json.size (.String s) = text_cost s := len_encode_text
  have hkeys : text_cost "arch".toList = 6 ∧ text_cost "name".toList = 6 ∧
      text_cost "status".toList = 8 ∧ text_cost "version".toList = 9 := by decide
  obtain ⟨h1, h2, h3, h4⟩ := hkeys
  refine ⟨?_, rfl, rfl⟩
  simp only [OpkgStatusRecord.to_value, members, List.map_cons, List.map_nil, size_object,
    field_size, List.sum_cons, List.sum_nil, List.length_cons, List.length_nil, hsize, h1, h2, h3,
    h4]
  omega

end openwrt_mcp_core.packages
