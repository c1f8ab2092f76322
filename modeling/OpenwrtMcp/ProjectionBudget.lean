-- What a run that succeeds takes from the budget: the bytes of the text of what it returns,
-- and one for each row and value.
import OpenwrtMcp.Projection

open json programs programs.Prog text

namespace openwrt_mcp_core.projection

/-- From `b` to `b'` so many bytes and so many rows are charged. -/
structure Spends (b b' : Budget) (bytes emitted : Nat) : Prop where
  bytes : b'.bytes = b.bytes + bytes
  emitted : b'.emitted = b.emitted + emitted
  limit : b.emitted ≤ MAX_COLLECTION_ITEMS → b'.emitted ≤ MAX_COLLECTION_ITEMS

theorem Spends.refl (b : Budget) : Spends b b 0 0 := ⟨rfl, rfl, id⟩

theorem Spends.trans {b₁ b₂ b₃ : Budget} {n₁ n₂ k₁ k₂ : Nat} (h₁ : Spends b₁ b₂ n₁ k₁)
    (h₂ : Spends b₂ b₃ n₂ k₂) : Spends b₁ b₃ (n₁ + n₂) (k₁ + k₂) where
  bytes := by rw [h₂.bytes, h₁.bytes, Nat.add_assoc]
  emitted := by rw [h₂.emitted, h₁.emitted, Nat.add_assoc]
  limit := h₂.limit ∘ h₁.limit

theorem Spends.cast {b b' : Budget} {n n' k k' : Nat} (h : Spends b b' n k) (hn : n = n')
    (hk : k = k') : Spends b b' n' k' := hn ▸ hk ▸ h

variable {limit : ByteLimit} {b b' : Budget}

theorem budget.bytes_spec {count : Nat} (h : budget.bytes limit count b = (.ok (), b')) :
    Spends b b' count 0 := by
  unfold budget.bytes at h
  split at h
  · cases h
    exact ⟨rfl, rfl, id⟩
  · cases h

theorem budget.scan_spec {count max : Nat} (h : budget.scan count max b = (.ok (), b')) :
    count ≤ max ∧ Spends b b' 0 0 := by
  unfold budget.scan at h
  split at h
  · cases h
  · rename_i hmax
    split at h
    · cases h
      exact ⟨Nat.le_of_not_lt hmax, rfl, rfl, id⟩
    · cases h

theorem budget.emit_spec (h : budget.emit b = (.ok (), b')) : Spends b b' 0 1 := by
  unfold budget.emit at h
  split at h
  · cases h
  · rename_i hmax
    cases h
    exact ⟨rfl, rfl, fun _ => Nat.le_of_not_lt hmax⟩

/-! ## Texts -/

theorem escaped_bytes_eq (byte : UInt8) : escaped_bytes byte = byte_cost byte := by
  have hall : ∀ n : Fin 256, escaped_bytes (UInt8.ofNat n.1) = byte_cost (UInt8.ofNat n.1) := by
    decide +kernel
  simpa using hall ⟨byte.toNat, byte.toNat_lt⟩

theorem count_text_spec {value : List UInt8} {count total : Nat}
    (h : count_text limit value count = some total) :
    total = count + (value.map byte_cost).sum := by
  induction value generalizing count with
  | nil => simpa [count_text] using h.symm
  | cons byte rest ih =>
    unfold count_text at h
    split at h
    · rw [ih h, escaped_bytes_eq, List.map_cons, List.sum_cons, Nat.add_assoc]
    · cases h

theorem text_bytes_spec {value : Str} {count : Nat} (h : text_bytes limit value = some count) :
    count = text_cost value := by
  unfold text_bytes at h
  split at h
  · exact count_text_spec h
  · cases h

theorem budget.text_spec {value : Str} (h : budget.text limit value b = (.ok (), b')) :
    Spends b b' (text_cost value) 0 := by
  obtain ⟨count, hcount, hbytes⟩ := ok_or_bind_ok.1 h
  rw [← text_bytes_spec hcount]
  exact budget.bytes_spec hbytes

theorem budget.key_spec {value : Str} {previous : Bool}
    (h : budget.key limit value previous b = (.ok (), b')) :
    Spends b b' (text_cost value + (1 + previous.toNat)) 0 := by
  obtain ⟨_, m, htext, hbytes⟩ := bind_ok.1 h
  exact (budget.text_spec htext).trans (budget.bytes_spec hbytes)

/-! ## Scalars -/

theorem size_from_i64 (n : Int64) : size (from_i64 n) = len (signed_decimal n.toInt) := by
  unfold from_i64 size signed_decimal
  by_cases hn : 0 ≤ n
  · have hint : 0 ≤ n.toInt := by simpa [Int64.le_iff_toInt_le] using hn
    have hnat : n.toUInt64.toNat = n.toInt.toNat := Int64.toNat_toUInt64_of_le hn
    rw [if_pos hn, if_pos hint, encode, Number.to_string, hnat]
  · have hint : ¬ 0 ≤ n.toInt := by simpa [Int64.le_iff_toInt_le] using hn
    rw [if_neg hn, if_neg hint, encode, Number.to_string, signed_decimal, if_neg hint]

theorem Scalar.charge_spec {scalar : Scalar} (h : scalar.charge limit b = (.ok (), b')) :
    Spends b b' (size scalar.value) 0 := by
  cases scalar with
  | Boolean value =>
    refine (budget.bytes_spec h).cast ?_ rfl
    cases value <;> decide
  | Text value => exact (budget.text_spec h).cast (len_encode_text value).symm rfl
  | Integer value => exact (budget.bytes_spec h).cast (size_from_i64 value).symm rfl
  | Counter value => exact (budget.text_spec h).cast (len_encode_text _).symm rfl

theorem Scalar.to_value_spec {scalar : Scalar} {v : Value}
    (h : scalar.to_value limit b = (.ok v, b')) :
    v = scalar.value ∧ Spends b b' (size scalar.value) 0 := by
  obtain ⟨_, m, hcharge, hv⟩ := bind_ok.1 h
  obtain ⟨rfl, rfl⟩ := pure_ok.1 hv
  exact ⟨rfl, Scalar.charge_spec hcharge⟩

end openwrt_mcp_core.projection
