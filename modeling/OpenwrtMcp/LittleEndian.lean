-- Numbers as bytes, the lowest byte first.
import OpenwrtMcp.CheckedBytes

namespace checked_bytes

/-- `value.to_le_bytes()`, for a number of `width` bytes. -/
def to_le_bytes : Nat → Nat → Bytes
  | 0, _ => []
  | width + 1, n => UInt8.ofNat (n % 256) :: to_le_bytes width (n / 256)

@[simp] theorem length_to_le_bytes (width n : Nat) : (to_le_bytes width n).length = width := by
  induction width generalizing n with
  | zero => rfl
  | succ width ih => simp [to_le_bytes, ih]

theorem from_to_le_bytes {width n : Nat} (h : n < 256 ^ width) :
    from_le_bytes (to_le_bytes width n) = n := by
  induction width generalizing n with
  | zero =>
    rw [Nat.pow_zero] at h
    obtain rfl : n = 0 := by omega
    rfl
  | succ width ih =>
    have hdiv : n / 256 < 256 ^ width := by
      rw [Nat.div_lt_iff_lt_mul (by decide), ← Nat.pow_succ]
      exact h
    have hbyte : (UInt8.ofNat (n % 256)).toNat = n % 256 := by
      rw [UInt8.toNat_ofNat', Nat.mod_mod]
    rw [to_le_bytes, from_le_bytes, ih hdiv, hbyte]
    omega

theorem to_from_le_bytes (bytes : Bytes) :
    to_le_bytes bytes.length (from_le_bytes bytes) = bytes := by
  induction bytes with
  | nil => rfl
  | cons b rest ih =>
    have hb : b.toNat < 256 := b.toNat_lt
    have hmod : (b.toNat + 256 * from_le_bytes rest) % 256 = b.toNat := by omega
    have hdiv : (b.toNat + 256 * from_le_bytes rest) / 256 = from_le_bytes rest := by omega
    rw [List.length_cons, from_le_bytes, to_le_bytes, hmod, hdiv, ih, UInt8.ofNat_toNat]

end checked_bytes
