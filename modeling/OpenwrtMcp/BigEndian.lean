-- Numbers as bytes, the highest byte first.
import Mathlib

namespace big_endian

/-- The lowest `width` bytes of a number. -/
def to_be_bytes : Nat → Nat → List UInt8
  | 0, _ => []
  | width + 1, n => to_be_bytes width (n / 256) ++ [UInt8.ofNat (n % 256)]

def from_be_bytes (bytes : List UInt8) : Nat :=
  bytes.foldl (fun n b => n * 256 + b.toNat) 0

@[simp] theorem length_to_be_bytes (width n : Nat) : (to_be_bytes width n).length = width := by
  induction width generalizing n with
  | zero => rfl
  | succ width ih => simp [to_be_bytes, ih]

@[simp] theorem from_be_bytes_snoc (bytes : List UInt8) (b : UInt8) :
    from_be_bytes (bytes ++ [b]) = from_be_bytes bytes * 256 + b.toNat := by
  simp [from_be_bytes]

theorem from_to_be_bytes {width n : Nat} (h : n < 256 ^ width) :
    from_be_bytes (to_be_bytes width n) = n := by
  induction width generalizing n with
  | zero =>
    rw [Nat.pow_zero] at h
    obtain rfl : n = 0 := by omega
    rfl
  | succ width ih =>
    have hdiv : n / 256 < 256 ^ width := by
      rw [Nat.div_lt_iff_lt_mul (by decide), ← Nat.pow_succ]
      exact h
    have hbyte : (UInt8.ofNat (n % 256)).toNat = n % 256 := by
      rw [UInt8.toNat_ofNat', Nat.mod_mod]
    unfold to_be_bytes
    rw [from_be_bytes_snoc, ih hdiv, hbyte]
    omega

theorem to_from_be_bytes (bytes : List UInt8) :
    to_be_bytes bytes.length (from_be_bytes bytes) = bytes := by
  induction bytes using List.reverseRecOn with
  | nil => rfl
  | append_singleton bytes b ih =>
    have hb : b.toNat < 256 := b.toNat_lt
    have hdiv : (from_be_bytes bytes * 256 + b.toNat) / 256 = from_be_bytes bytes := by omega
    have hmod : (from_be_bytes bytes * 256 + b.toNat) % 256 = b.toNat := by omega
    rw [List.length_append, List.length_singleton]
    unfold to_be_bytes
    rw [from_be_bytes_snoc, hdiv, hmod, ih, UInt8.ofNat_toNat]

end big_endian
