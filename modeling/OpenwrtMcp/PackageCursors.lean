-- The text of a cursor: every cursor has exactly one text that is accepted.
import OpenwrtMcp.PackagePages
import OpenwrtMcp.Utf8

open decimals json text

namespace openwrt_mcp_core.packages.PackageCursor

/-- A nonce and an offset that a cursor may stand for. -/
structure Valid (nonce : Nonce) (offset : Nat) : Prop where
  nonce_ne : nonce ≠ zero
  pos : 0 < offset
  lt : offset < MAX_PACKAGE_RECORDS
  dvd : PACKAGE_PAGE_RECORDS ∣ offset

/-! ## The digits of the nonce -/

theorem is_hex_iff {b : UInt8} : is_hex b = true ↔
    48 ≤ b.toNat ∧ b.toNat ≤ 57 ∨ 97 ≤ b.toNat ∧ b.toNat ≤ 102 := by
  simp [is_hex, is_ascii_digit, UInt8.le_iff_toNat_le]

theorem hex_byte_value {b : UInt8} (h : is_hex b = true) :
    hex_value b < 16 ∧ hex_byte (hex_value b) = b := by
  have hb : UInt8.ofNat b.toNat = b := UInt8.ofNat_toNat
  unfold hex_value hex_byte
  rcases is_hex_iff.1 h with ⟨hle, hge⟩ | ⟨hle, hge⟩
  · have hlt : b < 97 := UInt8.lt_iff_toNat_lt.2 (Nat.lt_of_le_of_lt hge (by decide))
    rw [if_pos hlt, if_pos (by omega), Nat.add_sub_cancel' hle]
    exact ⟨by omega, hb⟩
  · have hlt : ¬ b < 97 := fun hlt => absurd (UInt8.lt_iff_toNat_lt.1 hlt) (Nat.not_lt.2 hle)
    rw [if_neg hlt, if_neg (by omega), Nat.add_sub_cancel' (by omega)]
    exact ⟨by omega, hb⟩

/-- The two digits of a byte are the ones that it was read from. -/
theorem digits_of_hex {high low : UInt8} (hhigh : is_hex high = true) (hlow : is_hex low = true) :
    digits (UInt8.ofNat (hex_value high * 16 + hex_value low)) = [high, low] := by
  obtain ⟨hlt, heq⟩ := hex_byte_value hhigh
  obtain ⟨hlt', heq'⟩ := hex_byte_value hlow
  have hbyte : (UInt8.ofNat (hex_value high * 16 + hex_value low)).toNat =
      hex_value high * 16 + hex_value low := by
    rw [UInt8.toNat_ofNat']
    omega
  unfold digits
  rw [hbyte, Nat.mul_add_mod', Nat.mod_eq_of_lt hlt', Nat.mul_comm, Nat.mul_add_div (by decide),
    Nat.div_eq_of_lt hlt', Nat.add_zero, heq, heq']

/-- Bytes that have the digits of a text, pair by pair, have that text. -/
theorem flatMap_digits {l bs : List UInt8} (hlen : bs.length = 2 * l.length)
    (hpair : ∀ i < l.length, digits (l.getD i 0) = [bs.getD (2 * i) 0, bs.getD (2 * i + 1) 0]) :
    l.flatMap digits = bs := by
  have hlength : (l.flatMap digits).length = bs.length := by rw [length_digits, hlen]
  refine List.ext_getElem hlength fun j hj hj' => ?_
  rw [← List.getD_eq_getElem _ 0 hj, ← List.getD_eq_getElem _ 0 hj']
  have hi : j / 2 < l.length := by omega
  obtain ⟨heven, hodd⟩ := getD_digits l (j / 2) hi
  have hdigits := hpair (j / 2) hi
  simp only [digits, List.cons.injEq, and_true] at hdigits
  rcases Nat.mod_two_eq_zero_or_one j with hmod | hmod
  · rw [show j = 2 * (j / 2) by omega, heven, hdigits.1]
  · rw [show j = 2 * (j / 2) + 1 by omega, hodd, hdigits.2]

theorem digits_nonce_of {bs : List UInt8} (hlen : bs.length = 32) (hall : bs.all is_hex = true) :
    (nonce_of bs).toList.flatMap digits = bs := by
  have hhex : ∀ j < 32, is_hex (bs.getD j 0) = true := by
    intro j hj
    rw [List.getD_eq_getElem _ _ (by omega)]
    exact List.all_eq_true.1 hall _ (List.getElem_mem _)
  refine flatMap_digits (by simp [hlen]) fun i hi => ?_
  have hlt : i < 16 := by simpa using hi
  have hget : (nonce_of bs).toList.getD i 0 =
      UInt8.ofNat (hex_value (bs.getD (2 * i) 0) * 16 + hex_value (bs.getD (2 * i + 1) 0)) := by
    rw [List.getD_eq_getElem _ _ hi]
    simp [nonce_of]
  rw [hget]
  exact digits_of_hex (hhex (2 * i) (by omega)) (hhex (2 * i + 1) (by omega))

/-- The hexadecimal text of a nonce is the one that it was read from. -/
theorem hex_nonce_of {s : Str} (hlen : len s = 32) (hall : (bytes s).all is_hex = true) :
    hex (nonce_of (bytes s)) = s := by
  have hbytes : bytes (hex (nonce_of (bytes s))) = bytes s := by
    rw [bytes_hex, digits_nonce_of hlen hall]
  rw [← decode_utf8_bytes (hex _), hbytes, decode_utf8_bytes]

/-! ## The texts that are accepted -/

theorem parse_offset_ok {nonce : Nonce} {offset : Str} {cursor : PackageCursor}
    (h : parse_offset nonce offset = .ok cursor) : cursor.nonce = nonce ∧
      offset = decimal cursor.offset ∧ Valid cursor.nonce cursor.offset := by
  unfold parse_offset at h
  split at h
  · cases h
  · rename_i number hnumber
    split at h
    · cases h
    · rename_i hrange
      simp only [Bool.or_eq_true, decide_eq_true_eq, not_or, not_not] at hrange
      obtain ⟨⟨⟨⟨⟨-, hnonce⟩, hzero⟩, hmax⟩, hmod⟩, htext⟩ := hrange
      cases h
      -- A text with a sign is no spelling of an unsigned number.
      have hpos : 0 ≤ number := by
        by_contra hneg
        rw [← htext, signed_decimal, if_neg hneg] at hnumber
        simp [parse_unsigned] at hnumber
      have hoffset : 0 < number.toNat ∧ number.toNat < MAX_PACKAGE_RECORDS := by omega
      refine ⟨rfl, ?_, hnonce, hoffset.1, hoffset.2, Nat.dvd_of_mod_eq_zero hmod⟩
      rw [← htext, signed_decimal_nonneg hpos]

/-- What is accepted is the text of the cursor. -/
theorem encode_parse {s : Str} {cursor : PackageCursor} (h : parse s = .ok cursor) :
    Valid cursor.nonce cursor.offset ∧ encode cursor.nonce cursor.offset = s := by
  unfold parse at h
  split at h
  · cases h
  · cases hsplit : split_once '.' s with
    | none =>
      rw [hsplit] at h
      cases h
    | some parts =>
      obtain ⟨digits, offset⟩ := parts
      simp only [hsplit] at h
      split at h
      · cases h
      · rename_i hhex
        simp only [Bool.or_eq_true, decide_eq_true_eq, not_or, not_not, Bool.not_eq_true',
          Bool.not_eq_false] at hhex
        obtain ⟨hnonce, hoffset, hvalid⟩ := parse_offset_ok h
        refine ⟨hvalid, ?_⟩
        rw [split_once_ok hsplit, encode, hnonce, ← hoffset, hex_nonce_of hhex.1 hhex.2]

/-- Parsing and encoding are inverse to each other, between the texts that are accepted and the
nonces and offsets that a cursor may stand for. -/
theorem every_cursor_has_one_text :
    (∀ nonce offset, Valid nonce offset → parse (encode nonce offset) = .ok ⟨nonce, offset⟩) ∧
    (∀ s cursor, parse s = .ok cursor →
      Valid cursor.nonce cursor.offset ∧ encode cursor.nonce cursor.offset = s) := by
  refine ⟨fun nonce offset h => ?_, fun s cursor h => encode_parse h⟩
  exact parse_encode h.nonce_ne (Nat.ne_of_gt h.pos) h.lt (Nat.mod_eq_zero_of_dvd h.dvd)

theorem the_cursor_of_the_second_page_is_read_back :
    parse (encode (.replicate 16 1) 16) = .ok ⟨.replicate 16 1, 16⟩ :=
  every_cursor_has_one_text.1 _ _ ⟨by decide, by decide, by decide, by decide⟩

end openwrt_mcp_core.packages.PackageCursor
