-- The text that bytes spell in UTF-8, if they spell one.
import OpenwrtMcp.Text

namespace text

/-- The characters, from the first byte of each: it says how many bytes there are. -/
def decode_utf8 : List UInt8 → Str
  | [] => []
  | a :: rest =>
    if a.toNat < 128 then Char.ofNat a.toNat :: decode_utf8 rest
    else match rest with
      | [] => []
      | b :: rest =>
        if a.toNat < 224 then
          Char.ofNat (a.toNat % 32 * 64 + b.toNat % 64) :: decode_utf8 rest
        else match rest with
          | [] => []
          | c :: rest =>
            if a.toNat < 240 then
              Char.ofNat (a.toNat % 16 * 4096 + b.toNat % 64 * 64 + c.toNat % 64) ::
                decode_utf8 rest
            else match rest with
              | [] => []
              | d :: rest =>
                Char.ofNat (a.toNat % 8 * 262144 + b.toNat % 64 * 4096 + c.toNat % 64 * 64 +
                  d.toNat % 64) :: decode_utf8 rest

/-- `str::from_utf8(bytes).ok()`: there is a text of these bytes. -/
def from_utf8 (bs : List UInt8) : Option Str :=
  if bytes (decode_utf8 bs) = bs then some (decode_utf8 bs) else none

theorem decode_one {a : UInt8} (h : a.toNat < 128) (rest : List UInt8) :
    decode_utf8 (a :: rest) = Char.ofNat a.toNat :: decode_utf8 rest := by
  rw [decode_utf8.eq_def]
  exact if_pos h

theorem decode_two {a b : UInt8} (h : ¬ a.toNat < 128) (htwo : a.toNat < 224)
    (rest : List UInt8) : decode_utf8 (a :: b :: rest) =
      Char.ofNat (a.toNat % 32 * 64 + b.toNat % 64) :: decode_utf8 rest := by
  rw [decode_utf8.eq_def]
  exact (if_neg h).trans (if_pos htwo)

theorem decode_three {a b c : UInt8} (h : ¬ a.toNat < 128) (htwo : ¬ a.toNat < 224)
    (hthree : a.toNat < 240) (rest : List UInt8) : decode_utf8 (a :: b :: c :: rest) =
      Char.ofNat (a.toNat % 16 * 4096 + b.toNat % 64 * 64 + c.toNat % 64) :: decode_utf8 rest := by
  rw [decode_utf8.eq_def]
  exact (if_neg h).trans ((if_neg htwo).trans (if_pos hthree))

theorem decode_four {a b c d : UInt8} (h : ¬ a.toNat < 128) (htwo : ¬ a.toNat < 224)
    (hthree : ¬ a.toNat < 240) (rest : List UInt8) : decode_utf8 (a :: b :: c :: d :: rest) =
      Char.ofNat (a.toNat % 8 * 262144 + b.toNat % 64 * 4096 + c.toNat % 64 * 64 +
        d.toNat % 64) :: decode_utf8 rest := by
  rw [decode_utf8.eq_def]
  exact (if_neg h).trans ((if_neg htwo).trans (if_neg hthree))

/-- The bytes of a character lead back to it. -/
theorem decode_utf8_char (c : Char) (rest : List UInt8) :
    decode_utf8 (String.utf8EncodeChar c ++ rest) = c :: decode_utf8 rest := by
  have hbyte : ∀ n, n < 256 → (UInt8.ofNat n).toNat = n := by
    intro n hn
    rw [UInt8.toNat_ofNat']
    omega
  have hmax : c.val.toNat < 1114112 := by
    have hvalid := c.valid
    simp only [UInt32.isValidChar, Nat.isValidChar] at hvalid
    omega
  have hback : ∀ n, n = c.val.toNat → Char.ofNat n = c := by
    intro n hn
    rw [hn]
    exact Char.ofNat_toNat c
  unfold String.utf8EncodeChar
  generalize c.val.toNat = v at hmax hback
  by_cases hone : v ≤ 127
  · have hfirst := hbyte v (by omega)
    simp only [hone, if_true, List.cons_append, List.nil_append]
    rw [decode_one (by omega), hfirst, hback v rfl]
  · by_cases htwo : v ≤ 2047
    · have hfirst := hbyte (v / 64 % 32 + 192) (by omega)
      have hsecond := hbyte (v % 64 + 128) (by omega)
      simp only [hone, htwo, if_true, if_false, List.cons_append, List.nil_append]
      rw [decode_two (by omega) (by omega), hfirst, hsecond, hback _ (by omega)]
    · by_cases hthree : v ≤ 65535
      · have hfirst := hbyte (v / 4096 % 16 + 224) (by omega)
        have hsecond := hbyte (v / 64 % 64 + 128) (by omega)
        have hthird := hbyte (v % 64 + 128) (by omega)
        simp only [hone, htwo, hthree, if_true, if_false, List.cons_append, List.nil_append]
        rw [decode_three (by omega) (by omega) (by omega), hfirst, hsecond, hthird,
          hback _ (by omega)]
      · have hfirst := hbyte (v / 262144 % 8 + 240) (by omega)
        have hsecond := hbyte (v / 4096 % 64 + 128) (by omega)
        have hthird := hbyte (v / 64 % 64 + 128) (by omega)
        have hfourth := hbyte (v % 64 + 128) (by omega)
        simp only [hone, htwo, hthree, if_false, List.cons_append, List.nil_append]
        rw [decode_four (by omega) (by omega) (by omega), hfirst, hsecond, hthird, hfourth,
          hback _ (by omega)]

theorem decode_utf8_bytes (s : Str) : decode_utf8 (bytes s) = s := by
  induction s with
  | nil => rfl
  | cons c s ih =>
    rw [bytes, List.flatMap_cons, decode_utf8_char]
    rw [bytes] at ih
    rw [ih]

theorem from_utf8_eq_some {bs : List UInt8} {s : Str} : from_utf8 bs = some s ↔ bs = bytes s := by
  unfold from_utf8
  constructor
  · intro h
    split at h
    · rename_i hsame
      cases h
      exact hsame.symm
    · cases h
  · intro h
    rw [h, decode_utf8_bytes, if_pos rfl]

end text
