-- Text as Rust has it: a `str` is a list of Unicode scalar values, and its
-- length and its bytes are those of its UTF-8 encoding.
import Mathlib

namespace text

/-- The characters of a `str`. -/
abbrev Str := List Char

/-- Texts are compared character by character. -/
instance str_lawful : LawfulBEq Str := inferInstance

/-- `value.bytes()` -/
def bytes (s : Str) : List UInt8 := s.flatMap String.utf8EncodeChar

/-- `value.len()`, in bytes. -/
def len (s : Str) : Nat := (bytes s).length

@[simp] theorem bytes_nil : bytes [] = [] := rfl

@[simp] theorem bytes_append (s t : Str) : bytes (s ++ t) = bytes s ++ bytes t := by
  simp [bytes]

@[simp] theorem len_append (s t : Str) : len (s ++ t) = len s + len t := by
  simp [len]

/-- An ASCII character is one byte. -/
theorem bytes_low {c : Char} (h : c.toNat < 128) : bytes [c] = [UInt8.ofNat c.toNat] := by
  have hle : c.val.toNat ≤ 127 := Nat.le_of_lt_succ h
  simp only [bytes, List.flatMap_cons, List.flatMap_nil, List.append_nil, String.utf8EncodeChar,
    if_pos hle]
  rfl

/-- The bytes of any other character are no ASCII. -/
theorem bytes_high {c : Char} (h : 128 ≤ c.toNat) : ∀ b ∈ bytes [c], 128 ≤ b.toNat := by
  have hgt : ¬ c.val.toNat ≤ 127 := Nat.not_le_of_lt h
  have hbyte : ∀ n, 128 ≤ n → n < 256 → 128 ≤ (UInt8.ofNat n).toNat := by
    intro n h1 h2
    rw [UInt8.toNat_ofNat']
    omega
  intro b hb
  simp only [bytes, List.flatMap_cons, List.flatMap_nil, List.append_nil, String.utf8EncodeChar,
    if_neg hgt] at hb
  split at hb
  · simp only [List.mem_cons, List.not_mem_nil, or_false] at hb
    rcases hb with rfl | rfl
    · exact hbyte _ (by omega) (by omega)
    · exact hbyte _ (by omega) (by omega)
  split at hb
  · simp only [List.mem_cons, List.not_mem_nil, or_false] at hb
    rcases hb with rfl | rfl | rfl
    · exact hbyte _ (by omega) (by omega)
    · exact hbyte _ (by omega) (by omega)
    · exact hbyte _ (by omega) (by omega)
  · simp only [List.mem_cons, List.not_mem_nil, or_false] at hb
    rcases hb with rfl | rfl | rfl | rfl
    · exact hbyte _ (by omega) (by omega)
    · exact hbyte _ (by omega) (by omega)
    · exact hbyte _ (by omega) (by omega)
    · exact hbyte _ (by omega) (by omega)

theorem bytes_cons (c : Char) (s : Str) : bytes (c :: s) = bytes [c] ++ bytes s :=
  bytes_append [c] s

/-! ## Bytes -/

/-- `byte.is_ascii_digit()` -/
def is_ascii_digit (b : UInt8) : Bool := 48 ≤ b && b ≤ 57

/-- `byte.is_ascii_alphabetic()` -/
def is_ascii_alphabetic (b : UInt8) : Bool := (65 ≤ b && b ≤ 90) || (97 ≤ b && b ≤ 122)

/-- `byte.is_ascii_alphanumeric()` -/
def is_ascii_alphanumeric (b : UInt8) : Bool := is_ascii_alphabetic b || is_ascii_digit b

/-- `value.replace("ab", "c")`, for a pair of two different characters. -/
def replace_pair (a b c : Char) : Str → Str
  | [] => []
  | [x] => [x]
  | x :: y :: rest =>
    if x = a ∧ y = b then c :: replace_pair a b c rest else x :: replace_pair a b c (y :: rest)

/-- The number that a text of digits spells. -/
def parse_digits (s : Str) : Nat := Nat.ofDigitChars 10 s 0

/-- `value.parse::<u64>()`, for a text of digits. -/
def parse_u64 (s : Str) : Option Nat :=
  if parse_digits s < 2 ^ 64 then some (parse_digits s) else none

/-- The bytes of an ASCII literal such as `b"_-./:@"`. -/
def ascii (s : String) : List UInt8 := bytes s.toList

end text
