-- Integers as a program reads them from a text, and the text that each of them has.
import OpenwrtMcp.Json

open json text

namespace decimals

/-- `value.parse()`, for a signed type that is wide enough. -/
def parse_signed (value : Str) : Option Int :=
  let (negative, digits) : Bool × Str := match value with
    | '-' :: rest => (true, rest)
    | '+' :: rest => (false, rest)
    | _ => (false, value)
  if digits = [] || !(bytes digits).all is_ascii_digit then none
  else some (if negative then -parse_digits digits else parse_digits digits)

/-- `value.parse()`, for an unsigned type that is wide enough. -/
def parse_unsigned (value : Str) : Option Int :=
  if value.head? = some '-' then none else parse_signed value

/-- The number stands in the range of its type, and the text is the one that it has. -/
def canonical (value : Str) (min max : Int) (number : Option Int) : Bool :=
  number.any fun n => min ≤ n && n ≤ max && signed_decimal n = value

/-! ## Digits -/

theorem decimal_digits {n : Nat} {c : Char} (h : c ∈ decimal n) : c.isDigit = true :=
  Nat.isDigit_of_mem_toDigits (by decide) (by decide) h

theorem decimal_ne_nil (n : Nat) : decimal n ≠ [] := Nat.toDigits_ne_nil

theorem digit_range {c : Char} (h : c.isDigit = true) : 48 ≤ c.toNat ∧ c.toNat ≤ 57 := by
  unfold Char.isDigit at h
  rw [Bool.and_eq_true, decide_eq_true_eq, decide_eq_true_eq] at h
  exact h

theorem bytes_digit {c : Char} (h : c.isDigit = true) :
    bytes [c] = [UInt8.ofNat c.toNat] ∧ is_ascii_digit (UInt8.ofNat c.toNat) = true := by
  obtain ⟨hlow, hhigh⟩ := digit_range h
  refine ⟨bytes_low (by omega), ?_⟩
  have hnat : (UInt8.ofNat c.toNat).toNat = c.toNat := by
    rw [UInt8.toNat_ofNat']
    omega
  unfold is_ascii_digit
  rw [Bool.and_eq_true, decide_eq_true_eq, decide_eq_true_eq, UInt8.le_iff_toNat_le,
    UInt8.le_iff_toNat_le, hnat]
  exact ⟨hlow, hhigh⟩

theorem bytes_digits {s : Str} (h : ∀ c ∈ s, c.isDigit = true) :
    (bytes s).all is_ascii_digit = true := by
  rw [List.all_eq_true]
  intro b hb
  obtain ⟨c, hc, hmem⟩ := List.mem_flatMap.1 hb
  obtain ⟨hbytes, hdigit⟩ := bytes_digit (h c hc)
  have hin : b ∈ bytes [c] := by simpa [bytes] using hmem
  rw [hbytes, List.mem_singleton] at hin
  rw [hin]
  exact hdigit

/-- A text of digits has a byte for each of them. -/
theorem len_digits {s : Str} (h : ∀ c ∈ s, c.isDigit = true) : len s = s.length := by
  induction s with
  | nil => rfl
  | cons c s ih =>
    rw [List.forall_mem_cons] at h
    rw [← List.singleton_append, len_append, ih h.2, len, (bytes_digit h.1).1]
    simp [Nat.add_comm]

/-! ## Digits that spell a number -/

/-- The digit of a character. -/
theorem digitChar_of_digit {c : Char} (h : c.isDigit = true) :
    c.toNat - 48 < 10 ∧ Nat.digitChar (c.toNat - 48) = c := by
  obtain ⟨hlow, hhigh⟩ := digit_range h
  refine ⟨by omega, Char.toNat_inj.1 ?_⟩
  generalize hn : c.toNat = n at hlow hhigh
  interval_cases n <;> rfl

theorem parse_digits_snoc (s : Str) (c : Char) :
    parse_digits (s ++ [c]) = 10 * parse_digits s + (c.toNat - 48) := by
  unfold parse_digits
  rw [Nat.ofDigitChars_append, Nat.ofDigitChars_cons, Nat.ofDigitChars_nil]
  rfl

/-- Digits that do not begin with a zero spell a number that is not zero. -/
theorem parse_digits_pos {s : Str} (hne : s ≠ []) (h : ∀ c ∈ s, c.isDigit = true)
    (hhead : s.head? ≠ some '0') : 0 < parse_digits s := by
  induction s using List.reverseRecOn with
  | nil => exact absurd rfl hne
  | append_singleton s c ih =>
    rw [parse_digits_snoc]
    cases s with
    | nil =>
      have hc := digitChar_of_digit (h c (by simp))
      have hzero : c.toNat - 48 ≠ 0 := by
        intro heq
        rw [heq] at hc
        exact hhead (by rw [List.nil_append, List.head?_cons, ← hc.2]; rfl)
      omega
    | cons d s =>
      have hs := ih (by simp) (fun x hx => h x (List.mem_append_left _ hx)) (by simpa using hhead)
      omega

/-- Digits without a zero in front are the text of the number that they spell. -/
theorem decimal_parse_digits {s : Str} (hne : s ≠ []) (h : ∀ c ∈ s, c.isDigit = true)
    (hhead : s.length = 1 ∨ s.head? ≠ some '0') : decimal (parse_digits s) = s := by
  induction s using List.reverseRecOn with
  | nil => exact absurd rfl hne
  | append_singleton s c ih =>
    obtain ⟨hlt, hc⟩ := digitChar_of_digit (h c (by simp))
    rw [parse_digits_snoc]
    cases s with
    | nil =>
      rw [List.nil_append]
      have hzero : parse_digits [] = 0 := rfl
      rw [hzero, Nat.mul_zero, Nat.zero_add, decimal, Nat.toDigits_of_lt_base hlt, hc]
    | cons d s =>
      have hfirst : (d :: s).head? ≠ some '0' := by
        rcases hhead with hlen | hhead
        · simp at hlen
        · simpa using hhead
      have hs : ∀ x ∈ d :: s, x.isDigit = true := fun x hx => h x (List.mem_append_left _ hx)
      have hpos := parse_digits_pos (by simp) hs hfirst
      rw [decimal, ← Nat.toDigits_append_toDigits (by omega) hpos hlt]
      rw [show Nat.toDigits 10 (parse_digits (d :: s)) = d :: s from
        ih (by simp) hs (.inr hfirst), Nat.toDigits_of_lt_base hlt, hc]

/-- The text of a number that is not zero does not begin with a zero. -/
theorem head_decimal_pos {n : Nat} (h : 0 < n) : (decimal n).head? ≠ some '0' := by
  induction n using Nat.strongRecOn with
  | ind n ih =>
    rcases Nat.lt_or_ge n 10 with hlt | hge
    · rw [decimal, Nat.toDigits_of_lt_base hlt]
      interval_cases n <;> decide
    · have hfirst := ih (n / 10) (by omega) (by omega)
      rw [decimal, Nat.toDigits_of_base_le (by omega) hge, List.head?_append]
      cases htext : decimal (n / 10) with
      | nil => exact absurd htext (decimal_ne_nil _)
      | cons c rest =>
        rw [htext] at hfirst
        rw [decimal] at htext
        simpa [htext] using hfirst

/-- A byte of a text that is a digit is one of its characters. -/
theorem digits_of_bytes {s : Str} (h : (bytes s).all is_ascii_digit = true) :
    ∀ c ∈ s, c.isDigit = true := by
  intro c hc
  have hall : ∀ b ∈ bytes [c], is_ascii_digit b = true := fun b hb =>
    List.all_eq_true.1 h b (List.mem_flatMap.2 ⟨c, hc, by simpa [bytes] using hb⟩)
  rcases Nat.lt_or_ge c.toNat 128 with hlow | hhigh
  · rw [bytes_low hlow] at hall
    have hbyte := hall (UInt8.ofNat c.toNat) (by simp)
    have hnat : (UInt8.ofNat c.toNat).toNat = c.toNat := by
      rw [UInt8.toNat_ofNat']
      omega
    unfold is_ascii_digit at hbyte
    rw [Bool.and_eq_true, decide_eq_true_eq, decide_eq_true_eq, UInt8.le_iff_toNat_le,
      UInt8.le_iff_toNat_le, hnat] at hbyte
    unfold Char.isDigit
    rw [Bool.and_eq_true, decide_eq_true_eq, decide_eq_true_eq]
    exact hbyte
  · cases hb : bytes [c] with
    | nil => simp [bytes, String.utf8EncodeChar_ne_nil] at hb
    | cons b rest =>
      have hge := bytes_high hhigh b (by rw [hb]; simp)
      have hbyte := hall b (by rw [hb]; simp)
      unfold is_ascii_digit at hbyte
      rw [Bool.and_eq_true, decide_eq_true_eq, decide_eq_true_eq, UInt8.le_iff_toNat_le,
        UInt8.le_iff_toNat_le] at hbyte
      exact absurd hbyte.2 (by show ¬ b.toNat ≤ 57; omega)

/-! ## The text of a number -/

/-- A text of digits that has no sign before it. -/
theorem parse_signed_digits {s : Str} (hne : s ≠ []) (h : ∀ c ∈ s, c.isDigit = true) :
    parse_signed s = some (parse_digits s : Int) := by
  have hall := bytes_digits h
  cases s with
  | nil => exact absurd rfl hne
  | cons c rest =>
    have hdigit := h c (by simp)
    have hminus : c ≠ '-' := by
      rintro rfl
      exact absurd hdigit (by decide)
    have hplus : c ≠ '+' := by
      rintro rfl
      exact absurd hdigit (by decide)
    unfold parse_signed
    split
    rename_i negative digits heq
    split at heq
    · rename_i hcons
      exact absurd (List.cons.inj hcons).1 hminus
    · rename_i hcons
      exact absurd (List.cons.inj hcons).1 hplus
    · cases heq
      simp [hall]

theorem parse_signed_decimal (n : Nat) : parse_signed (decimal n) = some (n : Int) := by
  rw [parse_signed_digits (decimal_ne_nil n) fun c => decimal_digits, parse_decimal]

theorem parse_signed_signed_decimal (n : Int) : parse_signed (signed_decimal n) = some n := by
  unfold signed_decimal
  by_cases hn : 0 ≤ n
  · rw [if_pos hn, parse_signed_decimal, Int.toNat_of_nonneg hn]
  · rw [if_neg hn]
    have hall := bytes_digits fun c => decimal_digits (n := n.natAbs) (c := c)
    have hne := decimal_ne_nil n.natAbs
    simp only [parse_signed, hne, hall, decide_false, Bool.not_true, Bool.or_false,
      Bool.false_eq_true, if_false, if_true, parse_decimal]
    congr 1
    omega

theorem signed_decimal_nonneg {n : Int} (h : 0 ≤ n) : signed_decimal n = decimal n.toNat := by
  rw [signed_decimal, if_pos h]

theorem head_decimal (n : Nat) : (decimal n).head? ≠ some '-' := by
  intro h
  have hdigit := decimal_digits (List.mem_of_head? h)
  exact absurd hdigit (by decide)

/-- A text that is accepted is the one of a number in the range. -/
theorem canonical_signed {value : Str} {min max : Int} :
    canonical value min max (parse_signed value) = true ↔
      ∃ n, min ≤ n ∧ n ≤ max ∧ value = signed_decimal n := by
  unfold canonical
  rw [Option.any_eq_true]
  constructor
  · rintro ⟨n, -, h⟩
    simp only [Bool.and_eq_true, decide_eq_true_eq] at h
    exact ⟨n, h.1.1, h.1.2, h.2.symm⟩
  · rintro ⟨n, hmin, hmax, rfl⟩
    refine ⟨n, parse_signed_signed_decimal n, ?_⟩
    simp [hmin, hmax]

theorem canonical_unsigned {value : Str} {max : Int} :
    canonical value 0 max (parse_unsigned value) = true ↔
      ∃ n, 0 ≤ n ∧ n ≤ max ∧ value = signed_decimal n := by
  rw [← canonical_signed]
  unfold parse_unsigned
  by_cases hhead : value.head? = some '-'
  · rw [if_pos hhead]
    constructor
    · intro h
      cases h
    · intro h
      obtain ⟨n, hmin, -, rfl⟩ := canonical_signed.1 h
      rw [signed_decimal_nonneg hmin] at hhead
      exact absurd hhead (head_decimal _)
  · rw [if_neg hhead]

end decimals
