-- What an operation advertises and what it enforces: an input that is accepted is valid under the
-- schema, and one that is valid under it is accepted, as far as a schema can say.
import OpenwrtMcp.PackageCursors
import OpenwrtMcp.PrepareLaws

open json json_schema maps programs text

namespace openwrt_mcp_core

open decimals patterns projection

/-- A text has a byte for each code point, or more. -/
theorem length_le_len (s : Str) : s.length ≤ len s := by
  induction s with
  | nil => exact Nat.le_refl 0
  | cons c s ih =>
    have hpos : 1 ≤ len [c] := by
      simp only [len, bytes, List.flatMap_cons, List.flatMap_nil, List.append_nil,
        String.length_utf8EncodeChar]
      exact c.utf8Size_pos
    rw [← List.singleton_append, len_append, List.length_append, List.length_singleton]
    omega

/-! ## Cursors -/

namespace packages

/-- A text that is accepted: 32 digits, a point, and an offset that is not zero. -/
theorem PackageCursor.parse_ok {s : Str} {cursor : PackageCursor}
    (h : PackageCursor.parse s = .ok cursor) : len s ≤ 37 ∧ ∃ hex n, s = hex ++ '.' :: decimal n ∧
      len hex = 32 ∧ (bytes hex).all is_hex = true ∧ 0 < n ∧ n < MAX_PACKAGE_RECORDS := by
  obtain ⟨hvalid, rfl⟩ := PackageCursor.encode_parse h
  exact ⟨PackageCursor.len_encode_le _ hvalid.lt, _, _, rfl, PackageCursor.len_hex _,
    PackageCursor.hex_is_hex _, hvalid.pos, hvalid.lt⟩

end packages

/-- The items of the pattern that the schema of a cursor has. -/
def cursor_items : List Item :=
  [.Begin, .Repeat [('0', '9'), ('a', 'f')] 32 (some 32), .Repeat [('.', '.')] 1 (some 1),
    .Repeat [('1', '9')] 1 (some 1), .Repeat [('0', '9')] 0 (some 3), .Finish]

theorem parse_cursor_pattern : parse_pattern CURSOR_PATTERN = some cursor_items := by
  decide

/-- A text of hexadecimal digits has a byte for each of them. -/
theorem hex_text {s : Str} (h : (bytes s).all packages.is_hex = true) :
    len s = s.length ∧ s.all (in_ranges [('0', '9'), ('a', 'f')]) = true := by
  induction s with
  | nil => exact ⟨rfl, rfl⟩
  | cons c s ih =>
    rw [bytes_cons, List.all_append, Bool.and_eq_true] at h
    obtain ⟨hlen, hall⟩ := ih h.2
    have hlow : c.toNat < 128 := by
      by_contra hhigh
      obtain ⟨b, hb⟩ : ∃ b, b ∈ bytes [c] := by
        apply List.exists_mem_of_ne_nil
        simp [bytes, String.utf8EncodeChar_ne_nil]
      have hge := bytes_high (Nat.le_of_not_lt hhigh) b hb
      have hhex := List.all_eq_true.1 h.1 b hb
      simp only [packages.is_hex, is_ascii_digit, Bool.or_eq_true, Bool.and_eq_true,
        decide_eq_true_eq, UInt8.le_iff_toNat_le] at hhex
      have hconst : (57 : UInt8).toNat = 57 ∧ (102 : UInt8).toNat = 102 := by decide
      omega
    have htable : ∀ n : Fin 128, packages.is_hex (UInt8.ofNat n.1) = true →
        in_ranges [('0', '9'), ('a', 'f')] (Char.ofNat n.1) = true := by decide
    rw [bytes_low hlow] at h
    have hchar := htable ⟨c.toNat, hlow⟩ (by simpa using h.1)
    rw [Char.ofNat_toNat] at hchar
    refine ⟨?_, by rw [List.all_cons, hchar, hall]; rfl⟩
    rw [← List.singleton_append, len_append, hlen, len, bytes_low hlow]
    simp [Nat.add_comm]

/-- The first digit of a number that is not zero is not zero. -/
theorem first_digit {n : Nat} (hpos : 0 < n) : ∃ c rest, decimal n = c :: rest ∧
    in_ranges [('1', '9')] c = true := by
  induction n using Nat.strong_induction_on with
  | _ n ih =>
    unfold decimal
    by_cases hlt : n < 10
    · refine ⟨n.digitChar, [], Nat.toDigits_of_lt_base hlt, ?_⟩
      have htable : ∀ d : Fin 10, 0 < d.1 → in_ranges [('1', '9')] d.1.digitChar = true := by decide
      exact htable ⟨n, hlt⟩ hpos
    · obtain ⟨c, rest, hdigits, hfirst⟩ := ih (n / 10) (by omega) (by omega)
      unfold decimal at hdigits
      rw [Nat.toDigits_of_base_le (by decide) (Nat.le_of_not_lt hlt), hdigits]
      exact ⟨c, _, rfl, hfirst⟩

theorem offset_text {n : Nat} (hpos : 0 < n) (hlt : n < packages.MAX_PACKAGE_RECORDS) :
    ∃ c rest, decimal n = c :: rest ∧ in_ranges [('1', '9')] c = true ∧
      rest.all (in_ranges [('0', '9')]) = true ∧ rest.length ≤ 3 := by
  obtain ⟨c, rest, hdecimal, hfirst⟩ := first_digit hpos
  unfold packages.MAX_PACKAGE_RECORDS at hlt
  have hlength : (decimal n).length ≤ 4 :=
    (Nat.length_toDigits_le_iff (by decide) (by decide)).2 (by omega)
  rw [hdecimal, List.length_cons] at hlength
  refine ⟨c, rest, hdecimal, hfirst, ?_, by omega⟩
  rw [List.all_eq_true]
  intro d hd
  have hdigit : d.isDigit = true := decimal_digits (hdecimal ▸ List.mem_cons_of_mem c hd)
  simp only [in_ranges, List.any_cons, List.any_nil, Bool.or_false]
  exact hdigit

/-- A cursor that is accepted is of the length and the form that the schema says. -/
theorem cursor_matches {s : Str} {cursor : packages.PackageCursor}
    (h : packages.PackageCursor.parse s = .ok cursor) :
    34 ≤ s.length ∧ s.length ≤ 37 ∧ matches_pattern CURSOR_PATTERN s = true := by
  obtain ⟨-, hex, n, rfl, hlen, hhex, hpos, hlt⟩ := packages.PackageCursor.parse_ok h
  obtain ⟨hlength, hall⟩ := hex_text hhex
  obtain ⟨c, rest, hdecimal, hfirst, hrest, hshort⟩ := offset_text hpos hlt
  have h32 : hex.length = 32 := hlength.symm.trans hlen
  have htotal : (hex ++ '.' :: decimal n).length = 34 + rest.length := by
    rw [hdecimal]
    simp only [List.length_append, List.length_cons, h32]
    omega
  refine ⟨by omega, by omega, ?_⟩
  unfold matches_pattern
  rw [parse_cursor_pattern, Option.any_some, hdecimal]
  apply search_of_match_here
  have hfinish : match_here [.Repeat [('0', '9')] 0 (some 3), .Finish] false (rest ++ []) =
    true := by
    apply match_here_repeat _ hrest
    · simp [match_here]
    · simpa [within] using hshort
  have hdigit : match_here [.Repeat [('1', '9')] 1 (some 1), .Repeat [('0', '9')] 0 (some 3),
      .Finish] false ([c] ++ rest) = true := by
    apply match_here_repeat (by rfl) (by simpa using hfirst)
    simpa using hfinish
  have hpoint : match_here [.Repeat [('.', '.')] 1 (some 1), .Repeat [('1', '9')] 1 (some 1),
      .Repeat [('0', '9')] 0 (some 3), .Finish] false (['.'] ++ (c :: rest)) = true :=
    match_here_repeat (by rfl) (by decide) (by simpa using hdigit)
  have hcount : within hex.length 32 (some 32) = true := by
    rw [h32]
    rfl
  unfold cursor_items match_here
  exact match_here_repeat hcount hall (by simpa [h32] using hpoint)

/-! ## The schema of one parameter -/

theorem number_value_of_usize {n : Nat} (h : n < 2 ^ 64) :
    ∃ number, of_usize n = .Number number ∧ number_value number = n := by
  refine ⟨_, rfl, ?_⟩
  have hnat : (UInt64.ofNat n).toNat = n := by
    rw [UInt64.toNat_ofNat']
    omega
  simp only [number_value, hnat]

section
variable {names : List Str} {value : Value} {schema : Map}

/-- Every keyword of the schema holds. -/
def AllHold (names : List Str) (schema : Map) (value : Value) : Prop :=
  ∀ k ∈ schema, keyword_holds names k.1 k.2 value = true

theorem AllHold.insert (h : AllHold names schema value) {keyword : Str} {argument : Value}
    (hkeyword : keyword_holds names keyword argument value = true) :
    AllHold names (schema.insert keyword argument) value := by
  intro k hk
  rcases Map.mem_insert hk with rfl | hk
  · exact hkeyword
  · exact h k hk

theorem AllHold.text {s : Str} (h : AllHold names schema (.String s)) {operation : Operation}
    {name : Str} (hlimit : operation.text_limit name < 2 ^ 64)
    (hmax : s.length ≤ operation.text_limit name)
    (hselected : (operation.selector_limit name).isSome = true → s ≠ [])
    (hpage : operation.action.package_profile.isSome = true →
      34 ≤ s.length ∧ matches_pattern CURSOR_PATTERN s = true) :
    AllHold names (operation.text_schema name schema) (.String s) := by
  have hlength : ∀ {n : Nat}, n < 2 ^ 64 → n ≤ s.length →
      keyword_holds names "minLength".toList (of_usize n) (.String s) = true := by
    intro n hn hle
    obtain ⟨number, heq, hvalue⟩ := number_value_of_usize hn
    rw [heq, holds_min_length, hvalue, decide_eq_true_eq]
    exact_mod_cast hle
  unfold Operation.text_schema
  apply AllHold.insert _ (holds_ignored names (by decide) _ _)
  have hfirst : AllHold names (schema.insert "maxLength".toList
      (of_usize (operation.text_limit name))) (.String s) := by
    apply h.insert
    obtain ⟨number, heq, hvalue⟩ := number_value_of_usize hlimit
    rw [heq, holds_max_length, hvalue, decide_eq_true_eq]
    exact_mod_cast hmax
  have hsecond : AllHold names (if (operation.selector_limit name).isSome then
      (schema.insert "maxLength".toList (of_usize (operation.text_limit name))).insert
        "minLength".toList (of_usize 1)
      else schema.insert "maxLength".toList (of_usize (operation.text_limit name)))
      (.String s) := by
    split
    · rename_i hsome
      exact hfirst.insert (hlength (by decide) (List.length_pos_iff.2 (hselected hsome)))
    · exact hfirst
  split
  · rename_i hsome
    refine (hsecond.insert (hlength (by decide) (hpage hsome).1)).insert ?_
    rw [holds_pattern]
    exact (hpage hsome).2
  · exact hsecond

theorem AllHold.integer {number : Number} (h : AllHold names schema (.Number number)) {n : Int}
    (hvalue : number_value number = n) (hlow : UBUS_INTEGER_MIN ≤ n)
    (hhigh : n ≤ UBUS_INTEGER_MAX) :
    AllHold names (Operation.integer_schema schema) (.Number number) := by
  obtain ⟨low, hmin, hlowest⟩ := number_value_of_integer (n := UBUS_INTEGER_MIN)
    (by decide) (by decide)
  obtain ⟨high, hmax, hhighest⟩ := number_value_of_integer (n := UBUS_INTEGER_MAX)
    (by decide) (by decide)
  refine (h.insert ?_).insert ?_
  · rw [hmin, holds_minimum, hlowest, hvalue, decide_eq_true_eq]
    exact_mod_cast hlow
  · rw [hmax, holds_maximum, hhighest, hvalue, decide_eq_true_eq]
    exact_mod_cast hhigh

end

/-! ## Integers -/

/-- The value of a number that is no float. -/
def Integral (number : Number) (n : Int) : Prop :=
  (∀ s, number ≠ .Float s) ∧ number_value number = n

theorem Integral.of_number {number : Number} (h : ∀ s, number ≠ .Float s) :
    ∃ n : Int, Integral number n ∧ -2 ^ 63 ≤ n ∧ n < 2 ^ 64 ∧
      scalar_text (.Number number) = some (signed_decimal n) := by
  obtain ⟨n, hlow, hhigh, hvalue, htext⟩ := number_integer h
  refine ⟨n, ⟨h, hvalue⟩, hlow, hhigh, ?_⟩
  cases number with
  | PosInt m => exact congrArg some htext
  | NegInt m => exact congrArg some htext
  | Float s => exact absurd rfl (h s)

/-- `value.as_i64()` is the number, when an `i64` holds it. -/
theorem Integral.as_i64 {number : Number} {n : Int} (h : Integral number n) :
    (n < 2 ^ 63 → ∃ i : Int64, json.as_i64 (.Number number) = some i ∧ i.toInt = n) ∧
      (2 ^ 63 ≤ n → json.as_i64 (.Number number) = none ∧
        (as_u64 (.Number number)).isSome = true) := by
  obtain ⟨hfloat, hvalue⟩ := h
  cases number with
  | Float s => exact absurd rfl (hfloat s)
  | NegInt m =>
    simp only [number_value] at hvalue
    have hm : m.toInt = n := by exact_mod_cast hvalue
    have hlt := m.toInt_lt
    exact ⟨fun _ => ⟨m, rfl, hm⟩, fun hge => absurd hge (by omega)⟩
  | PosInt m =>
    simp only [number_value] at hvalue
    have hm : (m.toNat : Int) = n := by exact_mod_cast hvalue
    constructor
    · intro hlt
      have hsmall : m.toNat < 2 ^ 63 := by omega
      refine ⟨m.toInt64, by rw [json.as_i64, if_pos hsmall], ?_⟩
      rw [← hm]
      simp only [Int64.toInt, UInt64.toBitVec_toInt64, BitVec.toInt_eq_toNat_cond,
        UInt64.toNat_toBitVec]
      rw [if_pos (by omega)]
    · intro hge
      have hlarge : ¬ m.toNat < 2 ^ 63 := by omega
      exact ⟨by rw [json.as_i64, if_neg hlarge], rfl⟩

theorem Integral.checked {number : Number} {n : Int} (h : Integral number n) :
    checked_integer (.Number number) = true ↔ UBUS_INTEGER_MIN ≤ n ∧ n ≤ UBUS_INTEGER_MAX := by
  unfold checked_integer
  by_cases hlt : n < 2 ^ 63
  · obtain ⟨i, hi, hint⟩ := h.as_i64.1 hlt
    simp [hi, hint]
  · obtain ⟨hnone, -⟩ := h.as_i64.2 (Int.not_lt.1 hlt)
    rw [hnone]
    unfold UBUS_INTEGER_MAX
    simp only [Option.any_none, Bool.false_eq_true, false_iff, not_and]
    omega

/-- The integers that an operation takes. -/
theorem valid_type_integer {ubus : Bool} {value : Value} :
    valid_type ubus .Integer value = true ↔ ∃ number n, value = .Number number ∧ Integral number n ∧
      (ubus = true → UBUS_INTEGER_MIN ≤ n ∧ n ≤ UBUS_INTEGER_MAX) := by
  constructor
  · intro h
    have hnumber : ∃ number, value = .Number number ∧ ∀ s, number ≠ .Float s := by
      cases value with
      | Number number =>
        refine ⟨number, rfl, ?_⟩
        intro s heq
        rw [heq] at h
        cases ubus <;> simp [valid_type, checked_integer, json.as_i64, as_u64] at h
      | _ => cases ubus <;> simp [valid_type, checked_integer, json.as_i64, as_u64] at h
    obtain ⟨number, rfl, hfloat⟩ := hnumber
    obtain ⟨n, hn, -⟩ := Integral.of_number hfloat
    refine ⟨number, n, rfl, hn, ?_⟩
    intro hubus
    rw [valid_type, hubus] at h
    exact hn.checked.1 h
  · intro h
    obtain ⟨number, n, rfl, hn, hrange⟩ := h
    unfold valid_type
    by_cases hubus : ubus = true
    · simp only [hubus, if_true]
      exact hn.checked.2 (hrange hubus)
    · simp only [hubus, if_false, Bool.or_eq_true, Bool.false_eq_true]
      by_cases hlt : n < 2 ^ 63
      · obtain ⟨i, hi, -⟩ := hn.as_i64.1 hlt
        exact .inl (by rw [hi]; rfl)
      · exact .inr (hn.as_i64.2 (Int.not_lt.1 hlt)).2

/-! ## The values that are allowed -/

/-- A value of the kind. A number is an integer that 64 bits hold. -/
def Typed (kind : ParameterKind) (value : Value) : Prop :=
  match kind with
  | .String => ∃ s, value = .String s
  | .Integer => ∃ number n, value = .Number number ∧ Integral number n
  | .Boolean => ∃ b, value = .Bool b

theorem typed_of_valid_type {ubus : Bool} {kind : ParameterKind} {value : Value}
    (h : valid_type ubus kind value = true) : Typed kind value := by
  cases kind with
  | String =>
    obtain ⟨s, hs, -⟩ := (Option.any_eq_true _ _).1 h
    exact ⟨s, as_str_eq_some.1 hs⟩
  | Integer =>
    obtain ⟨number, n, hnumber, hn, -⟩ := valid_type_integer.1 h
    exact ⟨number, n, hnumber, hn⟩
  | Boolean =>
    cases value with
    | Bool b => exact ⟨b, rfl⟩
    | _ => cases h

theorem has_type_of_typed {kind : ParameterKind} {value : Value} (h : Typed kind value) :
    has_type kind.to_string value = true := by
  cases kind with
  | String =>
    obtain ⟨s, rfl⟩ := h
    rfl
  | Integer =>
    obtain ⟨number, n, rfl, hn⟩ := h
    simp [has_type, hn.2, ParameterKind.to_string]
  | Boolean =>
    obtain ⟨b, rfl⟩ := h
    rfl

theorem typed_of_has_type {kind : ParameterKind} {value : Value}
    (hfloat : ∀ s, value ≠ .Number (.Float s)) (h : has_type kind.to_string value = true) :
    Typed kind value := by
  cases value with
  | Number number =>
    have hno : ∀ s, number ≠ .Float s := by
      intro s heq
      exact hfloat s (by rw [heq])
    obtain ⟨n, hn, -⟩ := Integral.of_number hno
    simp only [has_type, Bool.or_eq_true, Bool.and_eq_true, decide_eq_true_eq] at h
    cases kind with
    | Integer => exact ⟨number, n, rfl, hn⟩
    | String => exact absurd h (not_or.2 ⟨by decide, fun h => absurd h.1 (by decide)⟩)
    | Boolean => exact absurd h (not_or.2 ⟨by decide, fun h => absurd h.1 (by decide)⟩)
  | String s =>
    simp only [has_type, decide_eq_true_eq] at h
    cases kind with
    | String => exact ⟨s, rfl⟩
    | _ => exact absurd h (by decide)
  | Bool b =>
    simp only [has_type, decide_eq_true_eq] at h
    cases kind with
    | Boolean => exact ⟨b, rfl⟩
    | _ => exact absurd h (by decide)
  | _ =>
    simp only [has_type, decide_eq_true_eq] at h
    cases kind <;> exact absurd h (by decide)

theorem scalar_text_of_typed {kind : ParameterKind} {value : Value} (h : Typed kind value) :
    ∃ s, scalar_text value = some s := by
  cases kind with
  | String =>
    obtain ⟨s, rfl⟩ := h
    exact ⟨s, rfl⟩
  | Integer =>
    obtain ⟨number, n, rfl, hn⟩ := h
    obtain ⟨n', -, -, -, htext⟩ := Integral.of_number hn.1
    exact ⟨_, htext⟩
  | Boolean =>
    obtain ⟨b, rfl⟩ := h
    exact ⟨_, rfl⟩

/-- The text of an integer that is allowed is the one that `to_string` gives it. -/
theorem integer_of_allowed {ubus : Bool} {s : Str} (h : allowed_value ubus .Integer s = true) :
    ∃ n : Int, -2 ^ 63 ≤ n ∧ n < 2 ^ 64 ∧ s = signed_decimal n := by
  unfold allowed_value at h
  by_cases hubus : ubus = true
  · simp only [hubus, if_true] at h
    obtain ⟨n, hlow, hhigh, htext⟩ := canonical_signed.1 h
    exact ⟨n, by omega, by omega, htext⟩
  · simp only [hubus, if_false, Bool.or_eq_true, Bool.false_eq_true] at h
    rcases h with h | h
    · obtain ⟨n, hlow, hhigh, htext⟩ := canonical_signed.1 h
      exact ⟨n, by omega, by omega, htext⟩
    · obtain ⟨n, hlow, hhigh, htext⟩ := canonical_unsigned.1 h
      exact ⟨n, by omega, by omega, htext⟩

/-- The schema lists a value just when the check finds the text of it. -/
theorem holds_enum_iff (serde : SerdeJson) {names : List Str} {ubus : Bool} {kind : ParameterKind}
    {allowed : List Str} (hallowed : ∀ s ∈ allowed, allowed_value ubus kind s = true)
    {value : Value} (htyped : Typed kind value) :
    keyword_holds names "enum".toList
        (.Array (allowed.map (Operation.allowed_to_value serde kind))) value = true ↔
      ∃ s, scalar_text value = some s ∧ s ∈ allowed := by
  rw [holds_enum, List.any_map, List.any_eq_true]
  cases kind with
  | String =>
    obtain ⟨s, rfl⟩ := htyped
    simp [Operation.allowed_to_value, equal, scalar_text]
  | Integer =>
    obtain ⟨number, n, rfl, hn⟩ := htyped
    obtain ⟨n', hn', hlow, hhigh, htext⟩ := Integral.of_number hn.1
    rw [htext]
    have hsame : ∀ s m, -2 ^ 63 ≤ m → m < 2 ^ 64 → s = signed_decimal m →
        (equal (Operation.allowed_to_value serde .Integer s) (.Number number) = true ↔ m = n') := by
      intro s m hmlow hmhigh hs
      obtain ⟨other, hother, hvalue⟩ := number_value_of_integer hmlow hmhigh
      rw [Operation.allowed_to_value, hs, serde.reads_integers m hmlow hmhigh, Option.getD_some,
        hother, equal, decide_eq_true_eq, hvalue, hn'.2]
      exact Int.cast_inj
    constructor
    · intro h
      obtain ⟨s, hs, hequal⟩ := h
      obtain ⟨m, hmlow, hmhigh, hstext⟩ := integer_of_allowed (hallowed s hs)
      have hm := (hsame s m hmlow hmhigh hstext).1 hequal
      exact ⟨s, by rw [hstext, hm], hs⟩
    · intro h
      obtain ⟨s, heq, hs⟩ := h
      cases heq
      exact ⟨_, hs, (hsame _ n' hlow hhigh rfl).2 rfl⟩
  | Boolean =>
    obtain ⟨b, rfl⟩ := htyped
    have htext : ∀ s ∈ allowed, s = "true".toList ∨ s = "false".toList := by
      intro s hs
      simpa only [allowed_value, Bool.or_eq_true, decide_eq_true_eq] using hallowed s hs
    have hsame : ∀ s ∈ allowed,
        (equal (Operation.allowed_to_value serde .Boolean s) (.Bool b) = true ↔
          scalar_text (.Bool b) = some s) := by
      intro s hs
      change equal (.Bool (decide (s = "true".toList))) (.Bool b) = true ↔ _
      rcases htext s hs with rfl | rfl
      · cases b <;> decide
      · cases b <;> decide
    constructor
    · intro h
      obtain ⟨s, hs, hequal⟩ := h
      exact ⟨s, (hsame s hs).1 hequal, hs⟩
    · intro h
      obtain ⟨s, heq, hs⟩ := h
      exact ⟨s, hs, (hsame s hs).2 heq⟩

/-! ## One parameter -/

section
variable (serde : SerdeJson) {operation : Operation} {name : Str} {parameter : Parameter}
  {value : Value}

/-- The keywords that a text has besides its type. -/
def TEXT_KEYWORDS : List Str :=
  ["maxLength".toList, "minLength".toList, "pattern".toList, "description".toList]

theorem mem_text_schema {schema : Map} {f : Str × Value} (hf : f ∈ schema)
    (hother : f.1 ∉ TEXT_KEYWORDS) : f ∈ operation.text_schema name schema := by
  unfold TEXT_KEYWORDS at hother
  rw [List.mem_cons, List.mem_cons, List.mem_cons, List.mem_singleton, not_or, not_or, not_or]
    at hother
  obtain ⟨hmax, hmin, hpattern, hdescription⟩ := hother
  unfold Operation.text_schema
  apply Map.mem_insert_of_ne _ _ hdescription
  have hfirst := Map.mem_insert_of_ne (of_usize (operation.text_limit name)) hf hmax
  have hsecond : f ∈ (if (operation.selector_limit name).isSome then
      (schema.insert "maxLength".toList (of_usize (operation.text_limit name))).insert
        "minLength".toList (of_usize 1)
      else schema.insert "maxLength".toList (of_usize (operation.text_limit name))) := by
    split
    · exact Map.mem_insert_of_ne _ hfirst hmin
    · exact hfirst
  split
  · exact Map.mem_insert_of_ne _ (Map.mem_insert_of_ne _ hsecond hmin) hpattern
  · exact hsecond

/-- The text of a selector may not be empty. -/
theorem min_length_mem (hselected : (operation.selector_limit name).isSome = true)
    (hpage : operation.action.package_profile = none) (schema : Map) :
    ("minLength".toList, of_usize 1) ∈ operation.text_schema name schema := by
  simp only [Operation.text_schema, hpage, hselected, if_true, Option.isSome_none,
    Bool.false_eq_true, if_false]
  exact Map.mem_insert_of_ne _ (Map.mem_insert_self _ _ _) (by decide)

theorem type_mem (kind : ParameterKind) :
    ("type".toList, .String kind.to_string) ∈ operation.kind_schema name kind := by
  have htype := Map.mem_insert_self [] "type".toList (.String kind.to_string)
  unfold Operation.kind_schema
  cases kind with
  | String => exact mem_text_schema htype (by decide)
  | Boolean => exact htype
  | Integer =>
    dsimp only
    split
    · exact Map.mem_insert_of_ne _ (Map.mem_insert_of_ne _ htype (by decide))
        (by decide)
    · exact htype

theorem mem_parameter_schema {f : Str × Value}
    (hf : f ∈ operation.kind_schema name parameter.kind) (hother : f.1 ≠ "enum".toList) :
    f ∈ operation.parameter_schema serde name parameter := by
  unfold Operation.parameter_schema
  by_cases hallowed : parameter.allowed_values ≠ []
  · rw [if_pos hallowed]
    exact Map.mem_insert_of_ne _ hf hother
  · rw [if_neg hallowed]
    exact hf

theorem enum_mem (hallowed : parameter.allowed_values ≠ []) :
    ("enum".toList, .Array (parameter.allowed_values.map
      (Operation.allowed_to_value serde parameter.kind))) ∈
      operation.parameter_schema serde name parameter := by
  unfold Operation.parameter_schema
  rw [if_pos hallowed]
  exact Map.mem_insert_self _ _ _

/-- A value that is accepted is valid under the schema of its parameter. -/
theorem all_hold_of_accepted {names : List Str} (hlimit : operation.text_limit name < 2 ^ 64)
    (hallowed : ∀ s ∈ parameter.allowed_values,
      allowed_value operation.action.is_ubus parameter.kind s = true)
    (hcheck : check_value operation.action.is_ubus parameter value = .ok ())
    (htext : ∀ s, value = .String s → s.length ≤ operation.text_limit name ∧
      ((operation.selector_limit name).isSome = true → s ≠ []) ∧
      (operation.action.package_profile.isSome = true →
        34 ≤ s.length ∧ matches_pattern CURSOR_PATTERN s = true)) :
    AllHold names (operation.parameter_schema serde name parameter) value := by
  obtain ⟨hvalid, hlisted⟩ := check_value_ok.1 hcheck
  have htyped := typed_of_valid_type hvalid
  have htype : AllHold names
      (Map.insert [] "type".toList (.String parameter.kind.to_string)) value := by
    intro k hk
    rw [List.mem_singleton.1 hk, holds_type]
    exact has_type_of_typed htyped
  have hkind : AllHold names (operation.kind_schema name parameter.kind) value := by
    unfold Operation.kind_schema
    cases hk : parameter.kind with
    | String =>
      rw [hk] at htyped htype
      obtain ⟨s, rfl⟩ := htyped
      obtain ⟨hmax, hselected, hpage⟩ := htext s rfl
      exact htype.text hlimit hmax hselected hpage
    | Boolean =>
      rw [hk] at htype
      exact htype
    | Integer =>
      rw [hk] at hvalid htype
      obtain ⟨number, n, rfl, hn, hrange⟩ := valid_type_integer.1 hvalid
      dsimp only
      split
      · rename_i hubus
        exact htype.integer hn.2 (hrange hubus).1 (hrange hubus).2
      · exact htype
  unfold Operation.parameter_schema
  by_cases hsome : parameter.allowed_values ≠ []
  · rw [if_pos hsome]
    exact hkind.insert ((holds_enum_iff serde hallowed htyped).2 (hlisted hsome))
  · rw [if_neg hsome]
    exact hkind

/-- A value that is valid under the schema of its parameter is accepted, when it has no more bytes
than the schema describes, no zero among them, and is no float. -/
theorem accepted_of_all_hold {names : List Str}
    (hallowed : ∀ s ∈ parameter.allowed_values,
      allowed_value operation.action.is_ubus parameter.kind s = true)
    (h : AllHold names (operation.parameter_schema serde name parameter) value)
    (hfloat : ∀ s, value ≠ .Number (.Float s))
    (htext : ∀ s, value = .String s → bounded_string s MAX_VALUE_BYTES = true) :
    check_value operation.action.is_ubus parameter value = .ok () := by
  have htype := h _ (mem_parameter_schema serde (type_mem parameter.kind) (by
    show "type".toList ≠ "enum".toList
    decide))
  rw [holds_type] at htype
  have htyped := typed_of_has_type hfloat htype
  refine check_value_ok.2 ⟨?_, ?_⟩
  · cases hk : parameter.kind with
    | String =>
      rw [hk] at htyped
      obtain ⟨s, rfl⟩ := htyped
      exact htext s rfl
    | Boolean =>
      rw [hk] at htyped
      obtain ⟨b, rfl⟩ := htyped
      rfl
    | Integer =>
      rw [hk] at htyped
      obtain ⟨number, n, rfl, hn⟩ := htyped
      refine valid_type_integer.2 ⟨number, n, rfl, hn, ?_⟩
      intro hubus
      have hschema : operation.kind_schema name parameter.kind = Operation.integer_schema
          (Map.insert [] "type".toList (.String ParameterKind.Integer.to_string)) := by
        rw [hk]
        simp only [Operation.kind_schema, hubus, if_true]
      obtain ⟨low, hmin, hlowest⟩ := number_value_of_integer (n := UBUS_INTEGER_MIN)
        (by decide) (by decide)
      obtain ⟨high, hmax, hhighest⟩ := number_value_of_integer (n := UBUS_INTEGER_MAX)
        (by decide) (by decide)
      have hlow := h ("minimum".toList, of_integer UBUS_INTEGER_MIN)
        (mem_parameter_schema serde (by
          rw [hschema]
          exact Map.mem_insert_of_ne _ (Map.mem_insert_self _ _ _) (by decide))
          (by decide))
      have hhigh := h ("maximum".toList, of_integer UBUS_INTEGER_MAX)
        (mem_parameter_schema serde (by
          rw [hschema]
          exact Map.mem_insert_self _ _ _) (by decide))
      rw [hmin, holds_minimum, hlowest, hn.2, decide_eq_true_eq] at hlow
      rw [hmax, holds_maximum, hhighest, hn.2, decide_eq_true_eq] at hhigh
      exact ⟨by exact_mod_cast hlow, by exact_mod_cast hhigh⟩
  · intro hsome
    exact (holds_enum_iff serde hallowed htyped).1 (h _ (enum_mem serde hsome))

/-- The text of a selector, when it is valid under the schema, is not empty. -/
theorem selected_ne_nil {names : List Str} {s : Str} (hkind : parameter.kind = .String)
    (hselected : (operation.selector_limit name).isSome = true)
    (hpage : operation.action.package_profile = none)
    (h : AllHold names (operation.parameter_schema serde name parameter) (.String s)) : s ≠ [] := by
  have hmem : ("minLength".toList, of_usize 1) ∈
      operation.parameter_schema serde name parameter := by
    apply mem_parameter_schema serde _ (by decide)
    rw [hkind]
    exact min_length_mem hselected hpage _
  obtain ⟨number, heq, hvalue⟩ := number_value_of_usize (n := 1) (by decide)
  have hlength := h _ hmem
  rw [heq, holds_min_length, hvalue, decide_eq_true_eq] at hlength
  rw [← List.length_pos_iff]
  exact_mod_cast hlength

end

/-! ## The input -/

section
variable (serde : SerdeJson) {operation : Operation}

/-- What the schema of an operation says, member by member. -/
theorem valid_input_schema {input : Value} : valid (operation.input_schema serde) input = true ↔
    ∃ values, input = .Object values ∧
      (∀ name ∈ Map.keys values, name ∈ operation.parameters.keys) ∧
      (∀ p ∈ operation.parameters.entries, p.2.required = true →
        (Map.get values p.1).isSome = true) ∧
      ∀ p ∈ operation.parameters.entries, ∀ v, Map.get values p.1 = some v →
        valid (.Object (operation.parameter_schema serde p.1 p.2)) v = true := by
  have hnames : property_names [("additionalProperties".toList, .Bool false),
      ("properties".toList, .Object (operation.parameters.entries.map fun e =>
        (e.1, .Object (operation.parameter_schema serde e.1 e.2)))),
      ("required".toList, .Array (operation.parameters.entries.filterMap fun e =>
        if e.2.required then some (.String e.1) else none)),
      ("type".toList, .String "object".toList)] = operation.parameters.keys := by
    unfold property_names
    rw [packages.PackageObservation.get_cons_ne (by decide),
      packages.PackageObservation.get_cons_self]
    simp [as_object, Map.keys, BTreeMap.keys, Function.comp_def]
  unfold Operation.input_schema members
  rw [valid_object, List.map_cons, List.map_cons, List.map_cons, List.map_cons, List.map_nil,
    hnames]
  simp only [List.forall_mem_cons, List.not_mem_nil, false_imp_iff, implies_true, and_true]
  rw [holds_additional_properties, holds_properties, holds_type, has_type_object]
  constructor
  · intro h
    obtain ⟨hknown, hvalid, hrequired, values, rfl⟩ := h
    rw [holds_required] at hrequired
    rw [valid_members_iff] at hvalid
    refine ⟨values, rfl, ?_, ?_, ?_⟩
    · intro name hname
      obtain ⟨f, hf, rfl⟩ := List.mem_map.1 hname
      have hin := List.all_eq_true.1 hknown f hf
      simpa [valid] using hin
    · intro p hp hneeded
      have hmem : Value.String p.1 ∈ operation.parameters.entries.filterMap fun e =>
          if e.2.required then some (.String e.1) else none :=
        List.mem_filterMap.2 ⟨p, hp, by rw [if_pos hneeded]⟩
      exact List.all_eq_true.1 hrequired _ hmem
    · intro p hp v hv
      exact hvalid _ (List.mem_map_of_mem hp) v hv
  · intro h
    obtain ⟨values, rfl, hknown, hrequired, hvalid⟩ := h
    rw [holds_required, valid_members_iff]
    refine ⟨?_, ?_, ?_, values, rfl⟩
    · rw [List.all_eq_true]
      intro f hf
      simp [hknown f.1 (List.mem_map_of_mem hf)]
    · intro schema hschema v hv
      obtain ⟨p, hp, rfl⟩ := List.mem_map.1 hschema
      exact hvalid p hp v hv
    · rw [List.all_eq_true]
      intro name hname
      obtain ⟨p, hp, hsome⟩ := List.mem_filterMap.1 hname
      by_cases hneeded : p.2.required = true
      · rw [if_pos hneeded] at hsome
        cases hsome
        exact hrequired p hp hneeded
      · rw [if_neg hneeded] at hsome
        cases hsome

/-- An input that is accepted is valid under the schema. -/
theorem valid_of_prepare (hvalid : operation.validate = .ok ()) {input : Value}
    {action : PreparedAction} (h : operation.prepare input = .ok action) :
    valid (operation.input_schema serde) input = true := by
  obtain ⟨values, rfl, hknown, hvalues, hselector, haction⟩ := (Operation.prepare_ok hvalid).1 h
  obtain ⟨hrequired, hchecked⟩ := check_values_ok.1 hvalues
  refine (valid_input_schema serde).2 ⟨values, rfl, hknown, hrequired, ?_⟩
  intro p hp v hv
  have hle := Operation.text_limit_le hvalid p.1
  have hlimit : operation.text_limit p.1 < 2 ^ 64 := hle.trans_lt (by decide)
  refine valid_object.2 (all_hold_of_accepted serde hlimit
    (fun s hs => Operation.allowed_of_validate hvalid hp hs) (hchecked p hp v hv) ?_)
  intro s hs
  rw [hs] at hv
  by_cases hpage : operation.action.package_profile.isSome = true
  · obtain ⟨cursor, hentries, -, -, hmode⟩ := Operation.cursor_of_validate hvalid hpage
    have hname : p.1 = "cursor".toList := by
      rw [hentries, List.mem_singleton] at hp
      rw [hp]
    have hparse : ∃ c, packages.PackageCursor.parse s = .ok c := by
      rw [hname] at hv
      have hcursor : ∃ next, prepare_cursor values = .ok next := by
        cases hkind : operation.action with
        | ApkInstalledPage =>
          rw [hkind] at haction
          obtain ⟨next, hnext, -⟩ := except_bind_ok.1 haction
          exact ⟨next, hnext⟩
        | OpkgStatusPage =>
          rw [hkind] at haction
          obtain ⟨next, hnext, -⟩ := except_bind_ok.1 haction
          exact ⟨next, hnext⟩
        | Ubus object method arguments =>
          rw [hkind] at hpage
          cases hpage
        | Process program args =>
          rw [hkind] at hpage
          cases hpage
      obtain ⟨next, hnext⟩ := hcursor
      unfold prepare_cursor at hnext
      rw [hv] at hnext
      obtain ⟨c, hc, -⟩ := except_bind_ok.1 hnext
      exact ⟨c, hc⟩
    obtain ⟨c, hc⟩ := hparse
    obtain ⟨hmin, hmax, hmatch⟩ := cursor_matches hc
    refine ⟨?_, ?_, fun _ => ⟨hmin, hmatch⟩⟩
    · rw [Operation.text_limit, if_pos hpage]
      exact hmax
    · intro hselected
      rw [Operation.selector_limit, hmode] at hselected
      cases hselected
  · refine ⟨?_, ?_, fun h => absurd h hpage⟩
    · rw [Operation.text_limit, if_neg hpage]
      cases hselected : operation.selector_limit p.1 with
      | none =>
        obtain ⟨hkind, -⟩ := check_value_ok.1 (hchecked p hp _ hv)
        have hbounded : bounded_string s MAX_VALUE_BYTES = true := by
          cases hk : p.2.kind with
          | String => simpa [valid_type, hk, as_str] using hkind
          | Boolean => simp [valid_type, hk, as_bool] at hkind
          | Integer =>
            rw [hk] at hkind
            obtain ⟨number, n, heq, -⟩ := valid_type_integer.1 hkind
            cases heq
        exact (length_le_len s).trans (bounded_string_iff.1 hbounded).1
      | some max =>
        obtain ⟨t, ht, -, hbounded⟩ := Operation.check_selector_ok.1 hselector _ _ hselected
        rw [hv] at ht
        cases ht
        exact (length_le_len s).trans (bounded_string_iff.1 hbounded).1
    · intro hselected
      obtain ⟨max, hmax⟩ := Option.isSome_iff_exists.1 hselected
      obtain ⟨t, ht, hne, -⟩ := Operation.check_selector_ok.1 hselector _ _ hmax
      rw [hv] at ht
      cases ht
      exact hne

/-- What no schema says: the texts have no zero in them and no more bytes than the schema
describes, and the numbers are integers that 64 bits hold. -/
def Plain (operation : Operation) (input : Value) : Prop :=
  ∀ values, input = .Object values → ∀ f ∈ values, (∀ s, f.2 ≠ .Number (.Float s)) ∧
    ∀ s, f.2 = .String s → bounded_string s (operation.text_limit f.1) = true

/-- The arguments of a program, when every parameter that they name was given. -/
theorem prepare_args_ok {values : Map} {args : List Str}
    (h : ∀ arg ∈ args, ∀ name, parameter_reference arg = some name →
      ∃ v s, values.get name = some v ∧ scalar_text v = some s) :
    ∃ prepared, prepare_args values args = .ok prepared := by
  induction args with
  | nil => exact ⟨[], rfl⟩
  | cons arg args ih =>
    rw [List.forall_mem_cons] at h
    obtain ⟨prepared, hprepared⟩ := ih h.2
    unfold prepare_args
    cases hreference : parameter_reference arg with
    | none => exact ⟨arg :: prepared, by simp [hprepared, except_bind_ok]⟩
    | some name =>
      obtain ⟨v, s, hv, hs⟩ := h.1 name hreference
      exact ⟨s :: prepared, by simp [hv, hs, hprepared, except_bind_ok]⟩

/-- An input that is valid under the schema is accepted. -/
theorem prepare_of_valid (hvalid : operation.validate = .ok ())
    (hpage : operation.action.package_profile = none) {input : Value}
    (h : valid (operation.input_schema serde) input = true) (hplain : Plain operation input) :
    ∃ action, operation.prepare input = .ok action := by
  obtain ⟨values, rfl, hknown, hrequired, hmembers⟩ := (valid_input_schema serde).1 h
  have hplain := hplain values rfl
  have hchecked : ∀ p ∈ operation.parameters.entries, ∀ v, Map.get values p.1 = some v →
      check_value operation.action.is_ubus p.2 v = .ok () := by
    intro p hp v hv
    obtain ⟨hfloat, htext⟩ := hplain _ (Map.get_mem hv)
    refine accepted_of_all_hold serde (fun s hs => Operation.allowed_of_validate hvalid hp hs)
      (valid_object.1 (hmembers p hp v hv)) hfloat ?_
    intro s hs
    exact bounded_string_mono (Operation.text_limit_le hvalid p.1) (htext s hs)
  have hvalues := check_values_ok.2 ⟨hrequired, hchecked⟩
  have hselector : check_selector values operation.output_mode = .ok () := by
    refine Operation.check_selector_ok.2 ?_
    intro name max hmax
    obtain ⟨parameter, hp, hneeded, hkind⟩ := Operation.selected_of_validate hvalid hmax
    obtain ⟨v, hv⟩ := Option.isSome_iff_exists.1 (hrequired _ hp hneeded)
    have htyped := typed_of_valid_type (check_value_ok.1 (hchecked _ hp v hv)).1
    rw [hkind] at htyped
    obtain ⟨s, rfl⟩ := htyped
    refine ⟨s, hv, ?_, ?_⟩
    · exact selected_ne_nil serde hkind (Option.isSome_iff_exists.2 ⟨max, hmax⟩) hpage
        (valid_object.1 (hmembers _ hp _ hv))
    · have hbounded := (hplain _ (Map.get_mem hv)).2 s rfl
      rw [Operation.text_limit, hpage, hmax] at hbounded
      exact hbounded
  have haction : ∃ action, prepare_action values operation.action = .ok action := by
    cases hkind : operation.action with
    | ApkInstalledPage =>
      rw [hkind] at hpage
      cases hpage
    | OpkgStatusPage =>
      rw [hkind] at hpage
      cases hpage
    | Ubus object method arguments => exact ⟨_, rfl⟩
    | Process program args =>
      have hargs : ∀ arg ∈ args, ∀ name, parameter_reference arg = some name →
          ∃ v s, Map.get values name = some v ∧ scalar_text v = some s := by
        intro arg harg name hname
        obtain ⟨-, -, ⟨selected, used, -, hused, -⟩, -⟩ := Operation.validate_ok.1 hvalid
        unfold Operation.validate_action at hused
        simp only [hkind] at hused
        split at hused
        · cases hused
        · obtain ⟨parameter, hp, hneeded⟩ :=
            Operation.reference_of_validate hused arg harg name hname
          obtain ⟨v, hv⟩ := Option.isSome_iff_exists.1 (hrequired _ hp hneeded)
          have htyped := typed_of_valid_type (check_value_ok.1 (hchecked _ hp v hv)).1
          obtain ⟨s, hs⟩ := scalar_text_of_typed htyped
          exact ⟨v, s, hv, hs⟩
      obtain ⟨prepared, hprepared⟩ := prepare_args_ok hargs
      exact ⟨.Process program prepared, by simp [prepare_action, hprepared, except_bind_ok]⟩
  obtain ⟨action, haction⟩ := haction
  exact ⟨action, (Operation.prepare_ok hvalid).2 ⟨values, rfl, hknown, hvalues, hselector, haction⟩⟩

/-- The schema that an operation advertises is the check that it makes: what is accepted is valid,
and, but for pages of packages, what is valid and plain is accepted. -/
theorem the_schema_says_what_is_accepted (hvalid : operation.validate = .ok ()) :
    (∀ input action, operation.prepare input = .ok action →
      valid (operation.input_schema serde) input = true) ∧
    (operation.action.package_profile = none → ∀ input,
      valid (operation.input_schema serde) input = true → Plain operation input →
        ∃ action, operation.prepare input = .ok action) :=
  ⟨fun _ _ h => valid_of_prepare serde hvalid h,
    fun hpage _ h hplain => prepare_of_valid serde hvalid hpage h hplain⟩

end

/-- A reader that takes the integers, in the text that `to_string` gives them, and nothing else. -/
def read_integer (s : Str) : Option Value :=
  (parse_signed s).bind fun n =>
    if -2 ^ 63 ≤ n ∧ n < 2 ^ 64 ∧ signed_decimal n = s then some (of_integer n) else none

theorem read_integer_signed_decimal (n : Int) (hlow : -2 ^ 63 ≤ n) (hhigh : n < 2 ^ 64) :
    read_integer (signed_decimal n) = some (of_integer n) := by
  have hrange : -2 ^ 63 ≤ n ∧ n < 2 ^ 64 ∧ signed_decimal n = signed_decimal n :=
    ⟨hlow, hhigh, rfl⟩
  unfold read_integer
  rw [parse_signed_signed_decimal, Option.bind_some, if_pos hrange]

def read_integers : SerdeJson := ⟨read_integer, read_integer_signed_decimal⟩

/-- A radio and one of three channels, which the client may leave out. -/
def wireless_scan : Operation where
  name := "wireless_scan".toList
  description := "The networks that a radio hears on a channel.".toList
  requirements := [⟨.Wireless, .Read⟩]
  parameters := ⟨[("channel".toList, ⟨.Integer, false, ["1".toList, "6".toList, "11".toList]⟩),
    ("device".toList, ⟨.String, true, []⟩)], by decide⟩
  action := .Ubus "iwinfo".toList "scan".toList
    ⟨[("channel".toList, .String "\x7bchannel\x7d".toList),
      ("device".toList, .String "\x7bdevice\x7d".toList)], by decide⟩
  capability := .UbusMethod "iwinfo".toList "scan".toList
    ⟨[("channel".toList, .Integer), ("device".toList, .String)], by decide⟩
    "iwinfo_scan.v1".toList
  output_fields := ["/results".toList]
  output_mode := .Structured

theorem the_schema_of_a_scan_says_what_is_accepted :
    (∀ input action, wireless_scan.prepare input = .ok action →
      valid (wireless_scan.input_schema read_integers) input = true) ∧
    ∀ input, valid (wireless_scan.input_schema read_integers) input = true →
      Plain wireless_scan input → ∃ action, wireless_scan.prepare input = .ok action := by
  have hok : wireless_scan.validate.toOption.isSome = true := by decide +kernel
  cases hvalid : wireless_scan.validate with
  | error e =>
    rw [hvalid] at hok
    cases hok
  | ok _ =>
    obtain ⟨hsound, hcomplete⟩ := the_schema_says_what_is_accepted read_integers hvalid
    exact ⟨hsound, hcomplete rfl⟩

end openwrt_mcp_core
