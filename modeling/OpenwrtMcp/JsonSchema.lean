-- JSON Schema: what a schema, itself a JSON value, says of another value. Texts are measured in
-- code points and numbers are compared by their value.
import OpenwrtMcp.Json
import OpenwrtMcp.Patterns

open json text

namespace json_schema

/-! ## Numbers -/

def signed (s : Str) : Int :=
  match s with
  | '-' :: digits => -parse_digits digits
  | '+' :: digits => parse_digits digits
  | digits => parse_digits digits

/-- The number that a text such as `-1.5e-7` spells. -/
def float_value (s : Str) : ℚ :=
  let mantissa := s.takeWhile fun c => c ≠ 'e' && c ≠ 'E'
  let exponent := (s.dropWhile fun c => c ≠ 'e' && c ≠ 'E').tail
  let fraction := (mantissa.dropWhile (· ≠ '.')).tail
  signed (mantissa.filter (· ≠ '.')) * 10 ^ (signed exponent - fraction.length)

def number_value : Number → ℚ
  | .PosInt n => n.toNat
  | .NegInt n => n.toInt
  | .Float s => float_value s

def of_integer (n : Int) : Value :=
  if 0 ≤ n then .Number (.PosInt (UInt64.ofNat n.toNat)) else .Number (.NegInt (Int64.ofInt n))

/-! ## The keywords -/

mutual

/-- The members of an object stand in the order of their names, so equal objects agree from
the first member on. -/
def equal : Value → Value → Bool
  | .Null, .Null => true
  | .Bool a, .Bool b => a = b
  | .Number a, .Number b => number_value a = number_value b
  | .String a, .String b => a = b
  | .Array xs, .Array ys => equal_items xs ys
  | .Object fs, .Object gs => equal_fields fs gs
  | _, _ => false

def equal_items : List Value → List Value → Bool
  | [], [] => true
  | x :: xs, y :: ys => equal x y && equal_items xs ys
  | _, _ => false

def equal_fields : List (Str × Value) → List (Str × Value) → Bool
  | [], [] => true
  | (key, x) :: fs, (key', y) :: gs => key = key' && equal x y && equal_fields fs gs
  | _, _ => false

end

/-- A number such as `1.0` is an integer too. -/
def has_type (type : Str) (value : Value) : Bool :=
  match value with
  | .Null => type = "null".toList
  | .Bool _ => type = "boolean".toList
  | .Number n =>
    type = "number".toList || (type = "integer".toList && (number_value n).den = 1)
  | .String _ => type = "string".toList
  | .Array _ => type = "array".toList
  | .Object _ => type = "object".toList

theorem has_type_object {value : Value} :
    has_type "object".toList value = true ↔ ∃ fields, value = .Object fields := by
  cases value with
  | Object fields => simp [has_type]
  | Number n =>
    have hnumber : ("object".toList = "number".toList) = False := by decide
    have hinteger : ("object".toList = "integer".toList) = False := by decide
    simp only [has_type, hnumber, hinteger]
    simp
  | _ =>
    simp only [has_type, decide_eq_true_eq, reduceCtorEq, exists_false, iff_false]
    decide

/-- A number that a keyword gives, against one that the value has. -/
def bounded (holds : ℚ → ℚ → Bool) (argument : Value) (measure : Option ℚ) : Bool :=
  match argument with
  | .Number limit => measure.all (holds (number_value limit))
  | _ => false

def number_of : Value → Option ℚ
  | .Number n => some (number_value n)
  | _ => none

/-- The length of a text, in code points. -/
def length_of : Value → Option ℚ
  | .String s => some s.length
  | _ => none

def required (argument value : Value) : Bool :=
  match argument, value with
  | .Array names, .Object fields =>
    names.all fun name => (as_str name).any fun name => (Map.get fields name).isSome
  | .Array names, _ => names.all fun name => (as_str name).isSome
  | _, _ => false

/-- The keywords that have no schema inside. -/
inductive Assertion
  | Type
  | Enum
  | Minimum
  | Maximum
  | MinLength
  | MaxLength
  | Pattern
  | Required
  deriving DecidableEq

inductive Keyword
  | Asserts (assertion : Assertion)
  | Properties
  | AdditionalProperties
  | Ignored
  deriving DecidableEq

def KEYWORDS : List (Str × Keyword) :=
  [("type".toList, .Asserts .Type), ("enum".toList, .Asserts .Enum),
    ("minimum".toList, .Asserts .Minimum), ("maximum".toList, .Asserts .Maximum),
    ("minLength".toList, .Asserts .MinLength), ("maxLength".toList, .Asserts .MaxLength),
    ("pattern".toList, .Asserts .Pattern), ("required".toList, .Asserts .Required),
    ("properties".toList, .Properties), ("additionalProperties".toList, .AdditionalProperties)]

/-- Any other keyword, such as `description`, is taken as an annotation. -/
def keyword_of (name : Str) : Keyword := (KEYWORDS.lookup name).getD .Ignored

def Assertion.holds (argument value : Value) : Assertion → Bool
  | .Type =>
    match argument with
    | .String type => has_type type value
    | .Array types => types.any fun type => (as_str type).any fun type => has_type type value
    | _ => false
  | .Enum => (as_array argument).any fun allowed => allowed.any (equal · value)
  | .Minimum => bounded (fun low n => low ≤ n) argument (number_of value)
  | .Maximum => bounded (fun high n => n ≤ high) argument (number_of value)
  | .MinLength => bounded (fun low n => low ≤ n) argument (length_of value)
  | .MaxLength => bounded (fun high n => n ≤ high) argument (length_of value)
  | .Pattern =>
    (as_str argument).any fun pattern => (as_str value).all (patterns.matches_pattern pattern)
  | .Required => required argument value

/-- The names that `properties` has a schema for. -/
def property_names (keywords : Map) : List Str :=
  (((keywords.get "properties".toList).bind as_object).getD []).keys

mutual

/-- The value is valid under the schema. -/
def valid : Value → Value → Bool
  | .Bool accepted, _ => accepted
  | .Object keywords, value => valid_keywords (property_names keywords) keywords value
  | _, _ => false

def valid_keywords (names : List Str) : List (Str × Value) → Value → Bool
  | [], _ => true
  | (keyword, argument) :: rest, value =>
    (match keyword_of keyword with
      | .Asserts assertion => assertion.holds argument value
      | .Properties => valid_properties argument value
      | .AdditionalProperties =>
        ((as_object value).getD []).all fun f => f.1 ∈ names || valid argument f.2
      | .Ignored => true) && valid_keywords names rest value

def valid_properties : Value → Value → Bool
  | .Object schemas, value => valid_members schemas value
  | _, _ => false

def valid_members : List (Str × Value) → Value → Bool
  | [], _ => true
  | (name, schema) :: rest, value =>
    (((as_object value).bind fun fields => Map.get fields name).all fun v => valid schema v) &&
      valid_members rest value

end

/-! ## Keyword by keyword -/

/-- What one keyword of a schema says. -/
def keyword_holds (names : List Str) (keyword : Str) (argument value : Value) : Bool :=
  match keyword_of keyword with
  | .Asserts assertion => assertion.holds argument value
  | .Properties => valid_properties argument value
  | .AdditionalProperties =>
    ((as_object value).getD []).all fun f => f.1 ∈ names || valid argument f.2
  | .Ignored => true

theorem valid_keywords_iff {names : List Str} {keywords : Map} {value : Value} :
    valid_keywords names keywords value = true ↔
      ∀ k ∈ keywords, keyword_holds names k.1 k.2 value = true := by
  induction keywords with
  | nil => simp [valid_keywords]
  | cons k keywords ih =>
    unfold valid_keywords
    rw [Bool.and_eq_true, ih, List.forall_mem_cons]
    rfl

theorem valid_object {keywords : Map} {value : Value} : valid (.Object keywords) value = true ↔
    ∀ k ∈ keywords, keyword_holds (property_names keywords) k.1 k.2 value = true := by
  unfold valid
  exact valid_keywords_iff

theorem valid_members_iff {schemas : Map} {fields : Map} :
    valid_members schemas (.Object fields) = true ↔
      ∀ s ∈ schemas, ∀ v, Map.get fields s.1 = some v → valid s.2 v = true := by
  induction schemas with
  | nil => simp [valid_members]
  | cons s schemas ih =>
    unfold valid_members
    rw [Bool.and_eq_true, ih, List.forall_mem_cons]
    simp [as_object, Option.all_eq_true]

section
variable (names : List Str)

theorem holds_properties (schemas : Map) (value : Value) :
    keyword_holds names "properties".toList (.Object schemas) value =
      valid_members schemas value := by
  rw [keyword_holds, show keyword_of "properties".toList = .Properties by decide]
  simp only [valid_properties]

theorem holds_additional_properties (argument value : Value) :
    keyword_holds names "additionalProperties".toList argument value =
      ((as_object value).getD []).all fun f => f.1 ∈ names || valid argument f.2 := by
  rw [keyword_holds, show keyword_of "additionalProperties".toList = .AdditionalProperties by
    decide]

theorem holds_type (type : Str) (value : Value) :
    keyword_holds names "type".toList (.String type) value = has_type type value := by
  rw [keyword_holds, show keyword_of "type".toList = .Asserts .Type by decide]
  rfl

theorem holds_enum (allowed : List Value) (value : Value) :
    keyword_holds names "enum".toList (.Array allowed) value = allowed.any (equal · value) := by
  rw [keyword_holds, show keyword_of "enum".toList = .Asserts .Enum by decide]
  rfl

theorem holds_minimum (low n : Number) :
    keyword_holds names "minimum".toList (.Number low) (.Number n) =
      decide (number_value low ≤ number_value n) := by
  rw [keyword_holds, show keyword_of "minimum".toList = .Asserts .Minimum by decide]
  rfl

theorem holds_maximum (high n : Number) :
    keyword_holds names "maximum".toList (.Number high) (.Number n) =
      decide (number_value n ≤ number_value high) := by
  rw [keyword_holds, show keyword_of "maximum".toList = .Asserts .Maximum by decide]
  rfl

theorem holds_min_length (low : Number) (s : Str) :
    keyword_holds names "minLength".toList (.Number low) (.String s) =
      decide (number_value low ≤ s.length) := by
  rw [keyword_holds, show keyword_of "minLength".toList = .Asserts .MinLength by decide]
  rfl

theorem holds_max_length (high : Number) (s : Str) :
    keyword_holds names "maxLength".toList (.Number high) (.String s) =
      decide ((s.length : ℚ) ≤ number_value high) := by
  rw [keyword_holds, show keyword_of "maxLength".toList = .Asserts .MaxLength by decide]
  rfl

theorem holds_pattern (pattern s : Str) :
    keyword_holds names "pattern".toList (.String pattern) (.String s) =
      patterns.matches_pattern pattern s := by
  rw [keyword_holds, show keyword_of "pattern".toList = .Asserts .Pattern by decide]
  rfl

theorem holds_required (required : List Value) (fields : Map) :
    keyword_holds names "required".toList (.Array required) (.Object fields) =
      required.all fun name => (as_str name).any fun name => (Map.get fields name).isSome := by
  rw [keyword_holds, show keyword_of "required".toList = .Asserts .Required by decide]
  rfl

theorem holds_ignored {keyword : Str} (h : keyword_of keyword = .Ignored)
    (argument value : Value) : keyword_holds names keyword argument value = true := by
  rw [keyword_holds, h]

end

/-! ## Integers -/

theorem number_value_of_integer {n : Int} (hlow : -2 ^ 63 ≤ n) (hhigh : n < 2 ^ 64) :
    ∃ number, of_integer n = .Number number ∧ number_value number = n := by
  unfold of_integer
  by_cases hn : 0 ≤ n
  · rw [if_pos hn]
    refine ⟨_, rfl, ?_⟩
    have hnat : (UInt64.ofNat n.toNat).toNat = n.toNat := by
      rw [UInt64.toNat_ofNat']
      omega
    simp only [number_value, hnat]
    exact_mod_cast Int.toNat_of_nonneg hn
  · rw [if_neg hn]
    refine ⟨_, rfl, ?_⟩
    have hint : (Int64.ofInt n).toInt = n := Int64.toInt_ofInt_of_le hlow (by omega)
    simp only [number_value, hint]

/-- A number that is no float is an integer of 64 bits, and its text is the one of it. -/
theorem number_integer {number : Number} (h : ∀ s, number ≠ .Float s) :
    ∃ n : Int, -2 ^ 63 ≤ n ∧ n < 2 ^ 64 ∧ number_value number = n ∧
      number.to_string = signed_decimal n := by
  cases number with
  | PosInt n =>
    refine ⟨n.toNat, by omega, by exact_mod_cast n.toNat_lt, by simp [number_value], ?_⟩
    rw [signed_decimal, if_pos (Int.natCast_nonneg _), Int.toNat_natCast]
    rfl
  | NegInt n =>
    have hlow := n.le_toInt
    have hhigh := n.toInt_lt
    exact ⟨n.toInt, hlow, by omega, rfl, rfl⟩
  | Float s => exact absurd rfl (h s)

end json_schema
