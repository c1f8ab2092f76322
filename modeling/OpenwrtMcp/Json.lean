-- JSON values as `serde_json` keeps them (the members of an object sorted by key), and their
-- compact text.
import OpenwrtMcp.Text

open text

namespace json

/-- A number is an unsigned or a negative integer of 64 bits, or a float, which is known here
by its text. -/
inductive Number
  | PosInt (n : UInt64)
  | NegInt (n : Int64)
  | Float (text : Str)
  deriving DecidableEq

inductive Value
  | Null
  | Bool (value : Bool)
  | Number (value : Number)
  | String (value : Str)
  | Array (items : List Value)
  | Object (fields : List (Str × Value))

abbrev Map := List (Str × Value)

/-! ## Access -/

def as_bool : Value → Option Bool
  | .Bool value => some value
  | _ => none

def as_str : Value → Option Str
  | .String value => some value
  | _ => none

def as_array : Value → Option (List Value)
  | .Array items => some items
  | _ => none

def as_object : Value → Option Map
  | .Object fields => some fields
  | _ => none

theorem as_array_eq_some {v : Value} {items : List Value} :
    as_array v = some items ↔ v = .Array items := by
  cases v <;> simp [as_array]

theorem as_object_eq_some {v : Value} {fields : Map} :
    as_object v = some fields ↔ v = .Object fields := by
  cases v <;> simp [as_object]

theorem as_str_eq_some {v : Value} {s : Str} : as_str v = some s ↔ v = .String s := by
  cases v <;> simp [as_str]

def is_object : Value → Bool
  | .Object _ => true
  | _ => false

def as_u64 : Value → Option UInt64
  | .Number (.PosInt n) => some n
  | _ => none

def as_i64 : Value → Option Int64
  | .Number (.PosInt n) => if n.toNat < 2 ^ 63 then some n.toInt64 else none
  | .Number (.NegInt n) => some n
  | _ => none

/-- `Value::from(n)` for an `i64`. -/
def from_i64 (n : Int64) : Value :=
  if 0 ≤ n then .Number (.PosInt n.toUInt64) else .Number (.NegInt n)

theorem from_i64_injective : Function.Injective from_i64 := by
  intro n m h
  unfold from_i64 at h
  split at h <;> split at h
  · have hunsigned : n.toUInt64 = m.toUInt64 := by simpa using h
    rw [← n.toInt64_toUInt64, hunsigned, m.toInt64_toUInt64]
  · simp at h
  · simp at h
  · simpa using h

namespace Map

/-- `fields.get(key)` -/
def get (m : Map) (key : Str) : Option Value := m.lookup key

/-- `fields.insert(key, value)`: the keys stay sorted. -/
def insert : Map → Str → Value → Map
  | [], key, value => [(key, value)]
  | (k, v) :: rest, key, value =>
    if key < k then (key, value) :: (k, v) :: rest
    else if key = k then (key, value) :: rest
    else (k, v) :: insert rest key value

def keys (m : Map) : List Str := m.map Prod.fst

theorem get_insert_self (m : Map) (key : Str) (value : Value) :
    (m.insert key value).get key = some value := by
  unfold get
  induction m with
  | nil => simp [insert]
  | cons f m ih =>
    unfold insert
    split
    · simp
    · split
      · simp
      · rename_i hne
        rw [List.lookup_cons, beq_false_of_ne hne]
        exact ih

theorem get_insert_ne (m : Map) {key other : Str} (value : Value) (h : other ≠ key) :
    (m.insert key value).get other = m.get other := by
  unfold get
  induction m with
  | nil => simp [insert, h]
  | cons f m ih =>
    unfold insert
    split
    · rw [List.lookup_cons, beq_false_of_ne h]
    · split
      · rename_i heq
        rw [List.lookup_cons, List.lookup_cons, ← heq, beq_false_of_ne h]
      · rw [List.lookup_cons, List.lookup_cons, ih]

theorem insert_perm {m : Map} {key : Str} (value : Value) (h : key ∉ m.keys) :
    (m.insert key value).Perm ((key, value) :: m) := by
  induction m with
  | nil => exact List.Perm.refl _
  | cons f m ih =>
    simp only [keys, List.map_cons, List.mem_cons, not_or] at h
    unfold insert
    split
    · exact List.Perm.refl _
    · rw [if_neg h.1]
      exact ((ih h.2).cons _).trans (List.Perm.swap _ _ _)

theorem get_eq_none_iff {m : Map} {key : Str} : m.get key = none ↔ key ∉ m.keys := by
  unfold get keys
  rw [List.lookup_eq_none_iff]
  constructor
  · intro h hmem
    obtain ⟨f, hf, rfl⟩ := List.mem_map.1 hmem
    simpa using h f hf
  · intro h f hf
    have hne : key ≠ f.1 := fun he => h (List.mem_map.2 ⟨f, hf, he.symm⟩)
    simpa using hne

theorem get_mem {m : Map} {key : Str} {value : Value} (h : m.get key = some value) :
    (key, value) ∈ m := by
  unfold get at h
  obtain ⟨l, r, hm, -⟩ := List.lookup_eq_some_iff.1 h
  simp [hm]

theorem mem_insert {m : Map} {key : Str} {value : Value} {f : Str × Value}
    (h : f ∈ m.insert key value) : f = (key, value) ∨ f ∈ m := by
  induction m with
  | nil => exact .inl (List.mem_singleton.1 h)
  | cons e m ih =>
    unfold insert at h
    by_cases hlt : key < e.1
    · rw [if_pos hlt] at h
      exact List.mem_cons.1 h
    · rw [if_neg hlt] at h
      by_cases heq : key = e.1
      · rw [if_pos heq] at h
        exact (List.mem_cons.1 h).imp id (List.mem_cons_of_mem e)
      · rw [if_neg heq] at h
        rcases List.mem_cons.1 h with rfl | h
        · exact .inr List.mem_cons_self
        · exact (ih h).imp id (List.mem_cons_of_mem e)

theorem mem_insert_self (m : Map) (key : Str) (value : Value) : (key, value) ∈ m.insert key value :=
  get_mem (get_insert_self m key value)

/-- A member under another key stays. -/
theorem mem_insert_of_ne {m : Map} {key : Str} (value : Value) {f : Str × Value} (h : f ∈ m)
    (hne : f.1 ≠ key) : f ∈ m.insert key value := by
  induction m with
  | nil => cases h
  | cons e m ih =>
    unfold insert
    by_cases hlt : key < e.1
    · rw [if_pos hlt]
      exact List.mem_cons_of_mem _ h
    · rw [if_neg hlt]
      by_cases heq : key = e.1
      · rw [if_pos heq]
        rcases List.mem_cons.1 h with rfl | h
        · exact absurd heq.symm hne
        · exact List.mem_cons_of_mem _ h
      · rw [if_neg heq]
        rcases List.mem_cons.1 h with rfl | h
        · exact List.mem_cons_self
        · exact List.mem_cons_of_mem _ (ih h)

end Map

/-! ## Documents -/

mutual

/-- The keys of every object stand in order, as in a `BTreeMap`. -/
def Sorted : Value → Prop
  | .Array items => sorted_items items
  | .Object fields => (Map.keys fields).Pairwise (· < ·) ∧ sorted_fields fields
  | _ => True

def sorted_items : List Value → Prop
  | [] => True
  | v :: rest => Sorted v ∧ sorted_items rest

def sorted_fields : List (Str × Value) → Prop
  | [] => True
  | (_, v) :: rest => Sorted v ∧ sorted_fields rest

end

/-- A value that a program can hold. -/
abbrev Document := { v : Value // Sorted v }

theorem sorted_items_iff {items : List Value} : sorted_items items ↔ ∀ v ∈ items, Sorted v := by
  induction items with
  | nil => simp [sorted_items]
  | cons v items ih => simp [sorted_items, ih]

theorem sorted_fields_iff {fields : Map} : sorted_fields fields ↔ ∀ f ∈ fields, Sorted f.2 := by
  induction fields with
  | nil => simp [sorted_fields]
  | cons f fields ih => simp [sorted_fields, ih]

theorem Sorted.get {fields : Map} (h : Sorted (.Object fields)) {key : Str} {v : Value}
    (hget : fields.get key = some v) : Sorted v := by
  rw [Sorted] at h
  exact sorted_fields_iff.1 h.2 _ (Map.get_mem hget)

theorem Sorted.item {items : List Value} (h : Sorted (.Array items)) {i : Nat} {v : Value}
    (hget : items[i]? = some v) : Sorted v := by
  rw [Sorted] at h
  exact sorted_items_iff.1 h _ (List.mem_of_getElem? hget)

theorem Sorted.keys_nodup {fields : Map} (h : Sorted (.Object fields)) : fields.keys.Nodup := by
  rw [Sorted] at h
  exact h.1.imp fun hlt => ne_of_lt hlt

/-! ## The compact text -/

/-- `n.to_string()` for an unsigned number. -/
def decimal (n : Nat) : Str := Nat.toDigits 10 n

theorem parse_decimal (n : Nat) : parse_digits (decimal n) = n := Nat.ofDigitChars_ten_toDigits

theorem decimal_injective : Function.Injective decimal :=
  Function.LeftInverse.injective parse_decimal

/-- `n.to_string()` for a signed number. -/
def signed_decimal (n : Int) : Str := if 0 ≤ n then decimal n.toNat else '-' :: decimal n.natAbs

def Number.to_string : Number → Str
  | .PosInt n => decimal n.toNat
  | .NegInt n => signed_decimal n.toInt
  | .Float text => text

/-- A hexadecimal digit, in lower case. -/
def hex_digit (n : Nat) : Char := if n < 10 then Char.ofNat (48 + n) else Char.ofNat (87 + n)

/-- A character inside of a string. -/
def encode_char (c : Char) : Str :=
  if c = '"' then ['\\', '"']
  else if c = '\\' then ['\\', '\\']
  else if c.toNat = 8 then ['\\', 'b']
  else if c.toNat = 9 then ['\\', 't']
  else if c.toNat = 10 then ['\\', 'n']
  else if c.toNat = 12 then ['\\', 'f']
  else if c.toNat = 13 then ['\\', 'r']
  else if c.toNat < 32 then
    ['\\', 'u', '0', '0', hex_digit (c.toNat / 16), hex_digit (c.toNat % 16)]
  else [c]

def encode_text (s : Str) : Str := '"' :: s.flatMap encode_char ++ ['"']

/-- The elements of an array or an object, with a comma between two. -/
def commas (parts : List Str) : Str := [','].intercalate parts

mutual

def encode : Value → Str
  | .Null => "null".toList
  | .Bool value => if value then "true".toList else "false".toList
  | .Number value => value.to_string
  | .String value => encode_text value
  | .Array items => '[' :: commas (encode_items items) ++ [']']
  | .Object fields => '{' :: commas (encode_fields fields) ++ ['}']

def encode_items : List Value → List Str
  | [] => []
  | v :: rest => encode v :: encode_items rest

def encode_fields : List (Str × Value) → List Str
  | [] => []
  | (key, v) :: rest => (encode_text key ++ ':' :: encode v) :: encode_fields rest

end

/-- The length of the compact text, in bytes. -/
def size (v : Value) : Nat := len (encode v)

example : encode (.Object [("a".toList, .Array [.Null, .Bool true])]) =
    "\x7b\"a\":[null,true]\x7d".toList := by rfl

/-! ## The size -/

/-- What a byte of a string takes in the text. -/
def byte_cost (b : UInt8) : Nat :=
  if b ∈ [34, 92, 8, 9, 10, 12, 13] then 2 else if b < 32 then 6 else 1

/-- The size of a string, from its bytes. -/
def text_cost (s : Str) : Nat := 2 + ((bytes s).map byte_cost).sum

theorem len_encode_char (c : Char) : len (encode_char c) = ((bytes [c]).map byte_cost).sum := by
  rcases Nat.lt_or_ge c.toNat 128 with hlow | hhigh
  · have hall : ∀ n : Fin 128, len (encode_char (Char.ofNat n.1)) =
        ((bytes [Char.ofNat n.1]).map byte_cost).sum := by decide
    simpa using hall ⟨c.toNat, hlow⟩
  · have hsame : encode_char c = [c] := by
      have hquote : c ≠ '"' := by
        rintro rfl
        exact absurd hhigh (by decide)
      have hslash : c ≠ '\\' := by
        rintro rfl
        exact absurd hhigh (by decide)
      unfold encode_char
      rw [if_neg hquote, if_neg hslash, if_neg (by omega), if_neg (by omega), if_neg (by omega),
        if_neg (by omega), if_neg (by omega), if_neg (by omega)]
    have hone : ∀ b ∈ bytes [c], byte_cost b = 1 := by
      intro b hb
      have hge := bytes_high hhigh b hb
      unfold byte_cost
      have hlow : ¬ b < 32 := by
        intro hlt
        have : b.toNat < 32 := hlt
        omega
      have hplain : b ∉ [34, 92, 8, 9, 10, 12, 13] := by
        intro hmem
        have hascii : ∀ x ∈ [34, 92, 8, 9, 10, 12, 13], UInt8.toNat x < 128 := by decide +kernel
        have := hascii b hmem
        omega
      rw [if_neg hplain, if_neg hlow]
    rw [hsame, List.map_congr_left hone, List.map_const', List.sum_replicate]
    simp [len]

theorem len_encode_text (s : Str) : len (encode_text s) = text_cost s := by
  have hbody : len (s.flatMap encode_char) = ((bytes s).map byte_cost).sum := by
    induction s with
    | nil => rfl
    | cons c s ih =>
      rw [List.flatMap_cons, len_append, ih, len_encode_char, bytes_cons c s, List.map_append,
        List.sum_append]
  have hquote : len ['"'] = 1 := by decide
  unfold encode_text text_cost
  rw [← List.singleton_append, len_append, len_append, hbody, hquote]
  omega

theorem encode_items_eq (items : List Value) : encode_items items = items.map encode := by
  induction items with
  | nil => rfl
  | cons v items ih =>
    unfold encode_items
    rw [ih]
    rfl

theorem encode_fields_eq (fields : Map) : encode_fields fields =
    fields.map fun f => encode_text f.1 ++ ':' :: encode f.2 := by
  induction fields with
  | nil => rfl
  | cons f fields ih =>
    unfold encode_fields
    rw [ih]
    rfl

theorem len_commas (parts : List Str) :
    len (commas parts) = (parts.map len).sum + (parts.length - 1) := by
  unfold commas
  induction parts with
  | nil => rfl
  | cons a parts ih =>
    cases parts with
    | nil => simp [List.intercalate]
    | cons b parts =>
      have hcons : [','].intercalate (a :: b :: parts) =
        a ++ ([','] ++ [','].intercalate (b :: parts)) := by
        simp [List.intercalate, List.intersperse]
      have hcomma : len [','] = 1 := by decide
      rw [hcons, len_append, len_append, ih, hcomma]
      simp only [List.map_cons, List.sum_cons, List.length_cons]
      omega

theorem size_array (items : List Value) :
    size (.Array items) = 2 + (items.map size).sum + (items.length - 1) := by
  have hopen : len ['['] = 1 := by decide
  have hclose : len [']'] = 1 := by decide
  have hencode : encode (.Array items) = ['['] ++ commas (items.map encode) ++ [']'] := by
    rw [encode, encode_items_eq]
    rfl
  unfold size
  rw [hencode, len_append, len_append, len_commas, List.map_map,
    List.length_map, hopen, hclose]
  simp only [Function.comp_def]
  omega

theorem size_array_snoc (items : List Value) (v : Value) :
    size (.Array (items ++ [v])) = size (.Array items) + ((!items.isEmpty).toNat + size v) := by
  rw [size_array, size_array, List.map_append, List.sum_append, List.length_append]
  cases items with
  | nil => simp
  | cons x items =>
    simp only [List.map_cons, List.map_nil, List.sum_cons, List.sum_nil, List.length_cons,
      List.length_nil, List.isEmpty_cons, Bool.not_false, Bool.toNat_true]
    omega

/-- A member of an object: its key, the colon and its value. -/
def field_size (f : Str × Value) : Nat := text_cost f.1 + 1 + size f.2

theorem size_object (fields : Map) :
    size (.Object fields) = 2 + (fields.map field_size).sum + (fields.length - 1) := by
  have hopen : len ['\x7b'] = 1 := by decide
  have hclose : len ['\x7d'] = 1 := by decide
  have hfield : ∀ f : Str × Value, len (encode_text f.1 ++ ':' :: encode f.2) = field_size f := by
    intro f
    have hcolon : len [':'] = 1 := by decide
    rw [← List.singleton_append, len_append, len_append, len_encode_text, hcolon]
    unfold field_size size
    omega
  have hencode : encode (.Object fields) = ['\x7b'] ++
      commas (fields.map fun f => encode_text f.1 ++ ':' :: encode f.2) ++ ['\x7d'] := by
    rw [encode, encode_fields_eq]
    rfl
  rw [size, hencode, len_append, len_append, len_commas, List.map_map,
    List.length_map, hopen, hclose]
  rw [show len ∘ (fun f : Str × Value => encode_text f.1 ++ ':' :: encode f.2) = field_size from
    funext hfield]
  omega

theorem size_insert {m : Map} {key : Str} (value : Value) (h : key ∉ m.keys) :
    size (.Object (m.insert key value)) =
      size (.Object m) + (text_cost key + (1 + (!m.isEmpty).toNat)) + size value := by
  have hperm := Map.insert_perm value h
  rw [size_object, size_object, (hperm.map field_size).sum_eq, hperm.length_eq, List.map_cons,
    List.sum_cons, List.length_cons, field_size]
  cases m with
  | nil =>
    simp only [List.map_nil, List.sum_nil, List.length_nil, List.isEmpty_nil, Bool.not_true,
      Bool.toNat_false]
    omega
  | cons f m =>
    simp only [List.length_cons, List.isEmpty_cons, Bool.not_false, Bool.toNat_true]
    omega

end json
