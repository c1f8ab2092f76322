-- The text of a value is a document of the grammar, and it reads as that value and no other.
import OpenwrtMcp.Decimals
import OpenwrtMcp.JsonGrammar

open decimals text

namespace json.grammar

/-! ## Numbers -/

theorem digits_decimal (n : Nat) : Digits (decimal n) :=
  ⟨decimal_ne_nil n, fun _ => decimal_digits⟩

theorem whole_decimal (n : Nat) : Whole (decimal n) := by
  rcases Nat.eq_zero_or_pos n with rfl | hpos
  · exact .inl (by simp [decimal])
  · exact .inr ⟨digits_decimal n, head_decimal_pos hpos⟩

theorem is_number_decimal (n : Nat) : IsNumber (decimal n) :=
  ⟨[], decimal n, [], [], by simp, .inl rfl, whole_decimal n, .inl rfl, .inl rfl⟩

theorem is_number_signed_decimal (n : Int) : IsNumber (signed_decimal n) := by
  unfold signed_decimal
  by_cases hn : 0 ≤ n
  · rw [if_pos hn]
    exact is_number_decimal _
  · rw [if_neg hn]
    exact ⟨['-'], decimal n.natAbs, [], [], by simp, .inr rfl, whole_decimal _, .inl rfl, .inl rfl⟩

/-! ## Strings -/

theorem Spells.append {v v' s s' : Str} (h : Spells v s) (h' : Spells v' s') :
    Spells (v ++ v') (s ++ s') := by
  induction h with
  | nil => exact h'
  | plain hlow hquote hslash _ ih => exact .plain hlow hquote hslash ih
  | short hescape _ ih => exact .short hescape ih
  | unit hunit hscalar _ ih =>
    rw [List.cons_append, List.cons_append, List.cons_append, List.append_assoc]
    exact .unit hunit hscalar ih
  | pair hhigh hlow hh hl _ ih =>
    simp only [List.cons_append, List.append_assoc]
    exact .pair hhigh hlow hh hl ih

/-- The escape of a control character that has no short one. -/
theorem is_unit_control : ∀ n : Fin 32,
    IsUnit ['0', '0', hex_digit (n.1 / 16), hex_digit (n.1 % 16)] n.1 := by
  unfold IsUnit
  decide

theorem spells_encode_char (c : Char) : Spells [c] (encode_char c) := by
  have hshort : ∀ {e : Char}, short_escape e = some c → Spells [c] ['\\', e] :=
    fun h => .short h .nil
  have hchar : ∀ {n : Nat}, c.toNat = n → c = Char.ofNat n := by
    rintro n rfl
    exact (Char.ofNat_toNat c).symm
  unfold encode_char
  split
  · rename_i h
    exact hshort (by rw [h]; decide)
  split
  · rename_i h
    exact hshort (by rw [h]; decide)
  split
  · rename_i h
    exact hshort (by rw [hchar h]; decide)
  split
  · rename_i h
    exact hshort (by rw [hchar h]; decide)
  split
  · rename_i h
    exact hshort (by rw [hchar h]; decide)
  split
  · rename_i h
    exact hshort (by rw [hchar h]; decide)
  split
  · rename_i h
    exact hshort (by rw [hchar h]; decide)
  split
  · rename_i hcontrol
    have hspells := Spells.unit (is_unit_control ⟨c.toNat, hcontrol⟩) (.inl (by omega)) .nil
    rwa [Char.ofNat_toNat] at hspells
  · rename_i hquote hslash _ _ _ _ _ hcontrol
    exact .plain (by omega) hquote hslash .nil

/-- The body of a text between its quotes. -/
theorem spells_encode (s : Str) : Spells s (s.flatMap encode_char) := by
  induction s with
  | nil => exact .nil
  | cons c s ih => exact (spells_encode_char c).append ih

theorem reads_encode_text (s r : Str) : Reads (.String s) (encode_text s ++ r) r := by
  rw [Reads]
  exact ⟨s.flatMap encode_char, spells_encode s, by simp [encode_text]⟩

/-! ## Values -/

mutual

/-- The document that a value is written as. -/
def tree : Value → Tree
  | .Null => .Null
  | .Bool value => .Bool value
  | .Number value => .Number value.to_string
  | .String value => .String value
  | .Array items => .Array (item_trees items)
  | .Object fields => .Object (field_trees fields)

def item_trees : List Value → List Tree
  | [] => []
  | item :: rest => tree item :: item_trees rest

def field_trees : List (Str × Value) → List (Str × Tree)
  | [] => []
  | (key, value) :: rest => (key, tree value) :: field_trees rest

end

mutual

/-- The text of every float is a number of the grammar. -/
def Numeric : Value → Prop
  | .Number (.Float text) => IsNumber text
  | .Array items => numeric_items items
  | .Object fields => numeric_fields fields
  | _ => True

def numeric_items : List Value → Prop
  | [] => True
  | v :: rest => Numeric v ∧ numeric_items rest

def numeric_fields : List (Str × Value) → Prop
  | [] => True
  | (_, v) :: rest => Numeric v ∧ numeric_fields rest

end

theorem commas_cons (part : Str) (parts : List Str) :
    commas (part :: parts) = part ++ parts.flatMap (',' :: ·) := by
  unfold commas
  induction parts generalizing part with
  | nil => simp [List.intercalate]
  | cons next parts ih =>
    have hcons : [','].intercalate (part :: next :: parts) =
        part ++ (',' :: [','].intercalate (next :: parts)) := by
      simp [List.intercalate, List.intersperse]
    rw [hcons, ih, List.flatMap_cons, List.cons_append]

/-- What may stand behind a value: it does not go on with a number. -/
def Ends (r : Str) : Prop := ∀ c ∈ r.head?, number_char c = false

theorem ends_nil : Ends [] := by simp [Ends]

theorem ends_cons {c : Char} {r : Str} (h : number_char c = false) : Ends (c :: r) := by
  simpa [Ends] using h

theorem ends_more (parts : List Str) {c : Char} {r : Str} (h : number_char c = false) :
    Ends (parts.flatMap (',' :: ·) ++ c :: r) := by
  cases parts with
  | nil => exact ends_cons h
  | cons part parts => exact ends_cons (by decide)

theorem reads_number {n : Number} {r : Str} (h : IsNumber n.to_string) (hr : Ends r) :
    Reads (.Number n.to_string) (n.to_string ++ r) r := by
  rw [Reads]
  exact ⟨h, rfl, hr⟩

mutual

/-- The text of a value is read up to its end. -/
theorem reads_encode : (v : Value) → Numeric v → {r : Str} → Ends r →
    Reads (tree v) (encode v ++ r) r
  | .Null, _, r, _ => by rw [tree, encode, Reads]
  | .Bool true, _, r, _ => by simp [tree, encode, Reads]
  | .Bool false, _, r, _ => by simp [tree, encode, Reads]
  | .Number (.PosInt n), _, r, hr => by
    rw [tree, encode]
    exact reads_number (is_number_decimal _) hr
  | .Number (.NegInt n), _, r, hr => by
    rw [tree, encode]
    exact reads_number (is_number_signed_decimal _) hr
  | .Number (.Float text), h, r, hr => by
    rw [Numeric] at h
    rw [tree, encode]
    exact reads_number h hr
  | .String value, _, r, _ => by
    rw [tree, encode]
    exact reads_encode_text value r
  | .Array items, h, r, _ => by
    rw [Numeric] at h
    rw [tree, encode, Reads]
    refine ⟨[], commas (encode_items items) ++ ']' :: r, by simp, blank_nil, ?_⟩
    exact reads_encode_items items h r
  | .Object fields, h, r, _ => by
    rw [Numeric] at h
    rw [tree, encode, Reads]
    refine ⟨[], commas (encode_fields fields) ++ '\x7d' :: r, by simp, blank_nil, ?_⟩
    exact reads_encode_fields fields h r

theorem reads_encode_items : (items : List Value) → numeric_items items → (r : Str) →
    ReadsItems (item_trees items) (commas (encode_items items) ++ ']' :: r) r
  | [], _, r => by simp [item_trees, encode_items, commas, List.intercalate, ReadsItems]
  | item :: rest, h, r => by
    rw [numeric_items] at h
    rw [item_trees, encode_items, commas_cons, ReadsItems, List.append_assoc]
    refine ⟨[], _, reads_encode item h.1 (ends_more _ (by decide)), blank_nil, ?_⟩
    exact reads_encode_more_items rest h.2 r

theorem reads_encode_more_items : (items : List Value) → numeric_items items → (r : Str) →
    ReadsMoreItems (item_trees items) ((encode_items items).flatMap (',' :: ·) ++ ']' :: r) r
  | [], _, r => by simp [item_trees, encode_items, ReadsMoreItems]
  | item :: rest, h, r => by
    rw [numeric_items] at h
    rw [item_trees, encode_items, List.flatMap_cons, ReadsMoreItems, List.append_assoc,
      List.cons_append]
    refine ⟨[], [], _, _, rfl, blank_nil, ?_, blank_nil, reads_encode_more_items rest h.2 r⟩
    exact reads_encode item h.1 (ends_more _ (by decide))

theorem reads_encode_fields : (fields : List (Str × Value)) → numeric_fields fields → (r : Str) →
    ReadsFields (field_trees fields) (commas (encode_fields fields) ++ '\x7d' :: r) r
  | [], _, r => by simp [field_trees, encode_fields, commas, List.intercalate, ReadsFields]
  | (key, value) :: rest, h, r => by
    rw [numeric_fields] at h
    rw [field_trees, encode_fields, commas_cons, ReadsFields, List.append_assoc]
    refine ⟨[], _, ?_, blank_nil, reads_encode_more_fields rest h.2 r⟩
    rw [ReadsField]
    refine ⟨key.flatMap encode_char, [], [], _, spells_encode key, ?_, blank_nil, blank_nil,
      reads_encode value h.1 (ends_more _ (by decide))⟩
    simp [encode_text]

theorem reads_encode_more_fields : (fields : List (Str × Value)) → numeric_fields fields →
    (r : Str) → ReadsMoreFields (field_trees fields)
      ((encode_fields fields).flatMap (',' :: ·) ++ '\x7d' :: r) r
  | [], _, r => by simp [field_trees, encode_fields, ReadsMoreFields]
  | (key, value) :: rest, h, r => by
    rw [numeric_fields] at h
    rw [field_trees, encode_fields, List.flatMap_cons, ReadsMoreFields, List.append_assoc,
      List.cons_append]
    refine ⟨[], [], _, _, rfl, blank_nil, ?_, blank_nil, reads_encode_more_fields rest h.2 r⟩
    rw [ReadsField]
    refine ⟨key.flatMap encode_char, [], [], _, spells_encode key, ?_, blank_nil, blank_nil,
      reads_encode value h.1 (ends_more _ (by decide))⟩
    simp

end

/-- The text of a value is a document, and of no other tree. -/
theorem document_encode {v : Value} (h : Numeric v) : Document (encode v) (tree v) :=
  ⟨[], [], encode v, rfl, blank_nil, blank_nil, by simpa using reads_encode v h ends_nil⟩

end json.grammar
