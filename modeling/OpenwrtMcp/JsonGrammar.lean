-- The grammar of JSON (RFC 8259): a relation between a text, the tree that its start spells, and
-- the rest behind it. A text spells at most one tree.
import OpenwrtMcp.Text

open text

namespace json.grammar

/-- A document as it is written: numbers by their text, and the members of an object in their
order, whether or not their keys differ. -/
inductive Tree
  | Null
  | Bool (value : Bool)
  | Number (lexeme : Str)
  | String (value : Str)
  | Array (items : List Tree)
  | Object (fields : List (Str × Tree))

/-- Characters of one kind, as many of them as there are: where they end is determined. -/
theorem run_unique {P : Char → Bool} {w w' s s' : Str} (hw : ∀ c ∈ w, P c = true)
    (hw' : ∀ c ∈ w', P c = true) (hs : ∀ c ∈ s.head?, P c = false)
    (hs' : ∀ c ∈ s'.head?, P c = false) (heq : w ++ s = w' ++ s') : w = w' ∧ s = s' := by
  induction w generalizing w' with
  | nil =>
    cases w' with
    | nil => exact ⟨rfl, heq⟩
    | cons c w' =>
      rw [List.nil_append, List.cons_append] at heq
      have hc := hs c (by simp [heq])
      rw [hw' c List.mem_cons_self] at hc
      cases hc
  | cons c w ih =>
    cases w' with
    | nil =>
      rw [List.nil_append, List.cons_append] at heq
      have hc := hs' c (by simp [← heq])
      rw [hw c List.mem_cons_self] at hc
      cases hc
    | cons c' w' =>
      obtain ⟨rfl, htail⟩ := List.cons.inj heq
      rw [List.forall_mem_cons] at hw hw'
      obtain ⟨rfl, rfl⟩ := ih hw.2 hw'.2 htail
      exact ⟨rfl, rfl⟩

/-! ## White space -/

def blank (c : Char) : Bool := c = ' ' || c = '\t' || c = '\n' || c = '\r'

def Blank (s : Str) : Prop := ∀ c ∈ s, blank c = true

theorem blank_nil : Blank [] := by simp [Blank]

/-! ## Numbers -/

def Digits (s : Str) : Prop := s ≠ [] ∧ ∀ c ∈ s, c.isDigit = true

/-- No zero stands before other digits. -/
def Whole (s : Str) : Prop := s = ['0'] ∨ Digits s ∧ s.head? ≠ some '0'

def Fraction (s : Str) : Prop := s = [] ∨ ∃ digits, s = '.' :: digits ∧ Digits digits

def Exponent (s : Str) : Prop := s = [] ∨ ∃ e sign digits, s = e :: (sign ++ digits) ∧
  (e = 'e' ∨ e = 'E') ∧ (sign = [] ∨ sign = ['+'] ∨ sign = ['-']) ∧ Digits digits

def IsNumber (s : Str) : Prop := ∃ sign whole fraction exponent,
  s = sign ++ (whole ++ (fraction ++ exponent)) ∧ (sign = [] ∨ sign = ['-']) ∧ Whole whole ∧
    Fraction fraction ∧ Exponent exponent

/-- A character that a number may go on with. -/
def number_char (c : Char) : Bool :=
  c.isDigit || c = '-' || c = '+' || c = '.' || c = 'e' || c = 'E'

theorem Digits.chars {s : Str} (h : Digits s) : ∀ c ∈ s, number_char c = true := by
  intro c hc
  simp [number_char, h.2 c hc]

theorem IsNumber.chars {s : Str} (h : IsNumber s) : ∀ c ∈ s, number_char c = true := by
  obtain ⟨sign, whole, fraction, exponent, rfl, hsign, hwhole, hfraction, hexponent⟩ := h
  simp only [List.forall_mem_append]
  refine ⟨?_, ?_, ?_, ?_⟩
  · rcases hsign with rfl | rfl
    · simp
    · simp [number_char]
  · rcases hwhole with rfl | ⟨hdigits, -⟩
    · simp [number_char]
    · exact hdigits.chars
  · rcases hfraction with rfl | ⟨digits, rfl, hdigits⟩
    · simp
    · rw [List.forall_mem_cons]
      exact ⟨by simp [number_char], hdigits.chars⟩
  · rcases hexponent with rfl | ⟨e, sign, digits, rfl, he, hsign, hdigits⟩
    · simp
    · rw [List.forall_mem_cons, List.forall_mem_append]
      refine ⟨?_, ?_, hdigits.chars⟩
      · rcases he with rfl | rfl
        · simp [number_char]
        · simp [number_char]
      · rcases hsign with rfl | rfl | rfl
        · simp
        · simp [number_char]
        · simp [number_char]

/-- A number starts with a digit or a minus. -/
theorem IsNumber.starts {s : Str} (h : IsNumber s) :
    ∃ c rest, s = c :: rest ∧ (c.isDigit = true ∨ c = '-') := by
  obtain ⟨sign, whole, fraction, exponent, rfl, hsign, hwhole, -⟩ := h
  rcases hsign with rfl | rfl
  · rcases hwhole with rfl | ⟨⟨hne, hdigits⟩, -⟩
    · exact ⟨'0', _, rfl, .inl (by decide)⟩
    · obtain ⟨c, rest, rfl⟩ := List.exists_cons_of_ne_nil hne
      exact ⟨c, _, rfl, .inl (hdigits c List.mem_cons_self)⟩
  · exact ⟨'-', _, rfl, .inr rfl⟩

/-! ## Strings -/

/-- The character that a backslash and this one stand for. -/
def short_escape (e : Char) : Option Char :=
  if e = '"' || e = '\\' || e = '/' then some e
  else if e = 'b' then some '\x08'
  else if e = 'f' then some '\x0c'
  else if e = 'n' then some '\n'
  else if e = 'r' then some '\r'
  else if e = 't' then some '\t'
  else none

def hex_digit_value (c : Char) : Option Nat :=
  if c.isDigit then some (c.toNat - 48)
  else if 97 ≤ c.toNat ∧ c.toNat ≤ 102 then some (c.toNat - 87)
  else if 65 ≤ c.toNat ∧ c.toNat ≤ 70 then some (c.toNat - 55)
  else none

/-- The number that hexadecimal digits spell, behind those that were read. -/
def hex_value : Nat → Str → Option Nat
  | n, [] => some n
  | n, c :: rest => (hex_digit_value c).bind fun digit => hex_value (16 * n + digit) rest

/-- Four hexadecimal digits. -/
def IsUnit (digits : Str) (n : Nat) : Prop := digits.length = 4 ∧ hex_value 0 digits = some n

/-- The value of a string, and how it stands between its quotes. -/
inductive Spells : Str → Str → Prop
  | nil : Spells [] []
  | plain {c : Char} {v s : Str} : 32 ≤ c.toNat → c ≠ '"' → c ≠ '\\' → Spells v s →
      Spells (c :: v) (c :: s)
  | short {e c : Char} {v s : Str} : short_escape e = some c → Spells v s →
      Spells (c :: v) ('\\' :: e :: s)
  | unit {digits : Str} {n : Nat} {v s : Str} : IsUnit digits n → (n < 0xd800 ∨ 0xe000 ≤ n) →
      Spells v s → Spells (Char.ofNat n :: v) ('\\' :: 'u' :: (digits ++ s))
  | pair {high low : Str} {h l : Nat} {v s : Str} : IsUnit high h → IsUnit low l →
      (0xd800 ≤ h ∧ h < 0xdc00) → (0xdc00 ≤ l ∧ l < 0xe000) → Spells v s →
      Spells (Char.ofNat (0x10000 + (h - 0xd800) * 0x400 + (l - 0xdc00)) :: v)
        ('\\' :: 'u' :: (high ++ '\\' :: 'u' :: (low ++ s)))

theorem unit_unique {digits digits' r r' : Str} {n n' : Nat} (h : IsUnit digits n)
    (h' : IsUnit digits' n') (heq : digits ++ r = digits' ++ r') :
    digits = digits' ∧ n = n' ∧ r = r' := by
  obtain ⟨rfl, hr⟩ := List.append_inj heq (h.1.trans h'.1.symm)
  exact ⟨rfl, Option.some.inj (h.2.symm.trans h'.2), hr⟩

/-- The quote that ends a string is determined, and so is its value. -/
theorem spells_unique {v v' s s' r r' : Str} (h : Spells v s) (h' : Spells v' s')
    (heq : s ++ '"' :: r = s' ++ '"' :: r') : v = v' ∧ s = s' ∧ r = r' := by
  have hu : short_escape 'u' = none := by decide
  induction h generalizing v' s' with
  | nil =>
    cases h' with
    | nil => exact ⟨rfl, rfl, (List.cons.inj heq).2⟩
    | plain _ hquote => exact absurd (List.cons.inj heq).1.symm hquote
    | short => exact absurd (List.cons.inj heq).1 (by decide)
    | unit => exact absurd (List.cons.inj heq).1 (by decide)
    | pair => exact absurd (List.cons.inj heq).1 (by decide)
  | plain _ hquote hslash _ ih =>
    cases h' with
    | nil => exact absurd (List.cons.inj heq).1 hquote
    | plain _ _ _ h' =>
      obtain ⟨rfl, htail⟩ := List.cons.inj heq
      obtain ⟨rfl, rfl, rfl⟩ := ih h' htail
      exact ⟨rfl, rfl, rfl⟩
    | short => exact absurd (List.cons.inj heq).1 hslash
    | unit => exact absurd (List.cons.inj heq).1 hslash
    | pair => exact absurd (List.cons.inj heq).1 hslash
  | short hescape _ ih =>
    cases h' with
    | nil => exact absurd (List.cons.inj heq).1 (by decide)
    | plain _ _ hslash => exact absurd (List.cons.inj heq).1.symm hslash
    | short hescape' h' =>
      obtain ⟨rfl, htail⟩ := List.cons.inj (List.cons.inj heq).2
      obtain ⟨rfl, rfl, rfl⟩ := ih h' htail
      rw [hescape] at hescape'
      exact ⟨by rw [Option.some.inj hescape'], rfl, rfl⟩
    | unit =>
      rw [(List.cons.inj (List.cons.inj heq).2).1, hu] at hescape
      cases hescape
    | pair =>
      rw [(List.cons.inj (List.cons.inj heq).2).1, hu] at hescape
      cases hescape
  | unit hunit hn _ ih =>
    cases h' with
    | nil => exact absurd (List.cons.inj heq).1 (by decide)
    | plain _ _ hslash => exact absurd (List.cons.inj heq).1.symm hslash
    | short hescape' =>
      rw [← (List.cons.inj (List.cons.inj heq).2).1, hu] at hescape'
      cases hescape'
    | unit hunit' _ h' =>
      simp only [List.cons_append, List.append_assoc, List.cons.injEq, true_and] at heq
      obtain ⟨rfl, rfl, hrest⟩ := unit_unique hunit hunit' heq
      obtain ⟨rfl, rfl, rfl⟩ := ih h' hrest
      exact ⟨rfl, rfl, rfl⟩
    | pair hhigh _ hrange _ _ =>
      simp only [List.cons_append, List.append_assoc, List.cons.injEq, true_and] at heq
      obtain ⟨-, rfl, -⟩ := unit_unique hunit hhigh heq
      omega
  | pair hhigh hlow hh hl _ ih =>
    cases h' with
    | nil => exact absurd (List.cons.inj heq).1 (by decide)
    | plain _ _ hslash => exact absurd (List.cons.inj heq).1.symm hslash
    | short hescape' =>
      rw [← (List.cons.inj (List.cons.inj heq).2).1, hu] at hescape'
      cases hescape'
    | unit hunit' hn _ =>
      simp only [List.cons_append, List.append_assoc, List.cons.injEq, true_and] at heq
      obtain ⟨-, rfl, -⟩ := unit_unique hhigh hunit' heq
      omega
    | pair hhigh' hlow' _ _ h' =>
      simp only [List.cons_append, List.append_assoc, List.cons.injEq, true_and] at heq
      obtain ⟨rfl, rfl, hrest⟩ := unit_unique hhigh hhigh' heq
      simp only [List.cons.injEq, true_and] at hrest
      obtain ⟨rfl, rfl, hlast⟩ := unit_unique hlow hlow' hrest
      obtain ⟨rfl, rfl, rfl⟩ := ih h' hlast
      exact ⟨rfl, rfl, rfl⟩

/-! ## Values -/

mutual

/-- The text starts with a value, and this is the rest behind it. -/
def Reads : Tree → Str → Str → Prop
  | .Null, s, r => s = "null".toList ++ r
  | .Bool value, s, r => s = (if value then "true" else "false").toList ++ r
  | .Number lexeme, s, r =>
    IsNumber lexeme ∧ s = lexeme ++ r ∧ ∀ c ∈ r.head?, number_char c = false
  | .String value, s, r => ∃ spelling, Spells value spelling ∧ s = '"' :: (spelling ++ '"' :: r)
  | .Array items, s, r => ∃ w s', s = '[' :: (w ++ s') ∧ Blank w ∧ ReadsItems items s' r
  | .Object fields, s, r => ∃ w s', s = '\x7b' :: (w ++ s') ∧ Blank w ∧ ReadsFields fields s' r

/-- The items of an array, up to the bracket that ends it. -/
def ReadsItems : List Tree → Str → Str → Prop
  | [], s, r => s = ']' :: r
  | item :: items, s, r => ∃ w s', Reads item s (w ++ s') ∧ Blank w ∧ ReadsMoreItems items s' r

def ReadsMoreItems : List Tree → Str → Str → Prop
  | [], s, r => s = ']' :: r
  | item :: items, s, r => ∃ w w' s' s'', s = ',' :: (w ++ s') ∧ Blank w ∧
    Reads item s' (w' ++ s'') ∧ Blank w' ∧ ReadsMoreItems items s'' r

/-- The members of an object, up to the brace that ends it. -/
def ReadsFields : List (Str × Tree) → Str → Str → Prop
  | [], s, r => s = '\x7d' :: r
  | field :: fields, s, r => ∃ w s', ReadsField field s (w ++ s') ∧ Blank w ∧
    ReadsMoreFields fields s' r

def ReadsMoreFields : List (Str × Tree) → Str → Str → Prop
  | [], s, r => s = '\x7d' :: r
  | field :: fields, s, r => ∃ w w' s' s'', s = ',' :: (w ++ s') ∧ Blank w ∧
    ReadsField field s' (w' ++ s'') ∧ Blank w' ∧ ReadsMoreFields fields s'' r

def ReadsField : Str × Tree → Str → Str → Prop
  | (key, value), s, r => ∃ spelling w w' s', Spells key spelling ∧
    s = '"' :: (spelling ++ '"' :: (w ++ ':' :: (w' ++ s'))) ∧ Blank w ∧ Blank w' ∧ Reads value s' r

end

/-- A text that is a value, with white space around it. -/
def Document (text : Str) (tree : Tree) : Prop :=
  ∃ w w' s, text = w ++ s ∧ Blank w ∧ Blank w' ∧ Reads tree s w'

/-! ## A text is read in one way -/

/-- The kind of value that a character starts. -/
def head_kind (c : Char) : Nat :=
  if c = 'n' then 0
  else if c = 't' then 1
  else if c = 'f' then 2
  else if c = '"' then 3
  else if c = '[' then 4
  else if c = '\x7b' then 5
  else if c.isDigit || c = '-' then 6
  else 7

def Tree.kind : Tree → Nat
  | .Null => 0
  | .Bool value => if value then 1 else 2
  | .String _ => 3
  | .Array _ => 4
  | .Object _ => 5
  | .Number _ => 6

theorem Tree.kind_lt (t : Tree) : t.kind < 7 := by
  cases t with
  | Bool value => cases value <;> decide
  | _ => simp [Tree.kind]

theorem head_kind_blank {c : Char} (h : blank c = true) : head_kind c = 7 := by
  simp only [blank, Bool.or_eq_true, decide_eq_true_eq] at h
  rcases h with ((rfl | rfl) | rfl) | rfl
  · decide
  · decide
  · decide
  · decide

theorem head_kind_digit {c : Char} (h : c.isDigit = true ∨ c = '-') : head_kind c = 6 := by
  have hne : ∀ d : Char, (d.isDigit || d = '-') = false → c ≠ d := by
    rintro d hd rfl
    rcases h with h | rfl
    · simp [h] at hd
    · simp at hd
  unfold head_kind
  rw [if_neg (hne _ (by decide)), if_neg (hne _ (by decide)), if_neg (hne _ (by decide)),
    if_neg (hne _ (by decide)), if_neg (hne _ (by decide)), if_neg (hne _ (by decide)),
    if_pos (by simpa using h)]

/-- The first character of a value says of what kind it is. -/
theorem Reads.head {t : Tree} {s r : Str} (h : Reads t s r) :
    ∃ c rest, s = c :: rest ∧ head_kind c = t.kind := by
  cases t with
  | Null =>
    rw [Reads] at h
    exact ⟨_, _, h, by decide⟩
  | Bool value =>
    rw [Reads] at h
    cases value
    · exact ⟨_, _, h, by decide⟩
    · exact ⟨_, _, h, by decide⟩
  | Number lexeme =>
    obtain ⟨hnumber, rfl, -⟩ := h
    obtain ⟨c, rest, rfl, hc⟩ := hnumber.starts
    exact ⟨c, rest ++ r, rfl, head_kind_digit hc⟩
  | String value =>
    obtain ⟨_, -, rfl⟩ := h
    exact ⟨_, _, rfl, rfl⟩
  | Array items =>
    rw [Reads] at h
    obtain ⟨_, _, rfl, -⟩ := h
    exact ⟨_, _, rfl, rfl⟩
  | Object fields =>
    rw [Reads] at h
    obtain ⟨_, _, rfl, -⟩ := h
    exact ⟨_, _, rfl, rfl⟩

/-- No white space is at the start. -/
def Dense (s : Str) : Prop := ∀ c ∈ s.head?, blank c = false

theorem dense_cons {c : Char} {s : Str} (h : blank c = false) : Dense (c :: s) := by
  simpa [Dense] using h

theorem Reads.dense {t : Tree} {s r : Str} (h : Reads t s r) : Dense s := by
  obtain ⟨c, rest, rfl, hkind⟩ := h.head
  refine dense_cons (Bool.eq_false_iff.2 fun hblank => ?_)
  have := t.kind_lt
  rw [head_kind_blank hblank] at hkind
  omega

/-- No value starts with the bracket that ends an array. -/
theorem Reads.not_bracket {t : Tree} {s r rest : Str} (h : Reads t s r) : s ≠ ']' :: rest := by
  rintro rfl
  obtain ⟨c, rest, hc, hkind⟩ := h.head
  have := t.kind_lt
  have hseven : head_kind ']' = 7 := by decide
  rw [← (List.cons.inj hc).1] at hkind
  omega

theorem ReadsItems.dense {items : List Tree} {s r : Str} (h : ReadsItems items s r) : Dense s := by
  cases items with
  | nil =>
    rw [ReadsItems] at h
    exact h ▸ dense_cons (by decide)
  | cons item items =>
    obtain ⟨_, _, hitem, -⟩ := h
    exact hitem.dense

theorem ReadsMoreItems.dense {items : List Tree} {s r : Str} (h : ReadsMoreItems items s r) :
    Dense s := by
  cases items with
  | nil =>
    rw [ReadsMoreItems] at h
    exact h ▸ dense_cons (by decide)
  | cons item items =>
    obtain ⟨_, _, _, _, rfl, -⟩ := h
    exact dense_cons (by decide)

theorem ReadsField.head {field : Str × Tree} {s r : Str} (h : ReadsField field s r) :
    ∃ rest, s = '"' :: rest := by
  obtain ⟨key, value⟩ := field
  obtain ⟨_, _, _, _, -, rfl, -⟩ := h
  exact ⟨_, rfl⟩

theorem ReadsField.dense {field : Str × Tree} {s r : Str} (h : ReadsField field s r) : Dense s := by
  obtain ⟨rest, rfl⟩ := h.head
  exact dense_cons (by decide)

theorem ReadsFields.dense {fields : List (Str × Tree)} {s r : Str} (h : ReadsFields fields s r) :
    Dense s := by
  cases fields with
  | nil =>
    rw [ReadsFields] at h
    exact h ▸ dense_cons (by decide)
  | cons field fields =>
    obtain ⟨_, _, hfield, -⟩ := h
    exact hfield.dense

theorem ReadsMoreFields.dense {fields : List (Str × Tree)} {s r : Str}
    (h : ReadsMoreFields fields s r) : Dense s := by
  cases fields with
  | nil =>
    rw [ReadsMoreFields] at h
    exact h ▸ dense_cons (by decide)
  | cons field fields =>
    obtain ⟨_, _, _, _, rfl, -⟩ := h
    exact dense_cons (by decide)

theorem blank_unique {w w' s s' : Str} (hw : Blank w) (hw' : Blank w') (hs : Dense s)
    (hs' : Dense s') (heq : w ++ s = w' ++ s') : s = s' := (run_unique hw hw' hs hs' heq).2

/-- Two readings of a text find values of one kind. -/
theorem Reads.kind_eq {t t' : Tree} {s r r' : Str} (h : Reads t s r) (h' : Reads t' s r') :
    t'.kind = t.kind := by
  obtain ⟨c, rest, hc, hkind⟩ := h.head
  obtain ⟨c', rest', hc', hkind'⟩ := h'.head
  cases hc.symm.trans hc'
  exact hkind'.symm.trans hkind

theorem null_of_kind {t : Tree} (h : t.kind = 0) : t = .Null := by
  cases t with
  | Null => rfl
  | Bool value => cases value <;> simp [Tree.kind] at h
  | _ => simp [Tree.kind] at h

theorem bool_of_kind {t : Tree} {value : Bool} (h : t.kind = (Tree.Bool value).kind) :
    t = .Bool value := by
  cases t with
  | Bool value' => cases value <;> cases value' <;> simp [Tree.kind] at h <;> rfl
  | _ => cases value <;> simp [Tree.kind] at h

theorem string_of_kind {t : Tree} (h : t.kind = 3) : ∃ value, t = .String value := by
  cases t with
  | String value => exact ⟨value, rfl⟩
  | Bool value => cases value <;> simp [Tree.kind] at h
  | _ => simp [Tree.kind] at h

theorem array_of_kind {t : Tree} (h : t.kind = 4) : ∃ items, t = .Array items := by
  cases t with
  | Array items => exact ⟨items, rfl⟩
  | Bool value => cases value <;> simp [Tree.kind] at h
  | _ => simp [Tree.kind] at h

theorem object_of_kind {t : Tree} (h : t.kind = 5) : ∃ fields, t = .Object fields := by
  cases t with
  | Object fields => exact ⟨fields, rfl⟩
  | Bool value => cases value <;> simp [Tree.kind] at h
  | _ => simp [Tree.kind] at h

theorem number_of_kind {t : Tree} (h : t.kind = 6) : ∃ lexeme, t = .Number lexeme := by
  cases t with
  | Number lexeme => exact ⟨lexeme, rfl⟩
  | Bool value => cases value <;> simp [Tree.kind] at h
  | _ => simp [Tree.kind] at h

mutual

theorem reads_unique : (t : Tree) → {t' : Tree} → {s r r' : Str} → Reads t s r → Reads t' s r' →
    t' = t ∧ r' = r
  | .Null, t', s, r, r', h, h' => by
    obtain rfl := null_of_kind (h.kind_eq h')
    rw [Reads] at h h'
    exact ⟨rfl, (List.append_cancel_left (h.symm.trans h')).symm⟩
  | .Bool value, t', s, r, r', h, h' => by
    obtain rfl := bool_of_kind (h.kind_eq h')
    rw [Reads] at h h'
    exact ⟨rfl, (List.append_cancel_left (h.symm.trans h')).symm⟩
  | .Number lexeme, t', s, r, r', h, h' => by
    obtain ⟨lexeme', rfl⟩ := number_of_kind (h.kind_eq h')
    obtain ⟨hnumber, rfl, hend⟩ := h
    obtain ⟨hnumber', heq, hend'⟩ := h'
    obtain ⟨rfl, rfl⟩ := run_unique hnumber.chars hnumber'.chars hend hend' heq
    exact ⟨rfl, rfl⟩
  | .String value, t', s, r, r', h, h' => by
    obtain ⟨value', rfl⟩ := string_of_kind (h.kind_eq h')
    obtain ⟨spelling, hspells, rfl⟩ := h
    obtain ⟨spelling', hspells', heq⟩ := h'
    obtain ⟨rfl, -, rfl⟩ := spells_unique hspells hspells' (List.cons.inj heq).2
    exact ⟨rfl, rfl⟩
  | .Array items, t', s, r, r', h, h' => by
    obtain ⟨items', rfl⟩ := array_of_kind (h.kind_eq h')
    rw [Reads] at h h'
    obtain ⟨w, inner, rfl, hw, hitems⟩ := h
    obtain ⟨w', inner', heq, hw', hitems'⟩ := h'
    obtain rfl := blank_unique hw hw' hitems.dense hitems'.dense (List.cons.inj heq).2
    obtain ⟨rfl, rfl⟩ := items_unique items hitems hitems'
    exact ⟨rfl, rfl⟩
  | .Object fields, t', s, r, r', h, h' => by
    obtain ⟨fields', rfl⟩ := object_of_kind (h.kind_eq h')
    rw [Reads] at h h'
    obtain ⟨w, inner, rfl, hw, hfields⟩ := h
    obtain ⟨w', inner', heq, hw', hfields'⟩ := h'
    obtain rfl := blank_unique hw hw' hfields.dense hfields'.dense (List.cons.inj heq).2
    obtain ⟨rfl, rfl⟩ := fields_unique fields hfields hfields'
    exact ⟨rfl, rfl⟩

theorem items_unique : (items : List Tree) → {items' : List Tree} → {s r r' : Str} →
    ReadsItems items s r → ReadsItems items' s r' → items' = items ∧ r' = r
  | [], [], s, r, r', h, h' => by
    rw [ReadsItems] at h h'
    exact ⟨rfl, (List.cons.inj (h.symm.trans h')).2.symm⟩
  | [], item :: items, s, r, r', h, h' => by
    rw [ReadsItems] at h
    obtain ⟨_, _, hitem, -⟩ := h'
    exact absurd h hitem.not_bracket
  | item :: items, [], s, r, r', h, h' => by
    rw [ReadsItems] at h'
    obtain ⟨_, _, hitem, -⟩ := h
    exact absurd h' hitem.not_bracket
  | item :: items, item' :: items', s, r, r', h, h' => by
    rw [ReadsItems] at h h'
    obtain ⟨w, inner, hitem, hw, hmore⟩ := h
    obtain ⟨w', inner', hitem', hw', hmore'⟩ := h'
    obtain ⟨rfl, heq⟩ := reads_unique item hitem hitem'
    obtain rfl := blank_unique hw' hw hmore'.dense hmore.dense heq
    obtain ⟨rfl, rfl⟩ := more_items_unique items hmore hmore'
    exact ⟨rfl, rfl⟩

theorem more_items_unique : (items : List Tree) → {items' : List Tree} → {s r r' : Str} →
    ReadsMoreItems items s r → ReadsMoreItems items' s r' → items' = items ∧ r' = r
  | [], [], s, r, r', h, h' => by
    rw [ReadsMoreItems] at h h'
    exact ⟨rfl, (List.cons.inj (h.symm.trans h')).2.symm⟩
  | [], item :: items, s, r, r', h, h' => by
    rw [ReadsMoreItems] at h
    obtain ⟨_, _, _, _, hs, -⟩ := h'
    exact absurd (List.cons.inj (h.symm.trans hs)).1 (by decide)
  | item :: items, [], s, r, r', h, h' => by
    rw [ReadsMoreItems] at h'
    obtain ⟨_, _, _, _, hs, -⟩ := h
    exact absurd (List.cons.inj (h'.symm.trans hs)).1 (by decide)
  | item :: items, item' :: items', s, r, r', h, h' => by
    rw [ReadsMoreItems] at h h'
    obtain ⟨v, w, start, inner, rfl, hv, hitem, hw, hmore⟩ := h
    obtain ⟨v', w', start', inner', heq, hv', hitem', hw', hmore'⟩ := h'
    obtain rfl := blank_unique hv hv' hitem.dense hitem'.dense (List.cons.inj heq).2
    obtain ⟨rfl, heq⟩ := reads_unique item hitem hitem'
    obtain rfl := blank_unique hw' hw hmore'.dense hmore.dense heq
    obtain ⟨rfl, rfl⟩ := more_items_unique items hmore hmore'
    exact ⟨rfl, rfl⟩

theorem fields_unique : (fields : List (Str × Tree)) → {fields' : List (Str × Tree)} →
    {s r r' : Str} → ReadsFields fields s r → ReadsFields fields' s r' →
    fields' = fields ∧ r' = r
  | [], [], s, r, r', h, h' => by
    rw [ReadsFields] at h h'
    exact ⟨rfl, (List.cons.inj (h.symm.trans h')).2.symm⟩
  | [], field :: fields, s, r, r', h, h' => by
    rw [ReadsFields] at h
    obtain ⟨_, _, hfield, -⟩ := h'
    obtain ⟨_, hs⟩ := hfield.head
    exact absurd (List.cons.inj (h.symm.trans hs)).1 (by decide)
  | field :: fields, [], s, r, r', h, h' => by
    rw [ReadsFields] at h'
    obtain ⟨_, _, hfield, -⟩ := h
    obtain ⟨_, hs⟩ := hfield.head
    exact absurd (List.cons.inj (h'.symm.trans hs)).1 (by decide)
  | field :: fields, field' :: fields', s, r, r', h, h' => by
    rw [ReadsFields] at h h'
    obtain ⟨w, inner, hfield, hw, hmore⟩ := h
    obtain ⟨w', inner', hfield', hw', hmore'⟩ := h'
    obtain ⟨rfl, heq⟩ := field_unique field hfield hfield'
    obtain rfl := blank_unique hw' hw hmore'.dense hmore.dense heq
    obtain ⟨rfl, rfl⟩ := more_fields_unique fields hmore hmore'
    exact ⟨rfl, rfl⟩

theorem more_fields_unique : (fields : List (Str × Tree)) → {fields' : List (Str × Tree)} →
    {s r r' : Str} → ReadsMoreFields fields s r → ReadsMoreFields fields' s r' →
    fields' = fields ∧ r' = r
  | [], [], s, r, r', h, h' => by
    rw [ReadsMoreFields] at h h'
    exact ⟨rfl, (List.cons.inj (h.symm.trans h')).2.symm⟩
  | [], field :: fields, s, r, r', h, h' => by
    rw [ReadsMoreFields] at h
    obtain ⟨_, _, _, _, hs, -⟩ := h'
    exact absurd (List.cons.inj (h.symm.trans hs)).1 (by decide)
  | field :: fields, [], s, r, r', h, h' => by
    rw [ReadsMoreFields] at h'
    obtain ⟨_, _, _, _, hs, -⟩ := h
    exact absurd (List.cons.inj (h'.symm.trans hs)).1 (by decide)
  | field :: fields, field' :: fields', s, r, r', h, h' => by
    rw [ReadsMoreFields] at h h'
    obtain ⟨v, w, start, inner, rfl, hv, hfield, hw, hmore⟩ := h
    obtain ⟨v', w', start', inner', heq, hv', hfield', hw', hmore'⟩ := h'
    obtain rfl := blank_unique hv hv' hfield.dense hfield'.dense (List.cons.inj heq).2
    obtain ⟨rfl, heq⟩ := field_unique field hfield hfield'
    obtain rfl := blank_unique hw' hw hmore'.dense hmore.dense heq
    obtain ⟨rfl, rfl⟩ := more_fields_unique fields hmore hmore'
    exact ⟨rfl, rfl⟩

theorem field_unique : (field : Str × Tree) → {field' : Str × Tree} → {s r r' : Str} →
    ReadsField field s r → ReadsField field' s r' → field' = field ∧ r' = r
  | (key, value), (key', value'), s, r, r', h, h' => by
    rw [ReadsField] at h h'
    obtain ⟨spelling, v, w, inner, hspells, rfl, hv, hw, hvalue⟩ := h
    obtain ⟨spelling', v', w', inner', hspells', heq, hv', hw', hvalue'⟩ := h'
    obtain ⟨rfl, -, heq⟩ := spells_unique hspells hspells' (List.cons.inj heq).2
    have hcolon := blank_unique hv hv' (dense_cons (by decide)) (dense_cons (by decide)) heq
    obtain rfl := blank_unique hw hw' hvalue.dense hvalue'.dense (List.cons.inj hcolon).2
    obtain ⟨rfl, rfl⟩ := reads_unique value hvalue hvalue'
    exact ⟨rfl, rfl⟩

end

/-- A text is a document of one value at most. -/
theorem document_unique {text : Str} {t t' : Tree} (h : Document text t) (h' : Document text t') :
    t' = t := by
  obtain ⟨w, _, s, rfl, hw, -, hreads⟩ := h
  obtain ⟨v, _, s', heq, hv, -, hreads'⟩ := h'
  obtain rfl := blank_unique hw hv hreads.dense hreads'.dense heq
  exact (reads_unique t hreads hreads').1

end json.grammar
