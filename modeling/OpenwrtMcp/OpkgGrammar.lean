-- The language of the status file, line by line: stanzas of fields, each ended by a blank line.
-- What the loop keeps is what the stanza so far says.
import OpenwrtMcp.Opkg
import OpenwrtMcp.PackagePages

open openwrt_mcp_core openwrt_mcp_core.packages programs text

namespace openwrt_mcp_device_codec.packages.opkg

/-! ## Lines -/

/-- The text of some lines, each with its end. -/
def joined (lines : List Str) : Str := lines.flatMap fun line => line ++ ['\n']

theorem split_terminator_lines {c : Char} {text line : Str} (h : line ∈ split_terminator c text) :
    c ∉ line := by
  induction text generalizing line with
  | nil => cases h
  | cons x rest ih =>
    unfold split_terminator at h
    split at h
    · rcases List.mem_cons.1 h with rfl | h
      · simp
      · exact ih h
    · rename_i hx
      split at h
      · rw [List.mem_singleton.1 h, List.mem_singleton]
        exact fun heq => hx heq.symm
      · rename_i first lines hsplit
        rw [hsplit] at ih
        rcases List.mem_cons.1 h with rfl | h
        · rw [List.mem_cons, not_or]
          exact ⟨fun heq => hx heq.symm, ih List.mem_cons_self⟩
        · exact ih (List.mem_cons_of_mem _ h)

theorem split_terminator_line {line rest : Str} (h : '\n' ∉ line) :
    split_terminator '\n' (line ++ '\n' :: rest) = line :: split_terminator '\n' rest := by
  induction line with
  | nil => simp [split_terminator]
  | cons x line ih =>
    rw [List.mem_cons, not_or] at h
    rw [List.cons_append, split_terminator, if_neg fun heq => h.1 heq.symm, ih h.2]

theorem split_terminator_joined {lines : List Str} (h : ∀ line ∈ lines, '\n' ∉ line) :
    split_terminator '\n' (joined lines) = lines := by
  induction lines with
  | nil => rfl
  | cons line lines ih =>
    rw [List.forall_mem_cons] at h
    have hjoined : joined (line :: lines) = line ++ '\n' :: joined lines := by
      simp [joined]
    rw [hjoined, split_terminator_line h.1, ih h.2]

/-- A text that ends with the end of a line is the text of its lines. -/
theorem joined_split_terminator {text : Str} (h : text = [] ∨ text.getLast? = some '\n') :
    joined (split_terminator '\n' text) = text := by
  induction text with
  | nil => rfl
  | cons x rest ih =>
    have hrest : rest = [] ∨ rest.getLast? = some '\n' := by
      cases rest with
      | nil => exact .inl rfl
      | cons y rest =>
        rcases h with h | h
        · cases h
        · exact .inr (by rw [← h, List.getLast?_cons_cons])
    unfold split_terminator
    by_cases hx : x = '\n'
    · rw [if_pos hx]
      simpa [joined, hx] using ih hrest
    · rw [if_neg hx]
      have hih := ih hrest
      cases hsplit : split_terminator '\n' rest with
      | nil =>
        rw [hsplit] at hih
        obtain rfl : rest = [] := hih.symm
        rcases h with h | h
        · cases h
        · exact absurd (Option.some.inj h) hx
      | cons line lines =>
        rw [hsplit] at hih
        rw [← hih]
        simp [joined]

/-! ## Fields -/

/-- A letter, then letters, digits or hyphens. -/
def FieldName (name : Str) : Prop :=
  ∃ first rest, name = first :: rest ∧ first.isAlpha = true ∧
    (∀ c ∈ rest, c.isAlphanum = true ∨ c = '-') ∧ name.length ≤ MAX_FIELD_NAME_BYTES

/-- A field as it is written: what stands before and behind the colon, and the lines that continue
it. -/
structure Field where
  name : Str
  raw : Str
  more : List Str

namespace Field

def head (f : Field) : Str := f.name ++ ':' :: f.raw

def lines (f : Field) : List Str := f.head :: f.more

def key (f : Field) : Str := to_ascii_lowercase f.name

/-- The text behind the space. -/
def value (f : Field) : Str := f.raw.drop 1

structure Valid (f : Field) : Prop where
  name : FieldName f.name
  raw : f.raw = [] ∨ f.raw.head? = some ' '
  more : ∀ line ∈ f.more, line.head? = some ' ' ∨ line.head? = some '\t'
  selected : ∀ i, f.key = field_name i → f.more = [] ∧ valid_text f.value (bound i) = true

end Field

/-! ## Stanzas -/

/-- Fields whose names differ in more than the case of their letters. -/
structure Fields (fields : List Field) : Prop where
  valid : ∀ f ∈ fields, f.Valid
  count : fields.length ≤ MAX_FIELDS
  names : (fields.map Field.key).Nodup

def field_lines (fields : List Field) : List Str := fields.flatMap Field.lines

/-- The text of a record that a selected field gives. -/
def selected_text (row : OpkgStatusRecord) : Fin 4 → Str
  | 0 => row.name
  | 1 => row.version
  | 2 => row.arch
  | 3 => row.status

/-- The stanza has each of the selected fields, with these values. -/
def Says (fields : List Field) (row : OpkgStatusRecord) : Prop :=
  ∀ i, ∃ f ∈ fields, f.key = field_name i ∧ f.value = selected_text row i

/-- Stanzas, each with a blank line behind it, and any number of blank lines between them. -/
inductive Layout : List (List Field) → List Str → Prop
  | nil : Layout [] []
  | blank {stanzas : List (List Field)} {lines : List Str} :
      Layout stanzas lines → Layout stanzas (lines ++ [[]])
  | stanza {stanzas : List (List Field)} {lines : List Str} {fields : List Field} :
      Layout stanzas lines → fields ≠ [] →
        Layout (stanzas ++ [fields]) (lines ++ (field_lines fields ++ [[]]))

/-- The text is a status file of stanzas that give these records. -/
def Document (text : Str) (rows : List OpkgStatusRecord) : Prop :=
  ∃ stanzas lines, text = joined lines ∧ (∀ line ∈ lines, '\n' ∉ line ∧ len line ≤ MAX_LINE_BYTES) ∧
    Layout stanzas lines ∧ (∀ fields ∈ stanzas, Fields fields) ∧ List.Forall₂ Says stanzas rows

/-! ## Names -/

theorem is_alpha_iff {c : Char} : c.isAlpha = true ↔
    (65 ≤ c.toNat ∧ c.toNat ≤ 90) ∨ (97 ≤ c.toNat ∧ c.toNat ≤ 122) := by
  simp [Char.isAlpha, Char.isUpper, Char.isLower, UInt32.le_iff_toNat_le]

theorem is_digit_iff {c : Char} : c.isDigit = true ↔ 48 ≤ c.toNat ∧ c.toNat ≤ 57 := by
  simp [Char.isDigit, UInt32.le_iff_toNat_le]

theorem toNat_ofNat_ascii {n : Nat} (h : n < 128) : (UInt8.ofNat n).toNat = n := by
  rw [UInt8.toNat_ofNat']
  omega

theorem alphabetic_iff {n : Nat} (h : n < 128) : is_ascii_alphabetic (UInt8.ofNat n) = true ↔
    (65 ≤ n ∧ n ≤ 90) ∨ (97 ≤ n ∧ n ≤ 122) := by
  simp [is_ascii_alphabetic, UInt8.le_iff_toNat_le, toNat_ofNat_ascii h]

theorem digit_iff {n : Nat} (h : n < 128) :
    is_ascii_digit (UInt8.ofNat n) = true ↔ 48 ≤ n ∧ n ≤ 57 := by
  simp [is_ascii_digit, UInt8.le_iff_toNat_le, toNat_ofNat_ascii h]

/-- A test of bytes that only ASCII passes is one of characters. -/
theorem bytes_all_iff {P : UInt8 → Bool} (hP : ∀ b, P b = true → b.toNat < 128) {s : Str} :
    (bytes s).all P = true ↔ ∀ c ∈ s, c.toNat < 128 ∧ P (UInt8.ofNat c.toNat) = true := by
  induction s with
  | nil => simp
  | cons c s ih =>
    rw [bytes_cons, List.all_append, Bool.and_eq_true, ih, List.forall_mem_cons]
    refine and_congr_left' ?_
    by_cases hlow : c.toNat < 128
    · rw [bytes_low hlow]
      simp [hlow]
    · constructor
      · intro hall
        have hhigh := bytes_high (Nat.le_of_not_lt hlow)
        have hne : bytes [c] ≠ [] := by
          intro hnil
          have hlength := congrArg List.length hnil
          have hpos := c.utf8Size_pos
          simp [bytes] at hlength
          omega
        obtain ⟨b, rest, hb⟩ := List.exists_cons_of_ne_nil hne
        rw [hb] at hall hhigh
        have hlt := hP b (List.all_eq_true.1 hall b List.mem_cons_self)
        have hge := hhigh b List.mem_cons_self
        omega
      · intro h
        exact absurd h.1 hlow

theorem len_of_ascii {s : Str} (h : ∀ c ∈ s, c.toNat < 128) : len s = s.length := by
  induction s with
  | nil => rfl
  | cons c s ih =>
    rw [List.forall_mem_cons] at h
    rw [len, bytes_cons, bytes_low h.1, List.length_append, ← len, ih h.2, List.length_singleton,
      List.length_cons, Nat.add_comm]

/-- The byte of a name is a letter, a digit or a hyphen. -/
theorem name_char_iff {c : Char} : (c.toNat < 128 ∧
    (is_ascii_alphanumeric (UInt8.ofNat c.toNat) || UInt8.ofNat c.toNat = 45) = true) ↔
      (c.isAlphanum = true ∨ c = '-') := by
  have hhyphen : c = '-' ↔ c.toNat = 45 := by
    rw [← Char.toNat_inj]
    rfl
  simp only [Char.isAlphanum, is_ascii_alphanumeric, Bool.or_eq_true, is_alpha_iff, is_digit_iff,
    hhyphen, decide_eq_true_eq, ← UInt8.toNat_inj]
  have hconst : (45 : UInt8).toNat = 45 := by decide
  constructor
  · intro h
    obtain ⟨hlow, h⟩ := h
    rw [alphabetic_iff hlow, digit_iff hlow, toNat_ofNat_ascii hlow, hconst] at h
    exact h
  · intro h
    have hlow : c.toNat < 128 := by omega
    rw [alphabetic_iff hlow, digit_iff hlow, toNat_ofNat_ascii hlow, hconst]
    exact ⟨hlow, h⟩

theorem name_byte_low {b : UInt8} (h : (is_ascii_alphanumeric b || b = 45) = true) :
    b.toNat < 128 := by
  have hn : UInt8.ofNat b.toNat = b := UInt8.ofNat_toNat
  simp only [is_ascii_alphanumeric, is_ascii_alphabetic, is_ascii_digit, Bool.or_eq_true,
    Bool.and_eq_true, decide_eq_true_eq, UInt8.le_iff_toNat_le, ← UInt8.toNat_inj] at h
  have hconst : (57 : UInt8).toNat = 57 ∧ (90 : UInt8).toNat = 90 ∧ (122 : UInt8).toNat = 122 ∧
    (45 : UInt8).toNat = 45 := by decide
  omega

theorem valid_name_iff {name : Str} : valid_name name = true ↔ FieldName name := by
  unfold valid_name
  simp only [Bool.and_eq_true, decide_eq_true_eq]
  rw [bytes_all_iff fun b => name_byte_low]
  simp only [name_char_iff]
  have hascii : (∀ c ∈ name, c.isAlphanum = true ∨ c = '-') → ∀ c ∈ name, c.toNat < 128 :=
    fun h c hc => (name_char_iff.2 (h c hc)).1
  constructor
  · intro h
    obtain ⟨⟨⟨hne, hlen⟩, hhead⟩, hall⟩ := h
    rw [len_of_ascii (hascii hall)] at hlen
    cases name with
    | nil => exact absurd rfl hne
    | cons first rest =>
      have hlow := hascii hall first List.mem_cons_self
      rw [bytes_cons, bytes_low hlow] at hhead
      refine ⟨first, rest, rfl, ?_, fun c hc => hall c (List.mem_cons_of_mem _ hc), hlen⟩
      rw [is_alpha_iff, ← alphabetic_iff hlow]
      simpa using hhead
  · intro h
    obtain ⟨first, rest, rfl, hfirst, hrest, hlen⟩ := h
    have hall : ∀ c ∈ first :: rest, c.isAlphanum = true ∨ c = '-' := by
      rw [List.forall_mem_cons]
      exact ⟨.inl (by rw [Char.isAlphanum, hfirst]; rfl), hrest⟩
    have hlow := hascii hall first List.mem_cons_self
    refine ⟨⟨⟨by simp, by rw [len_of_ascii (hascii hall)]; exact hlen⟩, ?_⟩, hall⟩
    rw [bytes_cons, bytes_low hlow]
    rw [is_alpha_iff, ← alphabetic_iff hlow] at hfirst
    simpa using hfirst

theorem FieldName.no_colon {name : Str} (h : FieldName name) : ':' ∉ name := by
  obtain ⟨first, rest, rfl, hfirst, hrest, -⟩ := h
  rw [List.mem_cons, not_or]
  constructor
  · rintro rfl
    exact absurd hfirst (by decide)
  · intro hin
    rcases hrest ':' hin with h | h
    · exact absurd h (by decide)
    · exact absurd h (by decide)

end openwrt_mcp_device_codec.packages.opkg
