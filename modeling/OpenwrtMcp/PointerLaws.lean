-- The pointers of a projection. A pointer that is accepted is the encoding of the segments that
-- it decodes to, so that it names one path and no other pointer names it.
import OpenwrtMcp.Decimals
import OpenwrtMcp.Projection

open decimals json programs text

namespace openwrt_mcp_core.projection

/-! ## The encoding -/

/-- What a character of a segment is in a pointer. -/
def encode_char (c : Char) : Str :=
  if c = '~' then "~0".toList else if c = '/' then "~1".toList else [c]

def encode_segment (segment : Str) : Str := segment.flatMap encode_char

/-- Parts with a slash before each of them. -/
def slashed (parts : List Str) : Str := parts.flatMap fun part => '/' :: part

def encode_pointer (path : List Str) : Str := slashed (path.map encode_segment)

@[simp] theorem encode_segment_nil : encode_segment [] = [] := rfl

@[simp] theorem encode_segment_cons (c : Char) (segment : Str) :
    encode_segment (c :: segment) = encode_char c ++ encode_segment segment := rfl

@[simp] theorem slashed_nil : slashed [] = [] := rfl

@[simp] theorem slashed_cons (part : Str) (parts : List Str) :
    slashed (part :: parts) = '/' :: (part ++ slashed parts) := rfl

@[simp] theorem encode_tilde : encode_char '~' = ['~', '0'] := rfl

@[simp] theorem encode_slash : encode_char '/' = ['~', '1'] := rfl

theorem encode_other {c : Char} (htilde : c ≠ '~') (hslash : c ≠ '/') : encode_char c = [c] := by
  rw [encode_char, if_neg htilde, if_neg hslash]

theorem slash_not_encoded (segment : Str) : '/' ∉ encode_segment segment := by
  induction segment with
  | nil => simp
  | cons c segment ih =>
    rw [encode_segment_cons, List.mem_append, not_or]
    refine ⟨?_, ih⟩
    by_cases htilde : c = '~'
    · simp [htilde]
    by_cases hslash : c = '/'
    · simp [hslash]
    rw [encode_other htilde hslash]
    simpa using Ne.symm hslash

theorem nul_encoded (segment : Str) : '\x00' ∈ encode_segment segment ↔ '\x00' ∈ segment := by
  induction segment with
  | nil => simp
  | cons c segment ih =>
    rw [encode_segment_cons, List.mem_append, List.mem_cons, ih]
    by_cases htilde : c = '~'
    · simp [htilde]
    by_cases hslash : c = '/'
    · simp [hslash]
    rw [encode_other htilde hslash, List.mem_singleton]

/-! ## The two replacements undo the encoding -/

theorem replace_other {a b c x : Char} (h : x ≠ a) (rest : Str) :
    replace_pair a b c (x :: rest) = x :: replace_pair a b c rest := by
  cases rest with
  | nil => rfl
  | cons y rest => rw [replace_pair, if_neg (fun hboth => h hboth.1)]

@[simp] theorem replace_found (a b c : Char) (rest : Str) :
    replace_pair a b c (a :: b :: rest) = c :: replace_pair a b c rest := by
  rw [replace_pair, if_pos ⟨rfl, rfl⟩]

theorem replace_half {a b c y : Char} (hb : y ≠ b) (ha : y ≠ a) (rest : Str) :
    replace_pair a b c (a :: y :: rest) = a :: y :: replace_pair a b c rest := by
  rw [replace_pair, if_neg (fun hboth => hb hboth.2), replace_other ha]

/-- What is left once the slashes are back. -/
def tildes (segment : Str) : Str := segment.flatMap fun c => if c = '~' then ['~', '0'] else [c]

@[simp] theorem tildes_cons (c : Char) (segment : Str) :
    tildes (c :: segment) = (if c = '~' then ['~', '0'] else [c]) ++ tildes segment := rfl

theorem replace_slashes (segment : Str) :
    replace_pair '~' '1' '/' (encode_segment segment) = tildes segment := by
  induction segment with
  | nil => rfl
  | cons c segment ih =>
    rw [encode_segment_cons, tildes_cons, ← ih]
    by_cases htilde : c = '~'
    · rw [htilde, encode_tilde, if_pos rfl]
      exact replace_half (by decide) (by decide) _
    by_cases hslash : c = '/'
    · rw [hslash, encode_slash, if_neg (by decide)]
      exact replace_found _ _ _ _
    rw [encode_other htilde hslash, if_neg htilde]
    exact replace_other htilde _

theorem replace_tildes (segment : Str) : replace_pair '~' '0' '~' (tildes segment) = segment := by
  induction segment with
  | nil => rfl
  | cons c segment ih =>
    rw [tildes_cons]
    by_cases htilde : c = '~'
    · rw [htilde, if_pos rfl, List.cons_append, List.cons_append, List.nil_append, replace_found,
        ih]
    · rw [if_neg htilde, List.singleton_append, replace_other htilde, ih]

theorem decode_encode (segment : Str) : decode_segment (encode_segment segment) = segment := by
  rw [decode_segment, replace_slashes, replace_tildes]

/-! ## The parts that are accepted -/

theorem escapes_plain {front : List UInt8} (h : ∀ b ∈ front, b ≠ 126) (rest : List UInt8) :
    escapes (front ++ rest) = escapes rest := by
  induction front with
  | nil => rfl
  | cons b front ih =>
    rw [List.forall_mem_cons] at h
    rw [List.cons_append, ← ih h.2]
    cases hrest : front ++ rest with
    | nil => simp [escapes, h.1]
    | cons next rest => rw [escapes, if_neg h.1]

/-- Only the tilde has its byte. -/
theorem plain_bytes {c : Char} (h : c ≠ '~') : ∀ b ∈ bytes [c], b ≠ 126 := by
  rintro b hb rfl
  rcases Nat.lt_or_ge c.toNat 128 with hlow | hhigh
  · rw [bytes_low hlow, List.mem_singleton] at hb
    have hnat := congrArg UInt8.toNat hb
    rw [UInt8.toNat_ofNat', Nat.mod_eq_of_lt (by omega)] at hnat
    exact h (Char.toNat_inj.1 hnat.symm)
  · exact absurd (bytes_high hhigh 126 hb) (by decide)

theorem escapes_cons {c : Char} (h : c ≠ '~') (rest : Str) :
    escapes (bytes (c :: rest)) = escapes (bytes rest) := by
  rw [bytes_cons, escapes_plain (plain_bytes h)]

theorem bytes_zero (rest : Str) : bytes ('0' :: rest) = 48 :: bytes rest := rfl

theorem bytes_one (rest : Str) : bytes ('1' :: rest) = 49 :: bytes rest := rfl

theorem bytes_tilde (rest : Str) : bytes ('~' :: rest) = 126 :: bytes rest := rfl

/-- A character whose first byte is an ASCII one is that character. -/
theorem first_byte {c d : Char} (hd : d.toNat < 128) {rest : Str} {b : UInt8} {more : List UInt8}
    (h : bytes (c :: rest) = b :: more) (hb : b.toNat = d.toNat) : c = d := by
  rw [bytes_cons] at h
  rcases Nat.lt_or_ge c.toNat 128 with hlow | hhigh
  · rw [bytes_low hlow] at h
    have hbyte := congrArg UInt8.toNat (List.cons.inj h).1
    rw [UInt8.toNat_ofNat', Nat.mod_eq_of_lt (by omega), hb] at hbyte
    exact Char.toNat_inj.1 hbyte
  · have hfirst := bytes_high hhigh
    cases hc : bytes [c] with
    | nil => simp [bytes, String.utf8EncodeChar_ne_nil] at hc
    | cons x xs =>
      rw [hc] at h hfirst
      have hx := (List.cons.inj h).1
      have hge := hfirst x (by simp)
      rw [hx, hb] at hge
      omega

theorem escapes_tilde {rest : Str} (h : escapes (bytes ('~' :: rest)) = true) :
    ∃ c tail, rest = c :: tail ∧ (c = '0' ∨ c = '1') ∧ escapes (bytes tail) = true := by
  rw [bytes_tilde] at h
  cases rest with
  | nil => cases h
  | cons c tail =>
    cases hbytes : bytes (c :: tail) with
    | nil => simp [bytes, String.utf8EncodeChar_ne_nil] at hbytes
    | cons b more =>
      rw [hbytes, escapes, if_pos rfl] at h
      simp only [Bool.and_eq_true, Bool.or_eq_true, decide_eq_true_eq] at h
      obtain ⟨rfl | rfl, hmore⟩ := h
      · obtain rfl := first_byte (d := '0') (by decide) hbytes rfl
        rw [bytes_zero, List.cons.injEq] at hbytes
        exact ⟨'0', tail, rfl, .inl rfl, hbytes.2 ▸ hmore⟩
      · obtain rfl := first_byte (d := '1') (by decide) hbytes rfl
        rw [bytes_one, List.cons.injEq] at hbytes
        exact ⟨'1', tail, rfl, .inr rfl, hbytes.2 ▸ hmore⟩

theorem escapes_encode (segment : Str) : escapes (bytes (encode_segment segment)) = true := by
  induction segment with
  | nil => rfl
  | cons c segment ih =>
    rw [encode_segment_cons]
    by_cases htilde : c = '~'
    · rw [htilde, encode_tilde]
      simpa [bytes_tilde, bytes_zero, escapes] using ih
    by_cases hslash : c = '/'
    · rw [hslash, encode_slash]
      simpa [bytes_tilde, bytes_one, escapes] using ih
    rw [encode_other htilde hslash, List.singleton_append, escapes_cons htilde, ih]

/-- A part between slashes is accepted when it is the encoding of a segment. -/
theorem encoded_of_escapes (n : Nat) (part : Str) (hn : part.length ≤ n) (hslash : '/' ∉ part)
    (h : escapes (bytes part) = true) : ∃ segment, part = encode_segment segment := by
  induction n generalizing part with
  | zero =>
    rw [Nat.le_zero, List.length_eq_zero_iff] at hn
    exact ⟨[], hn⟩
  | succ n ih =>
    cases part with
    | nil => exact ⟨[], rfl⟩
    | cons c rest =>
      rw [List.mem_cons, not_or] at hslash
      rw [List.length_cons] at hn
      by_cases htilde : c = '~'
      · subst htilde
        obtain ⟨d, tail, rfl, hd, htail⟩ := escapes_tilde h
        rw [List.mem_cons, not_or] at hslash
        rw [List.length_cons] at hn
        obtain ⟨segment, rfl⟩ := ih tail (by omega) hslash.2.2 htail
        rcases hd with rfl | rfl
        · exact ⟨'~' :: segment, by rw [encode_segment_cons, encode_tilde]; rfl⟩
        · exact ⟨'/' :: segment, by rw [encode_segment_cons, encode_slash]; rfl⟩
      · rw [escapes_cons htilde] at h
        obtain ⟨segment, rfl⟩ := ih rest (by omega) hslash.2 h
        exact ⟨c :: segment, by
          rw [encode_segment_cons, encode_other htilde (Ne.symm hslash.1)]; rfl⟩

/-! ## The parts of a pointer -/

theorem split_part {part : Str} {parts : List Str} (h : '/' ∉ part)
    (hparts : ∀ p ∈ parts, '/' ∉ p) : (part ++ slashed parts).splitOn '/' = part :: parts := by
  induction parts generalizing part with
  | nil => rw [slashed_nil, List.append_nil, List.splitOn_eq_singleton h]
  | cons next parts ih =>
    rw [List.forall_mem_cons] at hparts
    rw [slashed_cons, List.splitOn_append_cons_self_of_not_mem h, ih hparts.1 hparts.2]

theorem split_slashed {parts : List Str} (hparts : ∀ p ∈ parts, '/' ∉ p) :
    ((slashed parts).splitOn '/').drop 1 = parts := by
  rw [← List.nil_append (slashed parts), split_part (by simp) hparts]
  rfl

/-- Any text is a part and more parts with slashes before them. -/
theorem exists_parts (s : Str) :
    ∃ part parts, '/' ∉ part ∧ (∀ p ∈ parts, '/' ∉ p) ∧ s = part ++ slashed parts := by
  induction s with
  | nil => exact ⟨[], [], by simp, by simp, rfl⟩
  | cons c s ih =>
    obtain ⟨part, parts, hpart, hparts, rfl⟩ := ih
    by_cases hc : c = '/'
    · refine ⟨[], part :: parts, by simp, List.forall_mem_cons.2 ⟨hpart, hparts⟩, ?_⟩
      rw [hc, slashed_cons, List.nil_append]
    · refine ⟨c :: part, parts, ?_, hparts, rfl⟩
      rw [List.mem_cons, not_or]
      exact ⟨Ne.symm hc, hpart⟩

theorem pointer_parts {pointer : Str} (h : pointer = [] ∨ pointer.head? = some '/') :
    ∃ parts, (∀ p ∈ parts, '/' ∉ p) ∧ pointer = slashed parts := by
  rcases h with rfl | h
  · exact ⟨[], by simp, rfl⟩
  · obtain ⟨rest, rfl⟩ := List.head?_eq_some_iff.1 h
    obtain ⟨part, parts, hpart, hparts, rfl⟩ := exists_parts rest
    exact ⟨part :: parts, List.forall_mem_cons.2 ⟨hpart, hparts⟩, rfl⟩

theorem push_segments_ok {parts result path : List Str} (hle : result.length ≤ MAX_POINTER_DEPTH) :
    push_segments parts result = .ok path ↔
      result.length + parts.length ≤ MAX_POINTER_DEPTH ∧
        (∀ part ∈ parts, escapes (bytes part) = true) ∧
        path = result ++ parts.map decode_segment := by
  induction parts generalizing result with
  | nil =>
    rw [push_segments, Except.ok.injEq, List.length_nil, Nat.add_zero, List.map_nil,
      List.append_nil, eq_comm]
    simp only [hle, List.not_mem_nil, false_imp_iff, implies_true, true_and]
  | cons part parts ih =>
    unfold push_segments
    by_cases hfull : result.length = MAX_POINTER_DEPTH
    · rw [if_pos hfull, List.length_cons]
      constructor
      · intro h
        cases h
      · rintro ⟨hlen, -⟩
        omega
    rw [if_neg hfull]
    by_cases hpart : escapes (bytes part) = true
    · rw [if_neg (by simp [hpart]), ih (by rw [List.length_append, List.length_singleton]; omega),
        List.length_append, List.length_singleton, List.forall_mem_cons, List.map_cons,
        List.length_cons, List.append_assoc, Nat.add_assoc, Nat.add_comm 1]
      simp [hpart]
    · rw [if_pos (by simp [hpart]), List.forall_mem_cons]
      simp [hpart]

theorem encoded_parts {parts : List Str} (hparts : ∀ p ∈ parts, '/' ∉ p)
    (h : ∀ part ∈ parts, escapes (bytes part) = true) :
    parts = (parts.map decode_segment).map encode_segment := by
  rw [List.map_map]
  refine (List.map_id parts).symm.trans (List.map_congr_left fun part hpart => ?_)
  obtain ⟨segment, rfl⟩ :=
    encoded_of_escapes part.length part (Nat.le_refl _) (hparts part hpart) (h part hpart)
  simp [decode_encode]

theorem nul_in_pointer (path : List Str) :
    '\x00' ∈ encode_pointer path ↔ ∃ segment ∈ path, '\x00' ∈ segment := by
  unfold encode_pointer slashed
  simp [nul_encoded]

/-- What is accepted is the encoding of what it decodes to. -/
theorem pointer_segments_ok {pointer : Str} {root_allowed : Bool} {path : List Str} :
    pointer_segments pointer root_allowed = .ok path ↔
      pointer = encode_pointer path ∧ (path ≠ [] ∨ root_allowed = true) ∧
        path.length ≤ MAX_POINTER_DEPTH ∧ (∀ segment ∈ path, '\x00' ∉ segment) ∧
        len pointer ≤ MAX_POINTER_BYTES := by
  have hencoded : ∀ p ∈ path.map encode_segment, '/' ∉ p := by
    intro p hp
    obtain ⟨segment, -, rfl⟩ := List.mem_map.1 hp
    exact slash_not_encoded segment
  constructor
  · intro h
    unfold pointer_segments at h
    split at h
    case isFalse => cases h
    rename_i hstart
    split at h
    case isTrue => cases h
    rename_i hbound
    rw [Bool.or_eq_true, decide_eq_true_eq, Bool.and_eq_true, decide_eq_true_eq] at hstart
    rw [Bool.or_eq_true, decide_eq_true_eq, decide_eq_true_eq, not_or, not_lt] at hbound
    obtain ⟨parts, hslash, rfl⟩ := pointer_parts (hstart.imp_left And.left)
    rw [split_slashed hslash] at h
    obtain ⟨hlen, hescapes, rfl⟩ := (push_segments_ok (Nat.zero_le _)).1 h
    have hparts := encoded_parts hslash hescapes
    have hpointer : slashed parts = encode_pointer ([] ++ parts.map decode_segment) := by
      rw [List.nil_append, encode_pointer, ← hparts]
    refine ⟨hpointer, ?_, by simpa using hlen, ?_, hbound.1⟩
    · rcases hstart with hroot | hslashed
      · exact .inr hroot.2
      · refine .inl fun hnil => ?_
        rw [hpointer, hnil] at hslashed
        cases hslashed
    · have hnul := hbound.2
      rw [hpointer, nul_in_pointer] at hnul
      simpa using hnul
  · rintro ⟨rfl, hroot, hlen, hnul, hbytes⟩
    have hstart : (decide (encode_pointer path = []) && root_allowed ||
        decide ((encode_pointer path).head? = some '/')) = true := by
      cases path with
      | nil => simpa [encode_pointer] using hroot
      | cons segment path => simp [encode_pointer]
    have hbound : ¬ (decide (len (encode_pointer path) > MAX_POINTER_BYTES) ||
        decide ('\x00' ∈ encode_pointer path)) = true := by
      rw [Bool.or_eq_true, decide_eq_true_eq, decide_eq_true_eq, nul_in_pointer]
      rintro (hlong | ⟨segment, hmem, hzero⟩)
      · omega
      · exact hnul segment hmem hzero
    unfold pointer_segments
    rw [if_pos hstart, if_neg hbound, encode_pointer, split_slashed hencoded,
      push_segments_ok (Nat.zero_le _)]
    refine ⟨by simpa using hlen, ?_, ?_⟩
    · intro part hpart
      obtain ⟨segment, -, rfl⟩ := List.mem_map.1 hpart
      exact escapes_encode segment
    · rw [List.nil_append, List.map_map]
      refine (List.map_id path).symm.trans (List.map_congr_left fun segment _ => ?_)
      simp [decode_encode]

theorem segments_encode {pointer : Str} {root_allowed : Bool} {path : List Str}
    (h : pointer_segments pointer root_allowed = .ok path) : segments pointer = path := by
  obtain ⟨rfl, -⟩ := pointer_segments_ok.1 h
  have hencoded : ∀ p ∈ path.map encode_segment, '/' ∉ p := by
    intro p hp
    obtain ⟨segment, -, rfl⟩ := List.mem_map.1 hp
    exact slash_not_encoded segment
  rw [segments, encode_pointer, split_slashed hencoded, List.map_map]
  refine (List.map_congr_left fun segment _ => ?_).trans (List.map_id path)
  simp [decode_encode]

/-! ## Tildes -/

/-- Every tilde stands before a zero or a one. -/
def Escaped (s : Str) : Prop :=
  ∀ front rest, s = front ++ '~' :: rest → rest.head? = some '0' ∨ rest.head? = some '1'

theorem escaped_cons {c : Char} {s : Str} (hc : c ≠ '~') (h : Escaped s) : Escaped (c :: s) := by
  intro front rest heq
  cases front with
  | nil => exact absurd (List.cons.inj heq).1 hc
  | cons d front => exact h front rest (List.cons.inj heq).2

theorem escaped_pair {c : Char} {s : Str} (hc : c = '0' ∨ c = '1') (h : Escaped s) :
    Escaped ('~' :: c :: s) := by
  intro front rest heq
  cases front with
  | nil =>
    obtain ⟨-, rfl⟩ := List.cons.inj heq
    simpa using hc
  | cons d front =>
    have hplain : c ≠ '~' := by
      rcases hc with rfl | rfl
      · decide
      · decide
    exact escaped_cons hplain h front rest (List.cons.inj heq).2

theorem escaped_segment (segment : Str) {s : Str} (h : Escaped s) :
    Escaped (encode_segment segment ++ s) := by
  induction segment with
  | nil => exact h
  | cons c segment ih =>
    rw [encode_segment_cons, List.append_assoc]
    by_cases htilde : c = '~'
    · rw [htilde, encode_tilde]
      exact escaped_pair (.inl rfl) ih
    by_cases hslash : c = '/'
    · rw [hslash, encode_slash]
      exact escaped_pair (.inr rfl) ih
    rw [encode_other htilde hslash]
    exact escaped_cons htilde ih

theorem escaped_pointer (path : List Str) : Escaped (encode_pointer path) := by
  unfold encode_pointer
  induction path with
  | nil =>
    intro front rest heq
    exact absurd heq.symm (by simp)
  | cons segment path ih =>
    rw [List.map_cons, slashed_cons]
    exact escaped_cons (by decide) (escaped_segment segment ih)

theorem push_segments_error {parts result : List Str} {e : CoreError}
    (h : push_segments parts result = .error e) : e = .InvalidDefinition := by
  induction parts generalizing result with
  | nil => cases h
  | cons part parts ih =>
    unfold push_segments at h
    split at h
    · cases h
      rfl
    split at h
    · cases h
      rfl
    · exact ih h

theorem pointer_segments_error {pointer : Str} {root_allowed : Bool} {e : CoreError}
    (h : pointer_segments pointer root_allowed = .error e) : e = .InvalidDefinition := by
  unfold pointer_segments at h
  split at h
  · split at h
    · cases h
      rfl
    · exact push_segments_error h
  · cases h
    rfl

theorem tilde_rejected {front rest : Str} (hzero : rest.head? ≠ some '0')
    (hone : rest.head? ≠ some '1') (root_allowed : Bool) :
    pointer_segments (front ++ '~' :: rest) root_allowed = .error .InvalidDefinition := by
  cases h : pointer_segments (front ++ '~' :: rest) root_allowed with
  | error e => rw [pointer_segments_error h]
  | ok path =>
    have hpointer := (pointer_segments_ok.1 h).1
    rcases escaped_pointer path front rest hpointer.symm with hhead | hhead
    · exact absurd hhead hzero
    · exact absurd hhead hone

/-! ## Where a path leads -/

/-- One step down: to the member of an object with the name, or to the item of an array with the
index in decimal. An index is a `usize`. -/
inductive Down : Value → Str → Value → Prop
  | member {fields : Map} {key : Str} {next : Value} : fields.get key = some next →
      Down (.Object fields) key next
  | item {items : List Value} {i : Nat} {next : Value} : i < 2 ^ 64 → items[i]? = some next →
      Down (.Array items) (decimal i) next

/-- There is no such member or item. -/
inductive Absent : Value → Str → Prop
  | member {fields : Map} {key : Str} : fields.get key = none → Absent (.Object fields) key
  | item {items : List Value} {i : Nat} : (i < 2 ^ 64 → items[i]? = none) →
      Absent (.Array items) (decimal i)

/-- There is no step of this kind: a scalar holds no value, and an array has only indexes. -/
inductive Malformed : Value → Str → Prop
  | scalar {v : Value} {key : Str} : as_object v = none → as_array v = none → Malformed v key
  | array {items : List Value} {key : Str} : (∀ i, key ≠ decimal i) → Malformed (.Array items) key

/-- The path leads from one value down to another. -/
inductive Leads : Value → List Str → Value → Prop
  | here {v : Value} : Leads v [] v
  | down {v next last : Value} {key : Str} {rest : List Str} : Down v key next →
      Leads next rest last → Leads v (key :: rest) last

/-- The text of an index is the only one that is read as it. -/
theorem array_index_iff {key : Str} {i : Nat} : array_index key = some i ↔ key = decimal i := by
  constructor
  · intro h
    unfold array_index at h
    split at h
    · cases h
    rename_i hkey
    simp only [Bool.or_eq_true, not_or, Bool.and_eq_true, decide_eq_true_eq, Bool.not_eq_true',
      Bool.not_eq_false] at hkey
    obtain ⟨⟨hne, hzero⟩, hall⟩ := hkey
    have hdigits := digits_of_bytes hall
    rw [len_digits hdigits] at hzero
    have hlen : key.length ≠ 0 := mt List.length_eq_zero_iff.1 hne
    have hhead : key.length = 1 ∨ key.head? ≠ some '0' := by
      by_cases hone : key.length = 1
      · exact .inl hone
      · exact .inr fun hhead => hzero ⟨by omega, hhead⟩
    rw [← Option.some.inj h, decimal_parse_digits hne hdigits hhead]
  · rintro rfl
    have hdigits := fun c => decimal_digits (n := i) (c := c)
    have hzero : ¬ (len (decimal i) > 1 ∧ (decimal i).head? = some '0') := by
      rintro ⟨hlen, hhead⟩
      rcases Nat.eq_zero_or_pos i with rfl | hpos
      · exact absurd hlen (by decide)
      · exact head_decimal_pos hpos hhead
    unfold array_index
    rw [if_neg, parse_decimal]
    simp only [Bool.or_eq_true, not_or, Bool.and_eq_true, decide_eq_true_eq, Bool.not_eq_true',
      Bool.not_eq_false]
    exact ⟨⟨decimal_ne_nil i, hzero⟩, bytes_digits hdigits⟩

/-- What one turn of the loop of `lookup` finds. -/
def child (current : Value) (key : Str) : Except CoreError (Option Value) :=
  match current with
  | .Object fields => .ok (Map.get fields key)
  | .Array items =>
    match array_index key with
    | none => .error .InvalidOutput
    | some index => .ok (if index < 2 ^ 64 then items[index]? else none)
  | _ => .error .InvalidOutput

theorem lookup_segments_cons (current : Value) (key : Str) (rest : List Str) :
    lookup_segments current (key :: rest) = match child current key with
      | .error e => .error e
      | .ok none => .ok none
      | .ok (some next) => lookup_segments next rest := by
  cases current with
  | Object fields =>
    simp only [lookup_segments, child]
    cases Map.get fields key <;> rfl
  | Array items =>
    simp only [lookup_segments, child]
    cases array_index key with
    | none => rfl
    | some index =>
      simp only
      cases (if index < 2 ^ 64 then items[index]? else none) <;> rfl
  | _ => rfl

theorem child_some (current : Value) (key : Str) (next : Value) :
    child current key = .ok (some next) ↔ Down current key next := by
  constructor
  · intro h
    cases current with
    | Object fields => exact .member (Except.ok.inj h)
    | Array items =>
      simp only [child] at h
      cases hindex : array_index key with
      | none => simp [hindex] at h
      | some i =>
        rw [hindex] at h
        obtain rfl := array_index_iff.1 hindex
        have hitem := Except.ok.inj h
        split at hitem
        case isTrue hi => exact .item hi hitem
        case isFalse => cases hitem
    | _ => cases h
  · intro h
    cases h with
    | member h => rw [child, h]
    | item hi h =>
      simp only [child, array_index_iff.2 rfl]
      rw [if_pos hi, h]

theorem child_none (current : Value) (key : Str) :
    child current key = .ok none ↔ Absent current key := by
  constructor
  · intro h
    cases current with
    | Object fields => exact .member (Except.ok.inj h)
    | Array items =>
      simp only [child] at h
      cases hindex : array_index key with
      | none => simp [hindex] at h
      | some i =>
        rw [hindex] at h
        obtain rfl := array_index_iff.1 hindex
        refine .item fun hi => ?_
        have hitem := Except.ok.inj h
        rwa [if_pos hi] at hitem
    | _ => cases h
  · intro h
    cases h with
    | member h => rw [child, h]
    | @item items i h =>
      simp only [child, array_index_iff.2 rfl]
      split
      case isTrue hi => rw [h hi]
      case isFalse => rfl

theorem child_error (current : Value) (key : Str) (e : CoreError) :
    child current key = .error e ↔ e = .InvalidOutput ∧ Malformed current key := by
  constructor
  · intro h
    cases current with
    | Object fields => cases h
    | Array items =>
      simp only [child] at h
      cases hindex : array_index key with
      | none =>
        rw [hindex] at h
        cases h
        refine ⟨rfl, .array fun i heq => ?_⟩
        rw [array_index_iff.2 heq] at hindex
        cases hindex
      | some i =>
        rw [hindex] at h
        cases h
    | _ =>
      cases h
      exact ⟨rfl, .scalar rfl rfl⟩
  · rintro ⟨rfl, h⟩
    cases h with
    | scalar hobject harray =>
      cases current with
      | Object fields => cases hobject
      | Array items => cases harray
      | _ => rfl
    | array h =>
      have hindex : array_index key = none := by
        cases hindex : array_index key with
        | none => rfl
        | some i => exact absurd (array_index_iff.1 hindex) (h i)
      simp only [child, hindex]

/-- The path is there as far as a value with this key to come. -/
def StopsAt (P : Value → Str → Prop) (source : Value) (path : List Str) : Prop :=
  ∃ front key rest current, path = front ++ key :: rest ∧ Leads source front current ∧ P current key

theorem stopsAt_cons {P : Value → Str → Prop} {source : Value} {key : Str} {path : List Str} :
    StopsAt P source (key :: path) ↔
      P source key ∨ ∃ next, Down source key next ∧ StopsAt P next path := by
  constructor
  · rintro ⟨front, stop, rest, current, heq, hleads, hp⟩
    cases hleads with
    | here =>
      obtain ⟨rfl, -⟩ := List.cons.inj heq
      exact .inl hp
    | @down _ next _ first front hdown hleads =>
      obtain ⟨rfl, hpath⟩ := List.cons.inj heq
      exact .inr ⟨next, hdown, front, stop, rest, current, hpath, hleads, hp⟩
  · rintro (hp | ⟨next, hdown, front, stop, rest, current, rfl, hleads, hp⟩)
    · exact ⟨[], key, path, source, rfl, .here, hp⟩
    · exact ⟨key :: front, stop, rest, current, rfl, .down hdown hleads, hp⟩

theorem leads_cons {source last : Value} {key : Str} {path : List Str} :
    Leads source (key :: path) last ↔ ∃ next, Down source key next ∧ Leads next path last := by
  constructor
  · rintro (_ | ⟨hdown, hleads⟩)
    exact ⟨_, hdown, hleads⟩
  · rintro ⟨next, hdown, hleads⟩
    exact .down hdown hleads

/-- The lookup follows the path: it ends at the value that the path leads to, at the first key
that is absent, or with an error at the first one that makes no sense. -/
structure Follows (source : Value) (path : List Str) (found : Except CoreError (Option Value)) :
    Prop where
  leads : ∀ v, found = .ok (some v) ↔ Leads source path v
  absent : found = .ok none ↔ StopsAt Absent source path
  malformed : ∀ e, found = .error e ↔ e = .InvalidOutput ∧ StopsAt Malformed source path

theorem lookup_follows (source : Value) (path : List Str) :
    Follows source path (lookup_segments source path) := by
  induction path generalizing source with
  | nil =>
    have hstops : ∀ P, ¬ StopsAt P source [] := by
      rintro P ⟨front, key, rest, current, heq, -⟩
      simp at heq
    have hlookup : lookup_segments source [] = .ok (some source) := by
      cases source <;> rfl
    rw [hlookup]
    refine ⟨fun v => ⟨?_, ?_⟩, ?_, fun e => ?_⟩
    · rintro h
      cases h
      exact .here
    · intro h
      cases h
      rfl
    · simp [hstops]
    · simp [hstops]
  | cons key path ih =>
    rw [lookup_segments_cons]
    have hsome := child_some source key
    have hnone := child_none source key
    have herror := child_error source key
    cases hchild : child source key with
    | error e =>
      simp only [hchild, Except.error.injEq, reduceCtorEq, false_iff] at hsome hnone herror
      refine ⟨fun v => ?_, ?_, fun e' => ?_⟩
      · simp [leads_cons, hsome]
      · simp [stopsAt_cons, hsome, hnone]
      · simp [stopsAt_cons, hsome, herror]
    | ok found =>
      cases found with
      | none =>
        simp only [hchild, Except.ok.injEq, reduceCtorEq, false_iff, true_iff] at hsome hnone herror
        refine ⟨fun v => ?_, ?_, fun e' => ?_⟩
        · simp [leads_cons, hsome]
        · simp [stopsAt_cons, hnone]
        · have hmalformed := herror .InvalidOutput
          simp only [true_and] at hmalformed
          simp [stopsAt_cons, hsome, hmalformed]
      | some next =>
        simp only [hchild, Except.ok.injEq, Option.some.injEq, reduceCtorEq, false_iff]
          at hsome hnone herror
        have hmalformed := herror .InvalidOutput
        simp only [true_and] at hmalformed
        refine ⟨fun v => ?_, ?_, fun e' => ?_⟩
        · simp [leads_cons, ← hsome, (ih next).leads]
        · simp [stopsAt_cons, ← hsome, hnone, (ih next).absent]
        · simp [stopsAt_cons, ← hsome, hmalformed, (ih next).malformed]

/-- A path of short enough segments has a pointer, which is read back as the path. A pointer with
a tilde that is no escape is not accepted, no two pointers have the same path, and a lookup goes
along the path of its pointer. The root is a pointer only where it may be one. -/
theorem a_pointer_names_one_path :
    (∀ (path : List Str) (root_allowed : Bool), path.length ≤ 8 →
      (∀ segment ∈ path, '\x00' ∉ segment) → len (encode_pointer path) ≤ 512 →
      (path = [] → root_allowed = true) →
      pointer_segments (encode_pointer path) root_allowed = .ok path) ∧
    (∀ (front rest : Str) (root_allowed : Bool), rest.head? ≠ some '0' → rest.head? ≠ some '1' →
      pointer_segments (front ++ '~' :: rest) root_allowed = .error .InvalidDefinition) ∧
    (∀ pointer pointer' root_allowed root_allowed' path,
      pointer_segments pointer root_allowed = .ok path →
      pointer_segments pointer' root_allowed' = .ok path → pointer = pointer') ∧
    ∀ pointer root_allowed path source, pointer_segments pointer root_allowed = .ok path →
      Follows source path (lookup source pointer) := by
  refine ⟨fun path root_allowed hlen hnul hbytes hroot => ?_, ?_, ?_, ?_⟩
  · refine pointer_segments_ok.2 ⟨rfl, ?_, hlen, hnul, hbytes⟩
    by_cases hnil : path = []
    · exact .inr (hroot hnil)
    · exact .inl hnil
  · intro front rest root_allowed hzero hone
    exact tilde_rejected hzero hone root_allowed
  · intro pointer pointer' root_allowed root_allowed' path h h'
    rw [(pointer_segments_ok.1 h).1, (pointer_segments_ok.1 h').1]
  · intro pointer root_allowed path source h
    rw [lookup, segments_encode h]
    exact lookup_follows source path

theorem a_slash_and_a_tilde_are_escaped :
    pointer_segments "/a~1b/~0".toList false = .ok ["a/b".toList, "~".toList] ∧
      pointer_segments "/a~2".toList false = .error .InvalidDefinition := by
  obtain ⟨hread, hrefused, -⟩ := a_pointer_names_one_path
  exact ⟨hread ["a/b".toList, "~".toList] false (by decide) (by decide) (by decide) (by decide),
    hrefused "/a".toList "2".toList false (by decide) (by decide)⟩

end openwrt_mcp_core.projection
