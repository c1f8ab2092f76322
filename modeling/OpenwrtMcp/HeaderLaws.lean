-- What one header block of an archive says. A block is accepted exactly when each of its fields
-- spells the value of an entry that is allowed, with a checksum over all of it.
import OpenwrtMcp.ArchiveHeader
import OpenwrtMcp.Programs

open programs slices text

namespace openwrt_mcp_device_codec.archive

/-! ## Octal fields -/

def IsOctalDigit (b : UInt8) : Prop := 48 ≤ b ∧ b ≤ 55

instance (b : UInt8) : Decidable (IsOctalDigit b) := inferInstanceAs (Decidable (_ ∧ _))

/-- The number that octal digits spell. -/
def octal_value (digits : Bytes) : Nat := digits.foldl (fun n b => n * 8 + (b - 48).toNat) 0

/-- A field that spells a number: digits, with spaces before them and spaces or NULs after. -/
def Spells (field : Bytes) (n : Nat) : Prop :=
  ∃ (spaces : Nat) (digits padding : Bytes), field = List.replicate spaces 32 ++ digits ++ padding ∧
    digits ≠ [] ∧ (∀ b ∈ digits, IsOctalDigit b) ∧ (∀ b ∈ padding, b = 32 ∨ b = 0) ∧
    n = octal_value digits

theorem digit_lt {b : UInt8} (h : IsOctalDigit b) : (b - 48).toNat < 8 := by
  obtain ⟨hlow, hhigh⟩ := h
  rw [UInt8.le_iff_toNat_le] at hlow hhigh
  rw [UInt8.toNat_sub_of_le _ _ (UInt8.le_iff_toNat_le.2 hlow)]
  have h48 : (48 : UInt8).toNat = 48 := rfl
  have h55 : (55 : UInt8).toNat = 55 := rfl
  omega

theorem octal_value_snoc (digits : Bytes) (b : UInt8) :
    octal_value (digits ++ [b]) = octal_value digits * 8 + (b - 48).toNat := by
  simp [octal_value]

theorem octal_value_lt {digits : Bytes} (h : ∀ b ∈ digits, IsOctalDigit b) :
    octal_value digits < 8 ^ digits.length := by
  induction digits using List.reverseRecOn with
  | nil => simp [octal_value]
  | append_singleton digits b ih =>
    have hdigits := ih fun x hx => h x (List.mem_append_left _ hx)
    have hb := digit_lt (h b (by simp))
    rw [octal_value_snoc, List.length_append, List.length_singleton, Nat.pow_succ]
    omega

/-- The loop reads the digits at the front, as far as the sums fit in 64 bits. -/
theorem octal_digits_ok {digits rest : Bytes} (read : Bytes) (hread : ∀ b ∈ read, IsOctalDigit b)
    (h : ∀ b ∈ digits, IsOctalDigit b) (hrest : ∀ b ∈ rest.head?, ¬ IsOctalDigit b)
    (hlen : (read ++ digits).length ≤ 21) :
    octal_digits (digits ++ rest) (octal_value read) =
      .ok (octal_value (read ++ digits), rest) := by
  induction digits generalizing read with
  | nil =>
    rw [List.nil_append, List.append_nil]
    cases rest with
    | nil => rfl
    | cons b rest =>
      have hb : ¬ (48 ≤ b ∧ b ≤ 55) := hrest b (by simp)
      rw [octal_digits, if_neg hb]
  | cons b digits ih =>
    rw [List.forall_mem_cons] at h
    have hnext : ∀ x ∈ read ++ [b], IsOctalDigit x := by
      intro x hx
      rcases List.mem_append.1 hx with hx | hx
      · exact hread x hx
      · rw [List.mem_singleton] at hx
        exact hx ▸ h.1
    have hlt := octal_value_lt hnext
    have hpow : 8 ^ (read ++ [b]).length ≤ 8 ^ 21 := Nat.pow_le_pow_right (by omega) (by
      simp only [List.length_append, List.length_cons, List.length_nil] at hlen ⊢
      omega)
    have hsum := octal_value_snoc read b
    have hword : octal_value read * 8 < 2 ^ 64 ∧
        octal_value read * 8 + (b - 48).toNat < 2 ^ 64 := by omega
    have hread' := ih (read ++ [b]) hnext h.2 (by simpa using hlen)
    rw [List.cons_append, octal_digits, if_pos (show 48 ≤ b ∧ b ≤ 55 from h.1), if_pos hword,
      ← hsum,
      hread', List.append_assoc, List.singleton_append]

theorem span_digits (field : Bytes) :
    ∃ digits rest, field = digits ++ rest ∧ (∀ b ∈ digits, IsOctalDigit b) ∧
      ∀ b ∈ rest.head?, ¬ IsOctalDigit b := by
  induction field with
  | nil => exact ⟨[], [], rfl, by simp, by simp⟩
  | cons b field ih =>
    by_cases hb : IsOctalDigit b
    · obtain ⟨digits, rest, rfl, hdigits, hrest⟩ := ih
      exact ⟨b :: digits, rest, rfl, List.forall_mem_cons.2 ⟨hb, hdigits⟩, hrest⟩
    · exact ⟨[], b :: field, rfl, by simp, by simpa using hb⟩

theorem space_no_digit : ¬ IsOctalDigit 32 := by decide

theorem nul_no_digit : ¬ IsOctalDigit 0 := by decide

/-- Digits after spaces: what the search for the first digit leaves. -/
theorem drop_spaces (spaces : Nat) {rest : Bytes} (h : rest.head? ≠ some 32) :
    (List.replicate spaces 32 ++ rest).dropWhile (· == 32) = rest := by
  induction spaces with
  | zero =>
    cases rest with
    | nil => rfl
    | cons b rest =>
      have hb : (b == 32) = false := by simpa using h
      simp [hb]
  | succ spaces ih => simpa [List.replicate_succ] using ih

theorem exists_spaces (field : Bytes) :
    ∃ spaces, field = List.replicate spaces 32 ++ field.dropWhile (· == 32) := by
  induction field with
  | nil => exact ⟨0, rfl⟩
  | cons b field ih =>
    by_cases hb : b = 32
    · obtain ⟨spaces, hfield⟩ := ih
      refine ⟨spaces + 1, ?_⟩
      rw [hb, List.dropWhile_cons_of_pos (by simp), List.replicate_succ, List.cons_append, ← hfield]
    · refine ⟨0, ?_⟩
      rw [List.dropWhile_cons_of_neg (by simpa using hb)]
      rfl

/-- What comes of the digits of a field and of the bytes after them. -/
theorem octal_eq {field digits rest : Bytes} (hfield : field.dropWhile (· == 32) = digits ++ rest)
    (h : ∀ b ∈ digits, IsOctalDigit b) (hrest : ∀ b ∈ rest.head?, ¬ IsOctalDigit b)
    (hlen : digits.length ≤ 21) :
    octal field = if digits = [] ∨ ¬ ∀ b ∈ rest, b = 32 ∨ b = 0 then .error .InvalidHeader
      else .ok (octal_value digits) := by
  have hloop := octal_digits_ok [] (by simp) h hrest (by simpa using hlen)
  rw [← hfield, List.nil_append] at hloop
  have hsame : rest.length = (digits ++ rest).length ↔ digits = [] := by
    rw [List.length_append, ← List.length_eq_zero_iff]
    omega
  unfold octal
  split
  · rename_i hnil
    rw [hfield, List.append_eq_nil_iff] at hnil
    rw [if_pos (.inl hnil.1)]
  · rename_i hne
    have hpair : octal_digits (field.dropWhile (· == 32)) 0 =
      .ok (octal_value digits, rest) := hloop
    rw [hpair]
    have hall : (rest.all fun b => decide (b = 32) || decide (b = 0)) = true ↔
        ∀ b ∈ rest, b = 32 ∨ b = 0 := by simp
    show (if _ then _ else _) = _
    simp only [hfield, Bool.or_eq_true, decide_eq_true_eq, hsame, Bool.not_eq_true', ← hall,
      Bool.not_eq_true]

/-- A field of at most 21 bytes never leaves 64 bits: it has a number exactly when it spells it. -/
theorem octal_ok_iff {field : Bytes} (hlen : field.length ≤ 21) {n : Nat} :
    octal field = .ok n ↔ Spells field n := by
  constructor
  · intro h
    obtain ⟨spaces, hspaces⟩ := exists_spaces field
    obtain ⟨digits, rest, hspan, hdigits, hrest⟩ := span_digits (field.dropWhile (· == 32))
    have hshort : digits.length ≤ 21 := by
      have hsum := congrArg List.length hspaces
      rw [hspan, List.length_append, List.length_append] at hsum
      omega
    rw [octal_eq hspan hdigits hrest hshort] at h
    split at h
    · cases h
    · rename_i hnot
      rw [not_or, not_not] at hnot
      refine ⟨spaces, digits, rest, ?_, hnot.1, hdigits, hnot.2, (Except.ok.inj h).symm⟩
      rw [List.append_assoc, ← hspan]
      exact hspaces
  · rintro ⟨spaces, digits, padding, rfl, hne, hdigits, hpadding, rfl⟩
    have hhead : (digits ++ padding).head? ≠ some 32 := by
      cases digits with
      | nil => exact absurd rfl hne
      | cons b digits =>
        rintro heq
        rw [List.cons_append, List.head?_cons, Option.some.injEq] at heq
        exact space_no_digit (heq ▸ hdigits b (by simp))
    have hrest : ∀ b ∈ padding.head?, ¬ IsOctalDigit b := by
      intro b hb
      rcases hpadding b (List.mem_of_head? hb) with rfl | rfl
      · exact space_no_digit
      · exact nul_no_digit
    have hshort : digits.length ≤ 21 := by
      simp only [List.length_append] at hlen
      omega
    rw [octal_eq (by rw [List.append_assoc, drop_spaces _ hhead]) hdigits hrest hshort, if_neg]
    rw [not_or, not_not]
    exact ⟨hne, hpadding⟩

/-! ## Text fields -/

/-- A field that holds a text: the text, and NULs up to the end. -/
def Padded (field t : Bytes) : Prop := 0 ∉ t ∧ ∃ n, field = t ++ List.replicate n 0

theorem padded_of_findIdx {field : Bytes} {last : Nat}
    (h : field.findIdx? (· == 0) = some last) : 0 ∉ field.take last := by
  obtain ⟨hlt, -, hbefore⟩ := List.findIdx?_eq_some_iff_getElem.1 h
  intro hmem
  obtain ⟨i, hi, hget⟩ := List.mem_take_iff_getElem.1 hmem
  exact hbefore i (by omega) (by simp [hget])

theorem text_field_ok_iff {field t : Bytes} : text_field field = .ok t ↔ Padded field t := by
  constructor
  · intro h
    unfold text_field at h
    split at h
    · rename_i last hlast
      split at h
      · cases h
      · rename_i hnuls
        cases h
        refine ⟨padded_of_findIdx hlast, (field.drop last).length, ?_⟩
        have hall : ∀ b ∈ field.drop last, b = 0 := by simpa using hnuls
        rw [← List.eq_replicate_of_mem hall, List.take_append_drop]
    · rename_i hnone
      cases h
      refine ⟨fun hmem => ?_, 0, by simp⟩
      have hzero := List.findIdx?_eq_none_iff.1 hnone 0 hmem
      cases hzero
  · rintro ⟨hno, n, rfl⟩
    unfold text_field
    cases n with
    | zero =>
      have hnone : (t ++ List.replicate 0 0).findIdx? (· == 0) = none := by
        rw [List.findIdx?_eq_none_iff]
        intro b hb
        have hne : b ≠ 0 := by
          rintro rfl
          exact hno (by simpa using hb)
        simpa using hne
      rw [hnone]
      simp
    | succ n =>
      have hsome : (t ++ List.replicate (n + 1) 0).findIdx? (· == 0) = some t.length := by
        rw [List.findIdx?_eq_some_iff_getElem]
        refine ⟨by simp, by simp, fun i hi heq => hno ?_⟩
        rw [List.getElem_append_left hi, beq_iff_eq] at heq
        exact heq ▸ List.getElem_mem hi
      rw [hsome]
      simp

theorem octal_at_most_ok {field : Bytes} (hlen : field.length ≤ 21) {bound : Nat} :
    octal_at_most field bound = .ok () ↔ ∃ n, Spells field n ∧ n ≤ bound := by
  unfold octal_at_most
  rw [except_bind_ok]
  constructor
  · rintro ⟨n, hn, h⟩
    split at h
    · cases h
    · exact ⟨n, (octal_ok_iff hlen).1 hn, by omega⟩
  · rintro ⟨n, hn, hle⟩
    exact ⟨n, (octal_ok_iff hlen).2 hn, if_neg (by omega)⟩

/-- A device field is empty or spells zero. -/
def NoDevice (field : Bytes) : Prop := (∀ b ∈ field, b = 0) ∨ Spells field 0

theorem device_field_ok {field : Bytes} (hlen : field.length ≤ 21) :
    device_field field = .ok () ↔ NoDevice field := by
  unfold device_field NoDevice
  have hall : field.all (· == 0) = true ↔ ∀ b ∈ field, b = 0 := by simp
  rw [← hall]
  split
  · rename_i hzero
    simp [hzero]
  · rename_i hzero
    rw [octal_at_most_ok hlen]
    simp [hzero]

theorem owner_field_ok {field : Bytes} : owner_field field = .ok () ↔
    ∃ t, Padded field t ∧ t.all is_ascii_graphic = true := by
  unfold owner_field
  rw [except_bind_ok]
  constructor
  · rintro ⟨t, ht, h⟩
    split at h
    · cases h
    · rename_i hgraphic
      exact ⟨t, text_field_ok_iff.1 ht, by simpa using hgraphic⟩
  · rintro ⟨t, ht, hgraphic⟩
    exact ⟨t, text_field_ok_iff.2 ht, if_neg (by simp [hgraphic])⟩

/-! ## Blocks -/

/-- What the two kinds of archives call themselves. -/
inductive Magic
  | Posix
  | Gnu
  deriving DecidableEq

/-- What a header says of its entry. -/
structure Entry where
  magic : Magic
  name : Bytes
  lead : Bytes
  mode : Nat
  uid : Nat
  gid : Nat
  size : Nat
  mtime : Nat
  kind : UInt8
  uname : Bytes
  gname : Bytes
  deriving DecidableEq

/-- The name after its prefix. -/
def joined_path (lead name : Bytes) : Bytes :=
  lead ++ (if lead.isEmpty then [] else [47]) ++ name

def Entry.path (e : Entry) : Bytes := joined_path e.lead e.name

/-- The fields of the block spell the entry, and its checksum is the sum of its bytes. -/
structure HeaderOf (block : Bytes) (e : Entry) : Prop where
  name : Padded (sub block 0 100) e.name
  mode : Spells (sub block 100 108) e.mode
  uid : Spells (sub block 108 116) e.uid
  gid : Spells (sub block 116 124) e.gid
  size : Spells (sub block 124 136) e.size
  mtime : Spells (sub block 136 148) e.mtime
  checksum : Spells (sub block 148 156) (checksum block)
  kind : block.getD 156 0 = e.kind
  link : ∀ b ∈ sub block 157 257, b = 0
  magic : sub block 257 265 = match e.magic with
    | .Posix => posix_magic
    | .Gnu => gnu_magic
  uname : Padded (sub block 265 297) e.uname
  gname : Padded (sub block 297 329) e.gname
  device_major : NoDevice (sub block 329 337)
  device_minor : NoDevice (sub block 337 345)
  tail : match e.magic with
    | .Posix => Padded (sub block 345 500) e.lead ∧ ∀ b ∈ sub block 500 512, b = 0
    | .Gnu => e.lead = [] ∧ ∀ b ∈ sub block 345 512, b = 0

/-- What an entry may be. -/
structure Entry.Allowed (e : Entry) : Prop where
  path : validate_path e.path = .ok ()
  size_le : e.size ≤ MAX_FILE_BYTES
  mode_le : e.mode ≤ 0o777
  kind : e.kind = 48 ∨ e.kind = 0
  uname : e.uname.all is_ascii_graphic = true
  gname : e.gname.all is_ascii_graphic = true

theorem sub_length_le (block : Bytes) (lo hi : Nat) : (sub block lo hi).length ≤ hi - lo :=
  List.length_take_le _ _

theorem magics_differ : posix_magic ≠ gnu_magic := by decide

theorem not_any_iff {field : Bytes} : ¬ field.any (· != 0) = true ↔ ∀ b ∈ field, b = 0 := by simp

theorem path_prefix_ok {block lead : Bytes} : path_prefix block = .ok lead ↔
    (sub block 257 265 = posix_magic ∧ Padded (sub block 345 500) lead ∧
        ∀ b ∈ sub block 500 512, b = 0) ∨
      (sub block 257 265 = gnu_magic ∧ lead = [] ∧ ∀ b ∈ sub block 345 512, b = 0) := by
  unfold path_prefix
  constructor
  · intro h
    split at h
    · rename_i hposix
      split at h
      · cases h
      · rename_i htail
        exact .inl ⟨hposix, text_field_ok_iff.1 h, not_any_iff.1 htail⟩
    split at h
    · rename_i hgnu
      split at h
      · cases h
      · rename_i htail
        exact .inr ⟨hgnu, (Except.ok.inj h).symm, not_any_iff.1 htail⟩
    · cases h
  · rintro (⟨hposix, hlead, htail⟩ | ⟨hgnu, rfl, htail⟩)
    · rw [if_pos hposix, if_neg (not_any_iff.2 htail), text_field_ok_iff]
      exact hlead
    · rw [if_neg (hgnu ▸ magics_differ.symm), if_pos hgnu, if_neg (not_any_iff.2 htail)]

/-! ## Paths -/

/-- A path that is relative, short, and made of plain names. -/
structure SafePath (path : Bytes) : Prop where
  nonempty : path ≠ []
  length_le : path.length ≤ MAX_PATH_BYTES
  bytes : ∀ b ∈ path, is_ascii_alphanumeric b = true ∨ b ∈ ascii "_-.+@/"
  components_le : (path.splitOn 47).length ≤ MAX_PATH_COMPONENTS
  components : ∀ c ∈ path.splitOn 47, c ≠ [] ∧ c.length ≤ MAX_COMPONENT_BYTES ∧
    c ≠ ascii "." ∧ c ≠ ascii ".."

/-- The count of the components goes along with them: it passes its bound when there are too
many. -/
theorem counted_components (components : List Bytes) (P : Bytes → Prop) (bound : Nat) :
    (∀ e ∈ components.zipIdx 1, P e.1 ∧ e.2 ≤ bound) ↔
      components.length ≤ bound ∧ ∀ c ∈ components, P c := by
  constructor
  · intro h
    refine ⟨?_, fun c hc => ?_⟩
    · by_contra hlong
      have hlt : bound < components.length := by omega
      have hlast := h (components[bound], bound + 1)
        (List.mk_mem_zipIdx_iff_le_and_getElem?_sub.2 ⟨by omega, by simp⟩)
      exact absurd hlast.2 (by simp)
    · obtain ⟨i, hi⟩ := List.getElem?_of_mem hc
      exact (h (c, i + 1)
        (List.mk_mem_zipIdx_iff_le_and_getElem?_sub.2 ⟨by omega, by simpa using hi⟩)).1
  · rintro ⟨hlen, hall⟩ ⟨c, i⟩ hmem
    obtain ⟨hle, hget⟩ := List.mk_mem_zipIdx_iff_le_and_getElem?_sub.1 hmem
    obtain ⟨hlt, -⟩ := List.getElem?_eq_some_iff.1 hget
    exact ⟨hall c (List.mem_of_getElem? hget), by simp only; omega⟩

/-- The test of the components, which counts them from one. -/
theorem any_component_iff (components : List Bytes) :
    (components.zipIdx 1).any (fun (component, count) =>
      component.isEmpty || component.length > MAX_COMPONENT_BYTES || component = ascii "." ||
        component = ascii ".." || count > MAX_PATH_COMPONENTS) = false ↔
      (∀ e ∈ components.zipIdx 1, (e.1 ≠ [] ∧ e.1.length ≤ MAX_COMPONENT_BYTES ∧
        e.1 ≠ ascii "." ∧ e.1 ≠ ascii "..") ∧ e.2 ≤ MAX_PATH_COMPONENTS) := by
  rw [List.any_eq_false]
  simp [and_assoc]

theorem validate_path_ok_iff {path : Bytes} : validate_path path = .ok () ↔ SafePath path := by
  have hany := any_component_iff (path.splitOn 47)
  rw [counted_components (path.splitOn 47)
    (fun c => c ≠ [] ∧ c.length ≤ MAX_COMPONENT_BYTES ∧ c ≠ ascii "." ∧ c ≠ ascii "..")
    MAX_PATH_COMPONENTS] at hany
  have hall : path.all (fun b => is_ascii_alphanumeric b || b ∈ ascii "_-.+@/") = true ↔
      ∀ b ∈ path, is_ascii_alphanumeric b = true ∨ b ∈ ascii "_-.+@/" := by
    simp only [List.all_eq_true, Bool.or_eq_true, decide_eq_true_eq]
  unfold validate_path
  by_cases hlen : path = [] ∨ path.length > MAX_PATH_BYTES
  · rw [if_pos (by simpa using hlen)]
    constructor
    · intro h
      cases h
    · intro h
      rcases hlen with hnil | hlong
      · exact absurd hnil h.nonempty
      · exact absurd h.length_le (Nat.not_le_of_lt hlong)
  rw [if_neg (by simpa using hlen)]
  rw [not_or, not_lt] at hlen
  by_cases hbytes : ∀ b ∈ path, is_ascii_alphanumeric b = true ∨ b ∈ ascii "_-.+@/"
  case neg =>
    rw [if_pos (by rwa [Bool.not_eq_true', ← Bool.not_eq_true, hall])]
    constructor
    · intro h
      cases h
    · intro h
      exact absurd h.bytes hbytes
  rw [if_neg (by rwa [Bool.not_eq_true', ← Bool.not_eq_true, not_not, hall])]
  split
  · rename_i hbad
    constructor
    · intro h
      cases h
    · intro h
      rw [hany.2 ⟨h.components_le, h.components⟩] at hbad
      cases hbad
  · rename_i hgood
    rw [Bool.not_eq_true, hany] at hgood
    simp only [true_iff]
    exact ⟨hlen.1, hlen.2, hbytes, hgood.1, hgood.2⟩

/-- No path that is allowed begins with a slash. -/
theorem SafePath.relative {path : Bytes} (h : SafePath path) : path.head? ≠ some 47 := by
  intro hhead
  obtain ⟨rest, rfl⟩ := List.head?_eq_some_iff.1 hhead
  have hsplit := List.splitOn_append_cons_self (a := 47) [] rest
  rw [List.nil_append] at hsplit
  have hcomponents := h.components [] (by rw [hsplit]; simp)
  exact hcomponents.1 rfl

/-- The name of a path that is allowed is not empty. -/
theorem SafePath.name_ne_nil {lead name : Bytes} (h : SafePath (joined_path lead name)) :
    name ≠ [] := by
  rintro rfl
  cases hlead : lead with
  | nil => exact h.nonempty (by rw [hlead]; rfl)
  | cons b rest =>
    have hpath : joined_path lead [] = lead ++ 47 :: [] := by simp [joined_path, hlead]
    have hsplit := List.splitOn_append_cons_self (a := (47 : UInt8)) lead []
    have hempty : [] ∈ (joined_path lead []).splitOn 47 := by
      rw [hpath, hsplit]
      simp
    exact (h.components [] hempty).1 rfl

/-! ## What is accepted -/

theorem short_field {block : Bytes} {lo hi : Nat} (h : hi - lo ≤ 21) :
    (sub block lo hi).length ≤ 21 := Nat.le_trans (sub_length_le block lo hi) h

/-- An identity that an octal field of eight bytes spells fits in 32 bits. -/
theorem Spells.lt {field : Bytes} {n : Nat} (h : Spells field n) : n < 8 ^ field.length := by
  obtain ⟨spaces, digits, padding, rfl, -, hdigits, -, rfl⟩ := h
  refine Nat.lt_of_lt_of_le (octal_value_lt hdigits) (Nat.pow_le_pow_right (by omega) ?_)
  simp only [List.length_append]
  omega

theorem Spells.lt_width {block : Bytes} {lo hi n : Nat} (h : Spells (sub block lo hi) n) :
    n < 8 ^ (hi - lo) :=
  Nat.lt_of_lt_of_le h.lt (Nat.pow_le_pow_right (by omega) (sub_length_le block lo hi))

theorem Entry.Allowed.accepted {block : Bytes} {e : Entry} (h : e.Allowed)
    (hof : HeaderOf block e) :
    parse block = .ok ⟨e.path, e.size⟩ := by
  have hsafe := validate_path_ok_iff.1 h.path
  have hlead : path_prefix block = .ok e.lead := by
    rw [path_prefix_ok]
    have hmagic := hof.magic
    have htail := hof.tail
    cases hm : e.magic with
    | Posix =>
      rw [hm] at hmagic htail
      exact .inl ⟨hmagic, htail⟩
    | Gnu =>
      rw [hm] at hmagic htail
      exact .inr ⟨hmagic, htail⟩
  have hkind : block.getD 156 0 = 48 ∨ block.getD 156 0 = 0 := hof.kind ▸ h.kind
  have hmode := (octal_at_most_ok (short_field (by omega))).2 ⟨e.mode, hof.mode, h.mode_le⟩
  have hpow : 8 ^ 8 ≤ 2 ^ 32 - 1 := by decide
  have huid := (octal_at_most_ok (short_field (by omega))).2
    ⟨e.uid, hof.uid, Nat.le_trans (Nat.le_of_lt hof.uid.lt_width) hpow⟩
  have hgid := (octal_at_most_ok (short_field (by omega))).2
    ⟨e.gid, hof.gid, Nat.le_trans (Nat.le_of_lt hof.gid.lt_width) hpow⟩
  have hsize := (octal_ok_iff (short_field (by omega))).2 hof.size
  have hmtime := (octal_ok_iff (short_field (by omega))).2 hof.mtime
  have hmajor := (device_field_ok (short_field (by omega))).2 hof.device_major
  have hminor := (device_field_ok (short_field (by omega))).2 hof.device_minor
  have huname := owner_field_ok.2 ⟨e.uname, hof.uname, h.uname⟩
  have hgname := owner_field_ok.2 ⟨e.gname, hof.gname, h.gname⟩
  have hname := text_field_ok_iff.2 hof.name
  have hlength : ¬ (decide (e.lead.length + (if e.lead.isEmpty then 0 else 1) + e.name.length >
      MAX_PATH_BYTES) || e.name.isEmpty) = true := by
    have hle := hsafe.length_le
    have hne := hsafe.name_ne_nil
    unfold Entry.path joined_path at hle
    rw [List.length_append, List.length_append] at hle
    cases hempty : e.lead.isEmpty <;> simp [hempty] at hle <;> simp [hne] <;> omega
  unfold parse
  refine except_bind_ok.2 ⟨_, (octal_ok_iff (short_field (by omega))).2 hof.checksum, ?_⟩
  refine (if_neg (by simp)).trans (except_bind_ok.2 ⟨_, hlead, ?_⟩)
  refine (if_neg (not_not.2 hkind)).trans ((if_neg (not_any_iff.2 hof.link)).trans ?_)
  refine except_bind_ok.2 ⟨_, hmode, except_bind_ok.2 ⟨_, huid, except_bind_ok.2 ⟨_, hgid,
    except_bind_ok.2 ⟨_, hsize, ?_⟩⟩⟩⟩
  refine (if_neg (Nat.not_lt.2 h.size_le)).trans (except_bind_ok.2 ⟨_, hmtime, ?_⟩)
  refine except_bind_ok.2 ⟨_, hmajor, except_bind_ok.2 ⟨_, hminor, except_bind_ok.2 ⟨_, huname,
    except_bind_ok.2 ⟨_, hgname, except_bind_ok.2 ⟨_, hname, ?_⟩⟩⟩⟩⟩
  exact (if_neg hlength).trans (except_bind_ok.2 ⟨_, h.path, rfl⟩)

/-- What passes a guard. -/
theorem guard_ok {α ε : Type} {c : Prop} [Decidable c] {e : ε} {x : Except ε α} {r : α} :
    (if c then .error e else x) = .ok r ↔ ¬ c ∧ x = .ok r := by
  by_cases hc : c
  · simp [hc]
  · simp [hc]

/-- A block that is accepted holds an entry that is allowed. -/
theorem entry_of_parse {block : Bytes} {header : Header} (h : parse block = .ok header) :
    ∃ e : Entry, HeaderOf block e ∧ e.Allowed ∧ header = ⟨e.path, e.size⟩ := by
  unfold parse at h
  obtain ⟨stored, hstored, h⟩ := except_bind_ok.1 h
  obtain ⟨hsum, h⟩ := guard_ok.1 h
  obtain ⟨lead, hlead, h⟩ := except_bind_ok.1 h
  obtain ⟨hkind, h⟩ := guard_ok.1 h
  obtain ⟨hlink, h⟩ := guard_ok.1 h
  obtain ⟨_, hmode, h⟩ := except_bind_ok.1 h
  obtain ⟨_, huid, h⟩ := except_bind_ok.1 h
  obtain ⟨_, hgid, h⟩ := except_bind_ok.1 h
  obtain ⟨size, hsize, h⟩ := except_bind_ok.1 h
  obtain ⟨hle, h⟩ := guard_ok.1 h
  obtain ⟨mtime, hmtime, h⟩ := except_bind_ok.1 h
  obtain ⟨_, hmajor, h⟩ := except_bind_ok.1 h
  obtain ⟨_, hminor, h⟩ := except_bind_ok.1 h
  obtain ⟨_, huname, h⟩ := except_bind_ok.1 h
  obtain ⟨_, hgname, h⟩ := except_bind_ok.1 h
  obtain ⟨name, hname, h⟩ := except_bind_ok.1 h
  obtain ⟨-, h⟩ := guard_ok.1 h
  obtain ⟨_, hpath, h⟩ := except_bind_ok.1 h
  obtain ⟨mode, hmode, hmode_le⟩ := (octal_at_most_ok (short_field (by omega))).1 hmode
  obtain ⟨uid, huid, -⟩ := (octal_at_most_ok (short_field (by omega))).1 huid
  obtain ⟨gid, hgid, -⟩ := (octal_at_most_ok (short_field (by omega))).1 hgid
  obtain ⟨uname, huname, huname_graphic⟩ := owner_field_ok.1 huname
  obtain ⟨gname, hgname, hgname_graphic⟩ := owner_field_ok.1 hgname
  have hsize := (octal_ok_iff (short_field (by omega))).1 hsize
  have hmtime := (octal_ok_iff (short_field (by omega))).1 hmtime
  have hmajor := (device_field_ok (short_field (by omega))).1 hmajor
  have hminor := (device_field_ok (short_field (by omega))).1 hminor
  have hchecksum : Spells (sub block 148 156) (checksum block) := by
    rw [not_not] at hsum
    exact hsum ▸ (octal_ok_iff (short_field (by omega))).1 hstored
  have hallowed : ∀ magic : Magic, Entry.Allowed ⟨magic, name, lead, mode, uid, gid, size, mtime,
      block.getD 156 0, uname, gname⟩ := fun magic =>
    ⟨hpath, Nat.le_of_not_lt hle, hmode_le, not_not.1 hkind, huname_graphic, hgname_graphic⟩
  have hheader := (Except.ok.inj h).symm
  have hname := text_field_ok_iff.1 hname
  have hlink := not_any_iff.1 hlink
  rcases path_prefix_ok.1 hlead with ⟨hposix, htail⟩ | ⟨hgnu, htail⟩
  · refine ⟨_, ?_, hallowed .Posix, hheader⟩
    exact ⟨hname, hmode, huid, hgid, hsize, hmtime, hchecksum, rfl, hlink, hposix, huname, hgname,
      hmajor, hminor, htail⟩
  · refine ⟨_, ?_, hallowed .Gnu, hheader⟩
    exact ⟨hname, hmode, huid, hgid, hsize, hmtime, hchecksum, rfl, hlink, hgnu, huname, hgname,
      hmajor, hminor, htail⟩

/-! ## The header of an entry -/

/-- The last `width` octal digits of a number. -/
def octal_text : Nat → Nat → Bytes
  | 0, _ => []
  | width + 1, value => octal_text width (value / 8) ++ [48 + UInt8.ofNat (value % 8)]

/-- A field of digits with a NUL at its end. -/
def octal_field (width value : Nat) : Bytes := octal_text (width - 1) value ++ [0]

def padded (width : Nat) (t : Bytes) : Bytes := t ++ List.replicate (width - t.length) 0

def Magic.bytes : Magic → Bytes
  | .Posix => posix_magic
  | .Gnu => gnu_magic

def header_fields (e : Entry) (sum : Bytes) : List Bytes :=
  [padded 100 e.name, octal_field 8 e.mode, octal_field 8 e.uid, octal_field 8 e.gid,
    octal_field 12 e.size, octal_field 12 e.mtime, sum, [e.kind], padded 100 [], e.magic.bytes,
    padded 32 e.uname, padded 32 e.gname, padded 8 [], padded 8 [], padded 155 e.lead, padded 12 []]

/-- The header block of an entry. Its checksum is taken with spaces in the place of the checksum. -/
def canonical_header (e : Entry) : Bytes :=
  (header_fields e (octal_field 8
    (checksum (header_fields e (List.replicate 8 32)).flatten))).flatten

/-- What the fields of a header have room for. -/
structure Entry.Fits (e : Entry) : Prop where
  name : e.name.length ≤ 100
  lead : e.lead.length ≤ 155
  uid : e.uid < 8 ^ 7
  gid : e.gid < 8 ^ 7
  mtime : e.mtime < 8 ^ 11
  uname : e.uname.length ≤ 32
  gname : e.gname.length ≤ 32
  gnu : e.magic = .Gnu → e.lead = []

@[simp] theorem length_octal_text (width value : Nat) :
    (octal_text width value).length = width := by
  induction width generalizing value with
  | zero => rfl
  | succ width ih => simp [octal_text, ih]

theorem octal_digit {n : Nat} (h : n < 8) :
    IsOctalDigit (48 + UInt8.ofNat n) ∧ (48 + UInt8.ofNat n - 48).toNat = n := by
  interval_cases n <;> decide

theorem octal_text_digits (width value : Nat) : ∀ b ∈ octal_text width value, IsOctalDigit b := by
  induction width generalizing value with
  | zero => simp [octal_text]
  | succ width ih =>
    intro b hb
    rcases List.mem_append.1 hb with hb | hb
    · exact ih _ b hb
    · rw [List.mem_singleton] at hb
      exact hb ▸ (octal_digit (Nat.mod_lt _ (by omega))).1

theorem octal_value_text {width value : Nat} (h : value < 8 ^ width) :
    octal_value (octal_text width value) = value := by
  induction width generalizing value with
  | zero =>
    rw [Nat.pow_zero] at h
    simp [octal_text, octal_value]
    omega
  | succ width ih =>
    rw [Nat.pow_succ] at h
    rw [octal_text, octal_value_snoc, ih (by omega), (octal_digit (Nat.mod_lt _ (by omega))).2]
    omega

theorem length_octal_field {width : Nat} (h : 0 < width) (value : Nat) :
    (octal_field width value).length = width := by
  simp [octal_field]
  omega

theorem octal_field_spells {width value : Nat} (hwidth : 1 < width) (h : value < 8 ^ (width - 1)) :
    Spells (octal_field width value) value := by
  refine ⟨0, octal_text (width - 1) value, [0], rfl, ?_, octal_text_digits _ _, by simp,
    (octal_value_text h).symm⟩
  intro hnil
  have hlen := congrArg List.length hnil
  rw [length_octal_text, List.length_nil] at hlen
  omega

theorem length_padded {width : Nat} {t : Bytes} (h : t.length ≤ width) :
    (padded width t).length = width := by
  simp [padded]
  omega

theorem padded_holds {width : Nat} {t : Bytes} (h : 0 ∉ t) : Padded (padded width t) t :=
  ⟨h, _, rfl⟩

/-- The place of a field in a block. -/
theorem sub_flatten {fields : List Bytes} {field : Bytes} (i : Nat) (hget : fields[i]? = some field)
    {lo hi : Nat} (hlo : (fields.take i).flatten.length = lo) (hhi : lo + field.length = hi) :
    sub fields.flatten lo hi = field := by
  obtain ⟨hlt, rfl⟩ := List.getElem?_eq_some_iff.1 hget
  have hsplit : fields.flatten =
      (fields.take i).flatten ++ (fields[i] ++ (fields.drop (i + 1)).flatten) := by
    rw [← List.flatten_cons, ← List.drop_eq_getElem_cons hlt, ← List.flatten_append,
      List.take_append_drop]
  rw [hsplit, sub, ← hhi, ← hlo, List.drop_left, Nat.add_sub_cancel_left, List.take_left]

/-- What the byte at an index adds to the checksum. -/
def checksum_term (e : UInt8 × Nat) : Nat := if 148 ≤ e.2 ∧ e.2 < 156 then 32 else e.1.toNat

theorem checksum_eq (block : Bytes) : checksum block = (block.zipIdx.map checksum_term).sum := rfl

/-- A header that has only a name, of one letter: the field itself counts as eight spaces. -/
example : checksum (97 :: List.replicate 511 0) = 97 + 8 * 32 := by decide +kernel

theorem terms_outside (front : Bytes) (k : Nat) (h : k + front.length ≤ 148 ∨ 156 ≤ k) :
    ((front.zipIdx k).map checksum_term).sum = (front.map UInt8.toNat).sum := by
  induction front generalizing k with
  | nil => rfl
  | cons b front ih =>
    rw [List.length_cons] at h
    have hterm : checksum_term (b, k) = b.toNat := if_neg (by simp only; omega)
    rw [List.zipIdx_cons, List.map_cons, List.sum_cons, List.map_cons, List.sum_cons, hterm,
      ih (k + 1) (by omega)]

theorem terms_inside (field : Bytes) (k : Nat) (hlo : 148 ≤ k) (hhi : k + field.length ≤ 156) :
    ((field.zipIdx k).map checksum_term).sum = field.length * 32 := by
  induction field generalizing k with
  | nil => rfl
  | cons b field ih =>
    rw [List.length_cons] at hhi
    have hterm : checksum_term (b, k) = 32 := if_pos ⟨hlo, by simp only; omega⟩
    rw [List.zipIdx_cons, List.map_cons, List.sum_cons, hterm, ih (k + 1) (by omega) (by omega),
      List.length_cons]
    omega

/-- The sum does not look at the field of the checksum. -/
theorem checksum_append {front field rest : Bytes} (hfront : front.length = 148)
    (hfield : field.length = 8) : checksum (front ++ (field ++ rest)) =
      (front.map UInt8.toNat).sum + (8 * 32 + (rest.map UInt8.toNat).sum) := by
  rw [checksum_eq, List.zipIdx_append, List.zipIdx_append, List.map_append, List.map_append,
    List.sum_append, List.sum_append, terms_outside front 0 (by omega),
    terms_inside field _ (by omega) (by omega), terms_outside rest _ (by omega), hfield]

theorem checksum_le (block : Bytes) : checksum block ≤ block.length * 255 := by
  have hterm : ∀ n ∈ block.zipIdx.map checksum_term, n ≤ 255 := by
    intro n hn
    obtain ⟨⟨b, i⟩, -, rfl⟩ := List.mem_map.1 hn
    have hb := b.toNat_lt
    unfold checksum_term
    split
    · omega
    · simp only
      omega
  have hsum := List.sum_le_card_nsmul _ _ hterm
  simpa [checksum_eq] using hsum

/-! ## Reading the header of an entry back -/

section
variable {e : Entry}

theorem length_magic (m : Magic) : m.bytes.length = 8 := by
  cases m <;> rfl

theorem nul_not_safe {path : Bytes} (h : SafePath path) : 0 ∉ path := by
  intro hmem
  rcases h.bytes 0 hmem with halnum | hpunct
  · exact absurd halnum (by decide)
  · exact absurd hpunct (by decide)

theorem nul_not_graphic {t : Bytes} (h : t.all is_ascii_graphic = true) : 0 ∉ t := by
  intro hmem
  have hzero := List.all_eq_true.1 h 0 hmem
  exact absurd hzero (by decide)

/-- The lengths of the fields. -/
theorem Entry.Fits.lengths (h : e.Fits) {sum : Bytes} (hsum : sum.length = 8) :
    (header_fields e sum).map List.length =
      [100, 8, 8, 8, 12, 12, 8, 1, 100, 8, 32, 32, 8, 8, 155, 12] := by
  simp [header_fields, length_padded h.name, length_padded h.lead, length_padded h.uname,
    length_padded h.gname, length_octal_field, length_magic, hsum, length_padded]

theorem length_take_flatten (fields : List Bytes) (i : Nat) :
    (fields.take i).flatten.length = ((fields.map List.length).take i).sum := by
  rw [List.length_flatten, List.map_take]

theorem Entry.Fits.place (h : e.Fits) {sum : Bytes} (hsum : sum.length = 8) (i lo hi : Nat)
    {field : Bytes} (hget : (header_fields e sum)[i]? = some field)
    (hlo : (([100, 8, 8, 8, 12, 12, 8, 1, 100, 8, 32, 32, 8, 8, 155, 12] : List Nat).take i).sum =
      lo)
    (hhi : [100, 8, 8, 8, 12, 12, 8, 1, 100, 8, 32, 32, 8, 8, 155, 12][i]? = some (hi - lo))
    (hle : lo ≤ hi) : sub (header_fields e sum).flatten lo hi = field := by
  have hlen : field.length = hi - lo := by
    have hmap := congrArg (·[i]?) (h.lengths hsum)
    simp only [List.getElem?_map, hget, Option.map_some, hhi, Option.some.injEq] at hmap
    exact hmap
  exact sub_flatten i hget (by rw [length_take_flatten, h.lengths hsum, hlo]) (by omega)

theorem Entry.Fits.length (h : e.Fits) {sum : Bytes} (hsum : sum.length = 8) :
    (header_fields e sum).flatten.length = BLOCK_BYTES := by
  rw [List.length_flatten, h.lengths hsum]
  rfl

theorem Entry.Fits.checksum (h : e.Fits) {sum sum' : Bytes} (hsum : sum.length = 8)
    (hsum' : sum'.length = 8) :
    archive.checksum (header_fields e sum).flatten =
      archive.checksum (header_fields e sum').flatten := by
  have hsplit : ∀ sum : Bytes, (header_fields e sum).flatten =
      ((header_fields e sum).take 6).flatten ++
        (sum ++ ((header_fields e sum).drop 7).flatten) := by
    intro sum
    simp [header_fields]
  have hfront : ∀ {sum : Bytes}, sum.length = 8 →
      ((header_fields e sum).take 6).flatten.length = 148 := by
    intro sum hsum
    rw [length_take_flatten, h.lengths hsum]
    rfl
  rw [hsplit sum, hsplit sum', checksum_append (hfront hsum) hsum,
    checksum_append (hfront hsum') hsum']
  rfl

theorem getD_of_sub {block : Bytes} {i : Nat} {b : UInt8} (h : sub block i (i + 1) = [b]) :
    block.getD i 0 = b := by
  have hget : (sub block i (i + 1))[0]? = some b := by rw [h]; rfl
  rw [sub, Nat.add_sub_cancel_left, List.getElem?_take_of_lt (by omega), List.getElem?_drop,
    Nat.add_zero] at hget
  rw [List.getD_eq_getElem?_getD, hget, Option.getD_some]

theorem sub_split (block : Bytes) {lo mid hi : Nat} (h1 : lo ≤ mid) (h2 : mid ≤ hi) :
    sub block lo hi = sub block lo mid ++ sub block mid hi := by
  have hlen : hi - lo = (mid - lo) + (hi - mid) := by omega
  rw [sub, sub, sub, hlen, List.take_add, List.drop_drop, Nat.add_sub_cancel' h1]

theorem zero_padded (width : Nat) : ∀ b ∈ padded width [], b = 0 := by
  simp [padded]

/-- The header of an entry says what the entry is. -/
theorem header_of_canonical (hallowed : e.Allowed) (h : e.Fits) :
    HeaderOf (canonical_header e) e := by
  have hsafe := validate_path_ok_iff.1 hallowed.path
  have hmem : ∀ b ∈ e.name, b ∈ e.path := by
    intro b hb
    simp [Entry.path, joined_path, hb]
  have hmem' : ∀ b ∈ e.lead, b ∈ e.path := by
    intro b hb
    simp [Entry.path, joined_path, hb]
  have hsum :
    (octal_field 8 (checksum (header_fields e (List.replicate 8 32)).flatten)).length = 8 :=
    length_octal_field (by omega) _
  have hblank : (List.replicate 8 (32 : UInt8)).length = 8 := rfl
  have hbound : checksum (header_fields e (List.replicate 8 32)).flatten < 8 ^ 7 := by
    have hle := checksum_le (header_fields e (List.replicate 8 32)).flatten
    rw [h.length hblank] at hle
    exact Nat.lt_of_le_of_lt hle (by decide)
  have hsize : e.size < 8 ^ 11 := Nat.lt_of_le_of_lt hallowed.size_le (by decide)
  have hmode : e.mode < 8 ^ 7 := Nat.lt_of_le_of_lt hallowed.mode_le (by decide)
  have hlink := h.place hsum 8 157 257 rfl rfl rfl (by omega)
  have htail := h.place hsum 15 500 512 rfl rfl rfl (by omega)
  have hlead := h.place hsum 14 345 500 rfl rfl rfl (by omega)
  refine ⟨?_, ?_, ?_, ?_, ?_, ?_, ?_, getD_of_sub ?_, ?_, ?_, ?_, ?_, .inl ?_, .inl ?_, ?_⟩
  · rw [canonical_header, h.place hsum 0 0 100 rfl rfl rfl (by omega)]
    exact padded_holds fun hnul => nul_not_safe hsafe (hmem 0 hnul)
  · rw [canonical_header, h.place hsum 1 100 108 rfl rfl rfl (by omega)]
    exact octal_field_spells (by omega) hmode
  · rw [canonical_header, h.place hsum 2 108 116 rfl rfl rfl (by omega)]
    exact octal_field_spells (by omega) h.uid
  · rw [canonical_header, h.place hsum 3 116 124 rfl rfl rfl (by omega)]
    exact octal_field_spells (by omega) h.gid
  · rw [canonical_header, h.place hsum 4 124 136 rfl rfl rfl (by omega)]
    exact octal_field_spells (by omega) hsize
  · rw [canonical_header, h.place hsum 5 136 148 rfl rfl rfl (by omega)]
    exact octal_field_spells (by omega) h.mtime
  · rw [canonical_header, h.place hsum 6 148 156 rfl rfl rfl (by omega), h.checksum hsum hblank]
    exact octal_field_spells (by omega) hbound
  · exact h.place hsum 7 156 157 rfl rfl rfl (by omega)
  · rw [canonical_header, hlink]
    exact zero_padded 100
  · rw [canonical_header, h.place hsum 9 257 265 rfl rfl rfl (by omega)]
    cases e.magic <;> rfl
  · rw [canonical_header, h.place hsum 10 265 297 rfl rfl rfl (by omega)]
    exact padded_holds (nul_not_graphic hallowed.uname)
  · rw [canonical_header, h.place hsum 11 297 329 rfl rfl rfl (by omega)]
    exact padded_holds (nul_not_graphic hallowed.gname)
  · rw [canonical_header, h.place hsum 12 329 337 rfl rfl rfl (by omega)]
    exact zero_padded 8
  · rw [canonical_header, h.place hsum 13 337 345 rfl rfl rfl (by omega)]
    exact zero_padded 8
  · cases hmagic : e.magic with
    | Posix =>
      simp only
      rw [canonical_header, hlead, htail]
      exact ⟨padded_holds fun hnul => nul_not_safe hsafe (hmem' 0 hnul), zero_padded 12⟩
    | Gnu =>
      have hnil := h.gnu hmagic
      simp only
      rw [canonical_header, sub_split _ (show 345 ≤ 500 by omega) (show 500 ≤ 512 by omega), hlead,
        htail, hnil]
      exact ⟨rfl, fun b hb => (List.mem_append.1 hb).elim (zero_padded 155 b) (zero_padded 12 b)⟩

theorem length_canonical (h : e.Fits) : (canonical_header e).length = BLOCK_BYTES :=
  h.length (length_octal_field (by omega) _)

end

/-- No sum of a header leaves 64 bits, and no test of an octal field depends on it. -/
structure WithinWord (block : Bytes) : Prop where
  checksum_lt : checksum block < 2 ^ 64
  octal : ∀ lo hi, hi - lo ≤ 12 → ∀ n, octal (sub block lo hi) = .ok n ↔
    Spells (sub block lo hi) n ∧ n < 2 ^ 64

theorem within_word {block : Bytes} (h : block.length = BLOCK_BYTES) : WithinWord block := by
  refine ⟨?_, fun lo hi hwidth n => ?_⟩
  · have hle := checksum_le block
    rw [h] at hle
    exact Nat.lt_of_le_of_lt hle (by decide)
  · rw [octal_ok_iff (short_field (by omega))]
    refine ⟨fun hn => ⟨hn, ?_⟩, And.left⟩
    have hpow : 8 ^ (hi - lo) ≤ 8 ^ 12 := Nat.pow_le_pow_right (by omega) hwidth
    exact Nat.lt_of_lt_of_le hn.lt_width (Nat.le_trans hpow (by decide))

/-- The header of an entry is read back as its path and size, whatever the digits of its fields
look like, and what is accepted names a safe path, a size that is allowed and its own checksum. -/
theorem a_header_is_read_as_its_entry :
    (∀ e : Entry, e.Allowed → e.Fits →
      (canonical_header e).length = 512 ∧ parse (canonical_header e) = .ok ⟨e.path, e.size⟩) ∧
    (∀ (e : Entry) (block : Bytes), block.length = 512 → e.Allowed → HeaderOf block e →
      parse block = .ok ⟨e.path, e.size⟩) ∧
    ∀ block : Bytes, block.length = 512 → WithinWord block ∧
      ∀ header, parse block = .ok header →
        validate_path header.path = .ok () ∧ SafePath header.path ∧ header.path.head? ≠ some 47 ∧
        header.size ≤ 8 * 1024 * 1024 ∧ Spells (sub block 148 156) (checksum block) ∧
        ∃ e : Entry, HeaderOf block e ∧ e.Allowed ∧ header = ⟨e.path, e.size⟩ := by
  refine ⟨fun e hallowed hfits => ?_, fun e block _ hallowed hof => hallowed.accepted hof,
    fun block hlen => ⟨within_word hlen, fun header h => ?_⟩⟩
  · exact ⟨length_canonical hfits, hallowed.accepted (header_of_canonical hallowed hfits)⟩
  · obtain ⟨e, hof, hallowed, rfl⟩ := entry_of_parse h
    have hsafe := validate_path_ok_iff.1 hallowed.path
    exact ⟨hallowed.path, hsafe, hsafe.relative, hallowed.size_le, hof.checksum, e, hof, hallowed,
      rfl⟩

/-- An entry whose path is split at its first slash. -/
def etc_hosts : Entry where
  magic := .Posix
  name := ascii "hosts"
  lead := ascii "etc"
  mode := 0o644
  uid := 0
  gid := 0
  size := 5
  mtime := 8
  kind := 48
  uname := ascii "root"
  gname := []

theorem a_header_of_an_entry_is_read : (canonical_header etc_hosts).length = 512 ∧
    parse (canonical_header etc_hosts) = .ok ⟨ascii "etc/hosts", 5⟩ :=
  a_header_is_read_as_its_entry.1 etc_hosts
    ⟨by decide, by decide, by decide, .inl rfl, by decide, by decide⟩
    ⟨by decide, by decide, by decide, by decide, by decide, by decide, by decide, by decide⟩

end openwrt_mcp_device_codec.archive
