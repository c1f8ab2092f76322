-- What the records of a ZIP file say, read off the bytes: the check finds nothing else in them, and
-- no read of it is out of bounds.
import OpenwrtMcp.ZipArchive

open checked_bytes slices text

namespace openwrt_mcp_key_sources.archive

open openwrt_mcp_runtime.protection

variable {calm : Prop}

def u16 (bytes : Bytes) (offset : Nat) : Nat := number_at bytes 2 offset

def u32 (bytes : Bytes) (offset : Nat) : Nat := number_at bytes 4 offset

theorem u16_lt (bytes : Bytes) (offset : Nat) : u16 bytes offset < 65536 :=
    number_at_lt bytes 2 offset

theorem u32_lt (bytes : Bytes) (offset : Nat) : u32 bytes offset < 2 ^ 32 :=
    number_at_lt bytes 4 offset

theorem field16_spec (bytes : Bytes) {start offset : Nat} (h : calm → start + offset < 2 ^ 64) :
    Spec calm (field16 bytes start offset) fun n =>
      start + offset + 2 ≤ bytes.length ∧ n = u16 bytes (start + offset) := by
  refine (add_spec h).bind ?_
  intro at_offset heq
  rw [heq]
  exact number_spec 2 _ bytes (start + offset)

theorem field32_spec (bytes : Bytes) {start offset : Nat} (h : calm → start + offset < 2 ^ 64) :
    Spec calm (field32 bytes start offset) fun n =>
      start + offset + 4 ≤ bytes.length ∧ n = u32 bytes (start + offset) := by
  refine (add_spec h).bind ?_
  intro at_offset heq
  rw [heq]
  exact number_spec 4 _ bytes (start + offset)

/-! ## Extra fields -/

/-- The tags of the fields that fill the bytes, one after another. -/
inductive ExtraFields : Bytes → List Nat → Prop
  | nil : ExtraFields [] []
  | field {bytes : Bytes} {tags : List Nat} (fits : 4 + u16 bytes 2 ≤ bytes.length)
      (rest : ExtraFields (bytes.drop (4 + u16 bytes 2)) tags) :
      ExtraFields bytes (u16 bytes 0 :: tags)

/-- No field has the sizes of ZIP64, the method of AES or another name of the entry. -/
def PlainExtra (bytes : Bytes) : Prop :=
  ∃ tags, ExtraFields bytes tags ∧ 0x0001 ∉ tags ∧ 0x9901 ∉ tags ∧ 0x7075 ∉ tags

theorem u16_drop (bytes : Bytes) (position offset : Nat) :
    u16 (bytes.drop position) offset = u16 bytes (position + offset) := by
  unfold u16 number_at part
  rw [List.drop_drop]

theorem validate_extra_from_spec {bytes : Bytes} (hcalm : calm → bytes.length < 2 ^ 63)
    {todo position : Nat} (htodo : bytes.length ≤ position + todo)
    (hposition : position ≤ bytes.length) :
    Spec calm (validate_extra_from bytes todo position)
      fun _ => PlainExtra (bytes.drop position) := by
  induction todo generalizing position with
  | zero =>
    unfold validate_extra_from
    rw [if_neg (by omega), List.drop_eq_nil_of_le (by omega)]
    exact .ok ⟨[], .nil, by simp⟩
  | succ todo ih =>
    unfold validate_extra_from
    by_cases hmore : position < bytes.length
    · rw [if_pos hmore]
      refine (number_spec 2 _ bytes position).bind ?_
      intro tag htag
      refine (field16_spec bytes fun hc => ?_).bind ?_
      · have := hcalm hc
        omega
      intro length hlength
      refine Spec.guard fun hplain => ?_
      refine (add_spec fun _ => ?_).bind ?_
      · have := u16_lt bytes (position + 2)
        omega
      intro step hstep
      refine (checked_add_spec position step _).bind ?_
      intro next hnext
      refine Spec.guard fun hfits => ?_
      refine (ih (by omega) (by omega)).conseq ?_
      intro _ hrest
      obtain ⟨tags, hfields, hzip64, haes, hunicode⟩ := hrest
      have hsize : u16 (bytes.drop position) 2 = length := by rw [u16_drop, hlength.2]
      have htag0 : u16 (bytes.drop position) 0 = tag := by
        rw [u16_drop, htag.2]
        rfl
      refine ⟨tag :: tags, ?_, ?_⟩
      · rw [← htag0]
        refine .field (by rw [hsize, List.length_drop]; omega) ?_
        rw [hsize, List.drop_drop, ← hstep, ← hnext]
        exact hfields
      · simp only [not_or] at hplain
        simp only [List.mem_cons, not_or]
        exact ⟨⟨Ne.symm hplain.1, hzip64⟩, ⟨Ne.symm hplain.2.1, haes⟩,
          ⟨Ne.symm hplain.2.2, hunicode⟩⟩
    · rw [if_neg hmore, List.drop_eq_nil_of_le (by omega)]
      exact .ok ⟨[], .nil, by simp⟩

theorem validate_extra_spec {bytes : Bytes} (hcalm : calm → bytes.length < 2 ^ 63) :
    Spec calm (validate_extra bytes) fun _ => PlainExtra bytes :=
  validate_extra_from_spec hcalm (by omega) (by omega)

/-! ## Entries of the directory -/

def fields_at (bytes : Bytes) (p : Nat) : Fields where
  flags := u16 bytes (p + 8)
  method := u16 bytes (p + 10)
  crc := u32 bytes (p + 16)
  compressed := u32 bytes (p + 20)
  inflated := u32 bytes (p + 24)
  name_len := u16 bytes (p + 28)
  extra_len := u16 bytes (p + 30)
  comment_len := u16 bytes (p + 32)
  external := u32 bytes (p + 38)
  local_start := u32 bytes (p + 42)

/-- Where the next entry stands. -/
def next_at (bytes : Bytes) (p : Nat) : Nat :=
  let f := fields_at bytes p
  p + (46 + f.name_len + f.extra_len + f.comment_len)

def name_bytes_at (bytes : Bytes) (p : Nat) : Bytes :=
  part bytes (p + 46) (fields_at bytes p).name_len

def extra_at (bytes : Bytes) (p : Nat) : Bytes :=
  part bytes (p + 46 + (fields_at bytes p).name_len) (fields_at bytes p).extra_len

/-- The name of an entry whose name is a text. -/
def name_at (bytes : Bytes) (p : Nat) : Str := (from_utf8 (name_bytes_at bytes p)).getD []

def is_directory (name : Str) : Bool := name.getLast? = some '/'

theorem read_fields_spec (bytes : Bytes) {p : Nat} (h : calm → p + 46 < 2 ^ 64) :
    Spec calm (read_fields bytes p) (· = fields_at bytes p) := by
  have hfield : ∀ offset, offset ≤ 46 → calm → p + offset < 2 ^ 64 := by
    intro offset hle hc
    have := h hc
    omega
  refine (field16_spec bytes (hfield 8 (by decide))).bind fun flags hflags => ?_
  refine (field16_spec bytes (hfield 10 (by decide))).bind fun method hmethod => ?_
  refine (field32_spec bytes (hfield 16 (by decide))).bind fun crc hcrc => ?_
  refine (field32_spec bytes (hfield 20 (by decide))).bind fun compressed hcompressed => ?_
  refine (field32_spec bytes (hfield 24 (by decide))).bind fun inflated hinflated => ?_
  refine (field16_spec bytes (hfield 28 (by decide))).bind fun name_len hname => ?_
  refine (field16_spec bytes (hfield 30 (by decide))).bind fun extra_len hextra => ?_
  refine (field16_spec bytes (hfield 32 (by decide))).bind fun comment_len hcomment => ?_
  refine (field32_spec bytes (hfield 38 (by decide))).bind fun external hexternal => ?_
  refine (field32_spec bytes (hfield 42 (by decide))).bind fun local_start hlocal => ?_
  refine .ok ?_
  rw [hflags.2, hmethod.2, hcrc.2, hcompressed.2, hinflated.2, hname.2, hextra.2, hcomment.2,
    hexternal.2, hlocal.2]
  rfl

/-! ## Local headers -/

/-- Where the data of an entry ends. -/
def data_end (bytes : Bytes) (f : Fields) : Nat :=
  f.local_start + (30 + u16 bytes (f.local_start + 26) + u16 bytes (f.local_start + 28)) +
    f.compressed

/-- Where the descriptor starts, past the signature that it may have. -/
def descriptor_at (bytes : Bytes) (f : Fields) : Nat :=
  if part bytes (data_end bytes f) 4 = DESCRIPTOR then data_end bytes f + 4 else data_end bytes f

/-- An entry with this flag has a descriptor after its data. -/
def has_descriptor (f : Fields) : Bool := f.flags &&& 8 ≠ 0

/-- From the start of the local header to the end of the data, or of the descriptor. -/
def region (bytes : Bytes) (f : Fields) : Nat × Nat :=
  (f.local_start, if has_descriptor f then descriptor_at bytes f + 12 else data_end bytes f)

/-- The three numbers of the entry stand at these offsets. -/
structure NumbersAt (bytes : Bytes) (start : Nat) (offsets : Nat × Nat × Nat)
    (expected : ExpectedEntry) : Prop where
  crc : u32 bytes (start + offsets.1) = expected.crc
  compressed : u32 bytes (start + offsets.2.1) = expected.compressed
  inflated : u32 bytes (start + offsets.2.2) = expected.inflated

/-- What the directory expects of a local header. -/
def expected_of (name : Bytes) (f : Fields) : ExpectedEntry :=
  ⟨name, f.flags, f.method, f.crc, f.compressed, f.inflated⟩

/-- The local header says what the directory says. -/
structure LocalAgrees (bytes : Bytes) (name : Bytes) (f : Fields) (directory_start : Nat) :
    Prop where
  signature : part bytes f.local_start 4 = LOCAL
  header : f.local_start + 30 ≤ directory_start
  flags : u16 bytes (f.local_start + 6) = f.flags
  method : u16 bytes (f.local_start + 8) = f.method
  same_name : part bytes (f.local_start + 30) (u16 bytes (f.local_start + 26)) = name
  extra : PlainExtra (part bytes (f.local_start + 30 + u16 bytes (f.local_start + 26))
    (u16 bytes (f.local_start + 28)))
  numbers : if has_descriptor f then
      NumbersAt bytes (descriptor_at bytes f) (0, 4, 8) (expected_of name f)
    else NumbersAt bytes f.local_start (14, 18, 22) (expected_of name f)
  region : (region bytes f).2 ≤ directory_start

theorem check_numbers_spec (bytes : Bytes) (start : Nat) (offsets : Nat × Nat × Nat)
    (expected : ExpectedEntry) (hfirst : calm → start + offsets.1 < 2 ^ 64)
    (hsecond : calm → start + offsets.2.1 < 2 ^ 64)
    (hthird : calm → start + offsets.2.2 < 2 ^ 64) :
    Spec calm (check_numbers bytes start offsets expected)
      fun _ => NumbersAt bytes start offsets expected := by
  refine (field32_spec bytes hfirst).bind fun crc hcrc => ?_
  refine Spec.guard fun hsame => ?_
  refine (field32_spec bytes hsecond).bind fun compressed hcompressed => ?_
  refine Spec.guard fun hsame' => ?_
  refine (field32_spec bytes hthird).bind fun inflated hinflated => ?_
  refine Spec.guard fun hsame'' => ?_
  rw [hcrc.2, not_not] at hsame
  rw [hcompressed.2, not_not] at hsame'
  rw [hinflated.2, not_not] at hsame''
  exact .ok ⟨hsame, hsame', hsame''⟩

theorem check_early_spec (bytes : Bytes) {start : Nat} {fields : List (Nat × Nat)}
    (h : calm → ∀ e ∈ fields, start + e.1 < 2 ^ 64) :
    Spec calm (check_early bytes start fields) fun _ => True := by
  induction fields with
  | nil => exact .ok trivial
  | cons e rest ih =>
    unfold check_early
    refine (field32_spec bytes fun hc => h hc e (by simp)).bind fun local_value _ => ?_
    exact Spec.guard fun _ => ih fun hc e he => h hc e (List.mem_cons_of_mem _ he)

theorem validate_data_spec {bytes name : Bytes} {f : Fields}
    (hlocal : f.local_start < 2 ^ 32) (hcompressed : f.compressed < 2 ^ 32) :
    Spec calm (validate_data bytes f.local_start (expected_of name f) (data_end bytes f))
      fun stop => stop = (region bytes f).2 ∧ (if has_descriptor f then
        NumbersAt bytes (descriptor_at bytes f) (0, 4, 8) (expected_of name f)
        else NumbersAt bytes f.local_start (14, 18, 22) (expected_of name f)) := by
  have hname := u16_lt bytes (f.local_start + 26)
  have hextra := u16_lt bytes (f.local_start + 28)
  have hend : data_end bytes f < 2 ^ 34 := by
    unfold data_end
    omega
  unfold validate_data region has_descriptor
  by_cases hflag : (expected_of name f).flags &&& 8 = 0
  · have hnone : decide (f.flags &&& 8 ≠ 0) = false := by
      rw [decide_eq_false_iff_not, not_not]
      exact hflag
    rw [if_pos hflag, hnone]
    refine (check_numbers_spec bytes f.local_start (14, 18, 22) _ (fun _ => ?_) (fun _ => ?_)
      (fun _ => ?_)).bind fun _ hnumbers => ?_
    · show f.local_start + 14 < 2 ^ 64
      omega
    · show f.local_start + 18 < 2 ^ 64
      omega
    · show f.local_start + 22 < 2 ^ 64
      omega
    · exact .ok ⟨rfl, hnumbers⟩
  · have hsome : decide (f.flags &&& 8 ≠ 0) = true := by
      rw [decide_eq_true_eq]
      exact hflag
    rw [if_neg hflag, hsome]
    refine (check_early_spec bytes fun _ e he => ?_).bind fun _ _ => ?_
    · have hoffset : e.1 ≤ 22 := by
        simp only [List.mem_cons, List.not_mem_nil, or_false] at he
        rcases he with rfl | rfl | rfl
        · exact Nat.le_of_ble_eq_true rfl
        · exact Nat.le_of_ble_eq_true rfl
        · exact Nat.le_of_ble_eq_true rfl
      omega
    have hdescriptor : Spec calm (descriptor_start bytes (data_end bytes f))
        (· = descriptor_at bytes f) := by
      refine (span_spec _ bytes (data_end bytes f) 4).bind fun signature hsignature => ?_
      rw [hsignature.2]
      unfold descriptor_at
      split
      · exact add_spec fun _ => by omega
      · exact .ok rfl
    refine hdescriptor.bind fun descriptor heq => ?_
    rw [heq]
    have hat : descriptor_at bytes f < 2 ^ 35 := by
      unfold descriptor_at
      split <;> omega
    refine (check_numbers_spec bytes (descriptor_at bytes f) (0, 4, 8) _ (fun _ => ?_) (fun _ => ?_)
      (fun _ => ?_)).bind fun _ hnumbers => ?_
    · show descriptor_at bytes f + 0 < 2 ^ 64
      omega
    · show descriptor_at bytes f + 4 < 2 ^ 64
      omega
    · show descriptor_at bytes f + 8 < 2 ^ 64
      omega
    · exact (checked_add_spec _ 12 _).conseq fun stop hstop => ⟨hstop, hnumbers⟩

theorem validate_local_spec {bytes name : Bytes} {f : Fields} {directory_start : Nat}
    (hcalm : calm → bytes.length < 2 ^ 62) (hlocal : f.local_start < 2 ^ 32)
    (hcompressed : f.compressed < 2 ^ 32) :
    Spec calm (validate_local bytes f.local_start (expected_of name f) directory_start)
      fun r => r = region bytes f ∧ LocalAgrees bytes name f directory_start := by
  have hoffset : ∀ offset, offset ≤ 30 → calm → f.local_start + offset < 2 ^ 64 := by
    intro offset hle _
    omega
  unfold validate_local
  refine (span_spec _ bytes f.local_start 4).bind fun signature hsignature => ?_
  refine Spec.guard fun hsigned => ?_
  refine (add_spec (hoffset 30 (by decide))).bind fun header hheader => ?_
  refine Spec.guard fun hbefore => ?_
  refine (field16_spec bytes (hoffset 26 (by decide))).bind fun name_len hname_len => ?_
  refine (field16_spec bytes (hoffset 28 (by decide))).bind fun extra_len hextra_len => ?_
  refine (field16_spec bytes (hoffset 6 (by decide))).bind fun flags hflags => ?_
  refine Spec.guard fun hsame_flags => ?_
  refine (field16_spec bytes (hoffset 8 (by decide))).bind fun method hmethod => ?_
  refine Spec.guard fun hsame_method => ?_
  refine (span_spec _ bytes header name_len).bind fun local_name hname => ?_
  refine Spec.guard fun hsame_name => ?_
  have hname_lt := u16_lt bytes (f.local_start + 26)
  have hextra_lt := u16_lt bytes (f.local_start + 28)
  rw [← hname_len.2] at hname_lt
  rw [← hextra_len.2] at hextra_lt
  refine (add_spec fun _ => by omega).bind fun extra_start hextra_start => ?_
  refine (span_spec _ bytes extra_start extra_len).bind fun extra hextra => ?_
  refine (validate_extra_spec fun hc => ?_).bind fun _ hplain => ?_
  · have hlength := hcalm hc
    rw [hextra.2]
    unfold part
    rw [List.length_take, List.length_drop]
    omega
  refine (add_spec fun _ => by omega).bind fun named hnamed => ?_
  refine (add_spec fun _ => by omega).bind fun size hsize => ?_
  refine (checked_add_spec _ _ _).bind fun data hdata => ?_
  refine (checked_add_spec _ _ _).bind fun stop hstop => ?_
  have hstop_eq : stop = data_end bytes f := by
    rw [hstop, hdata, hsize, hnamed, hname_len.2, hextra_len.2]
    rfl
  rw [hstop_eq]
  refine (validate_data_spec hlocal hcompressed).bind fun data_stop hdata_stop => ?_
  refine Spec.guard fun hwithin => ?_
  rw [not_not] at hsigned hsame_flags hsame_method hsame_name
  refine .ok ⟨by rw [hdata_stop.1]; rfl, ?_⟩
  constructor
  · rw [← hsignature.2, hsigned]
  · omega
  · rw [← hflags.2]
    exact hsame_flags
  · rw [← hmethod.2]
    exact hsame_method
  · rw [← hname_len.2, ← hheader, ← hname.2]
    exact hsame_name
  · rw [← hname_len.2, ← hextra_len.2, ← hheader, ← hextra_start, ← hextra.2]
    exact hplain
  · exact hdata_stop.2
  · rw [← hdata_stop.1]
    exact Nat.le_of_not_lt hwithin

end openwrt_mcp_key_sources.archive
