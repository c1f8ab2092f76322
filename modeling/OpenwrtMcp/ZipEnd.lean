-- Which signatures may stand behind the record that the check of a ZIP file found. The search
-- through the comment begins where the comment begins, so it misses one that starts before.
import OpenwrtMcp.ZipLaws

open checked_bytes programs slices text

namespace openwrt_mcp_key_sources.archive

open openwrt_mcp_runtime.protection

/-- `&[u8]`, which is never longer than `isize::MAX`. -/
structure ByteSlice where
  bytes : Bytes
  bounded : bytes.length < 2 ^ 63

/-! ## Bytes and signatures -/

/-- A byte of the file, zero behind its end. -/
def byte (bytes : Bytes) (offset : Nat) : Nat := (bytes.getD offset 0).toNat

theorem byte_lt (bytes : Bytes) (offset : Nat) : byte bytes offset < 256 := UInt8.toNat_lt _

theorem byte_append_left {bytes : Bytes} (more : Bytes) {offset : Nat}
    (h : offset < bytes.length) : byte (bytes ++ more) offset = byte bytes offset := by
  simp [byte, List.getElem?_append_left h]

theorem byte_append_right {bytes : Bytes} (more : Bytes) {offset : Nat}
    (h : bytes.length ≤ offset) : byte (bytes ++ more) offset =
      byte more (offset - bytes.length) := by
  simp [byte, List.getElem?_append_right h]

theorem number_at_succ (bytes : Bytes) (width offset : Nat) : number_at bytes (width + 1) offset =
    byte bytes offset + 256 * number_at bytes width (offset + 1) := by
  unfold number_at part byte
  by_cases h : offset < bytes.length
  · rw [List.drop_eq_getElem_cons h, List.take_succ_cons, from_le_bytes]
    simp [h]
  · have hend : bytes.length ≤ offset := Nat.le_of_not_lt h
    simp [List.drop_eq_nil_of_le hend, List.drop_eq_nil_of_le (Nat.le_succ_of_le hend),
      List.getElem?_eq_none hend, from_le_bytes]

theorem u16_eq (bytes : Bytes) (offset : Nat) :
    u16 bytes offset = byte bytes offset + 256 * byte bytes (offset + 1) := by
  unfold u16
  rw [number_at_succ, number_at_succ]
  simp [number_at, part, from_le_bytes]

theorem u32_eq (bytes : Bytes) (offset : Nat) : u32 bytes offset = byte bytes offset +
    256 * (byte bytes (offset + 1) + 256 * (byte bytes (offset + 2) +
      256 * byte bytes (offset + 3))) := by
  unfold u32
  rw [number_at_succ, number_at_succ, number_at_succ, number_at_succ]
  simp [number_at, part, from_le_bytes]

theorem signature_at_iff {bytes : Bytes} {p : Nat} : SignatureAt bytes p ↔
    byte bytes p = 0x50 ∧ byte bytes (p + 1) = 0x4b ∧ byte bytes (p + 2) = 5 ∧
      byte bytes (p + 3) = 6 := by
  have hdrop : ∀ k, byte bytes (p + k) = byte (bytes.drop p) k := by
    intro k
    simp [byte]
  rw [← Nat.add_zero p, hdrop 0, Nat.add_zero, hdrop 1, hdrop 2, hdrop 3, SignatureAt, part]
  have hbyte : ∀ (b : UInt8) (n : Nat), n < 256 → (b.toNat = n ↔ b = UInt8.ofNat n) := by
    intro b n hn
    constructor
    · intro h
      rw [← h, UInt8.ofNat_toNat]
    · intro h
      rw [h, UInt8.toNat_ofNat', Nat.mod_eq_of_lt hn]
  rcases bytes.drop p with _ | ⟨a, _ | ⟨b, _ | ⟨c, _ | ⟨d, rest⟩⟩⟩⟩
  · simp [byte, END]
  · simp [byte, END]
  · simp [byte, END]
  · simp [byte, END]
  · simp [byte, END, hbyte]

theorem has_end_iff {bytes : Bytes} : has_end bytes = true ↔ ∃ q, SignatureAt bytes q := by
  induction bytes with
  | nil => simp [has_end, SignatureAt, part, END]
  | cons b rest ih =>
    rw [has_end, Bool.or_eq_true, decide_eq_true_eq, ih]
    constructor
    · intro h
      rcases h with h | ⟨q, hq⟩
      · exact ⟨0, h⟩
      · exact ⟨q + 1, hq⟩
    · intro h
      obtain ⟨q, hq⟩ := h
      cases q with
      | zero => exact .inl hq
      | succ q => exact .inr ⟨q, hq⟩

theorem signature_at_drop {bytes : Bytes} {p q : Nat} :
    SignatureAt (bytes.drop p) q ↔ SignatureAt bytes (p + q) := by
  simp [SignatureAt, part]

/-! ## Signatures that straddle the fields -/

/-- A signature starts in the last two fields of the record, which are the offset of the directory
and the length of the comment, and goes on in the comment. -/
def Straddles (bytes : Bytes) (p : Nat) : Prop :=
  let offset := u32 bytes (p + 16)
  let length := u16 bytes (p + 20)
  let comment := bytes.drop (p + 22)
  offset = 0x06054b50 ∨
  (offset / 256 = 0x054b50 ∧ length % 256 = 6) ∨
  (offset / 65536 = 0x4b50 ∧ length = 0x0605) ∨
  (offset / 16777216 = 0x50 ∧ length = 0x054b ∧ byte comment 0 = 6) ∨
  (length = 0x4b50 ∧ byte comment 0 = 5 ∧ byte comment 1 = 6) ∨
  (length / 256 = 0x50 ∧ byte comment 0 = 0x4b ∧ byte comment 1 = 5 ∧ byte comment 2 = 6)

/-- The last record of the file has a signature that straddles its fields. -/
def Straddled (bytes : Bytes) : Prop := ∃ p, LastEnd bytes p ∧ Straddles bytes p

theorem straddles_iff {bytes : Bytes} {p : Nat} :
    Straddles bytes p ↔ ∃ k, 16 ≤ k ∧ k ≤ 21 ∧ SignatureAt bytes (p + k) := by
  have hcomment : ∀ k, byte (bytes.drop (p + 22)) k = byte bytes (p + 22 + k) := by
    intro k
    simp [byte]
  have hlt := byte_lt bytes
  simp only [Straddles, hcomment, u16_eq, u32_eq, signature_at_iff, Nat.add_assoc, Nat.reduceAdd]
  -- what a byte is does not matter to the arithmetic
  generalize byte bytes = b at hlt ⊢
  have h16 := hlt (p + 16)
  have h17 := hlt (p + 17)
  have h18 := hlt (p + 18)
  have h19 := hlt (p + 19)
  have h20 := hlt (p + 20)
  have h21 := hlt (p + 21)
  constructor
  · intro h
    rcases h with h | h | h | h | h | h
    · exact ⟨16, by omega, by omega, by simp only [Nat.reduceAdd]; omega⟩
    · exact ⟨17, by omega, by omega, by simp only [Nat.reduceAdd]; omega⟩
    · exact ⟨18, by omega, by omega, by simp only [Nat.reduceAdd]; omega⟩
    · exact ⟨19, by omega, by omega, by simp only [Nat.reduceAdd]; omega⟩
    · exact ⟨20, by omega, by omega, by simp only [Nat.reduceAdd]; omega⟩
    · exact ⟨21, by omega, by omega, by simp only [Nat.reduceAdd]; omega⟩
  · intro h
    obtain ⟨k, hlow, hhigh, h⟩ := h
    obtain rfl | rfl | rfl | rfl | rfl | rfl : k = 16 ∨ k = 17 ∨ k = 18 ∨ k = 19 ∨ k = 20 ∨
      k = 21 := by omega
    all_goals simp only [Nat.reduceAdd] at h
    · exact .inl (by omega)
    · exact .inr (.inl (by omega))
    · exact .inr (.inr (.inl (by omega)))
    · exact .inr (.inr (.inr (.inl (by omega))))
    · exact .inr (.inr (.inr (.inr (.inl (by omega)))))
    · exact .inr (.inr (.inr (.inr (.inr (by omega)))))

/-- The other fields of the record hold no part of a signature: its own bytes, the disks that are
zero, the two counts that are equal, and the size that is bounded. -/
theorem no_signature_in_fields {bytes : Bytes} {limits : KeyLimits} {p count start : Nat}
    (hends : EndsAt bytes p) (h : EndRecord bytes limits p count start)
    (hlimits : limits.validate = .ok ()) {k : Nat} (hlow : 1 ≤ k) (hhigh : k ≤ 15) :
    ¬ SignatureAt bytes (p + k) := by
  obtain ⟨-, hentries, hdirectory⟩ := caps_of_validate hlimits
  obtain ⟨h0, h1, h2, h3⟩ := signature_at_iff.1 hends.signature
  have htotal := h.total
  have hon := h.on_this_disk
  have hdisks := h.disks
  have hcount := h.entries
  have hsize := h.size
  simp only [u16_eq, u32_eq, Nat.add_assoc, Nat.reduceAdd] at htotal hon hdisks hsize
  intro hsignature
  rw [signature_at_iff] at hsignature
  generalize byte bytes = b at *
  obtain rfl | rfl | rfl | rfl | rfl | rfl | rfl | rfl | rfl | rfl | rfl | rfl | rfl | rfl | rfl :
    k = 1 ∨ k = 2 ∨ k = 3 ∨ k = 4 ∨ k = 5 ∨ k = 6 ∨ k = 7 ∨ k = 8 ∨ k = 9 ∨ k = 10 ∨ k = 11 ∨
      k = 12 ∨ k = 13 ∨ k = 14 ∨ k = 15 := by omega
  all_goals
    simp only [Nat.add_assoc, Nat.reduceAdd] at hsignature
    omega

/-! ## The record that is found -/

theorem LastEnd.eq {bytes : Bytes} {p q : Nat} (hp : LastEnd bytes p) (hq : LastEnd bytes q) :
    p = q := by
  by_contra hne
  rcases Nat.lt_or_gt_of_ne hne with hlt | hlt
  · exact hp.last q hlt hq.toEndsAt
  · exact hq.last p hlt hp.toEndsAt

/-- The search finds the last record. -/
theorem find_end_eq {bytes : Bytes} {p start more : Nat} (hbound : start + more + 65557 < 2 ^ 64)
    (h : LastEnd bytes p) (hlow : start ≤ p) (hhigh : p ≤ start + more) :
    find_end bytes start more = .ok (some p) := by
  induction more with
  | zero =>
    obtain rfl : p = start := by omega
    unfold find_end
    rw [is_end_eq (by omega), decide_eq_true h.toEndsAt]
    simp [Bind.bind, Except.bind]
  | succ more ih =>
    unfold find_end
    rw [is_end_eq (by omega)]
    by_cases heq : p = start + (more + 1)
    · rw [← heq, decide_eq_true h.toEndsAt]
      simp [Bind.bind, Except.bind]
    · rw [decide_eq_false (h.last _ (by omega))]
      simp only [Bind.bind, Except.bind, Bool.false_eq_true, if_false]
      exact ih (by omega) (by omega)

theorem locate_eq {bytes : Bytes} {p : Nat} (hbound : bytes.length < 2 ^ 63)
    (h : LastEnd bytes p) (hcomment : has_end (bytes.drop (p + 22)) = false) :
    locate bytes = .ok p := by
  have hends := h.comment
  have hlength := u16_lt bytes (p + 20)
  unfold locate
  rw [if_neg (by omega)]
  dsimp only
  rw [find_end_eq (by omega) h (by omega) (by omega)]
  simp only [Bind.bind, Except.bind]
  rw [add_eq (by omega)]
  simp only
  rw [slice_eq (by omega) (Nat.le_refl _), List.take_of_length_le (by simp)]
  simp [hcomment]

/-- The record that is used holds the last signature of the file, unless one straddles the fields of
that record and its comment. -/
theorem the_last_signature_is_found_unless_it_straddles {file : ByteSlice} {requested : Str}
    {limits : KeyLimits} {i : Nat} (hlimits : limits.validate = .ok ())
    (h : preflight file.bytes requested limits = .ok i) :
    (∀ p, locate file.bytes = .ok p → ∀ q, p < q → ¬ SignatureAt file.bytes q) ↔
      ¬ Straddled file.bytes := by
  obtain ⟨p, hlocate, hread⟩ := except_bind_ok.1 h
  have hlocated : Spec False (locate file.bytes) _ := locate_spec file.bounded
  obtain ⟨hlast, hcomment⟩ := hlocated.2 p hlocate
  have hends := hlast.comment
  have hdirectory : Spec False (read_directory file.bytes requested limits p) _ :=
    read_directory_spec (fun hc => hc.elim) (by omega)
  obtain ⟨start, ps, hchecked⟩ := hdirectory.2 i hread
  constructor
  · intro hnone hstraddled
    obtain ⟨p', hlast', hstraddles⟩ := hstraddled
    obtain rfl := hlast'.eq hlast
    obtain ⟨k, hlow, -, hsignature⟩ := straddles_iff.1 hstraddles
    exact hnone p' hlocate (p' + k) (by omega) hsignature
  · intro hnot p' hlocate' q hlt hsignature
    rw [hlocate] at hlocate'
    obtain rfl := Except.ok.inj hlocate'
    obtain ⟨k, rfl⟩ := Nat.exists_eq_add_of_lt hlt
    rw [Nat.add_assoc] at hsignature
    -- a signature in the fields, one that straddles them, or one in the comment
    by_cases hfields : k + 1 ≤ 15
    · exact no_signature_in_fields hlast.toEndsAt hchecked.record hlimits (by omega) hfields
        hsignature
    · by_cases hstraddling : k + 1 ≤ 21
      · exact hnot ⟨p, hlast, straddles_iff.2 ⟨k + 1, by omega, hstraddling, hsignature⟩⟩
      · have hfound : has_end (file.bytes.drop (p + 22)) = true := by
          refine has_end_iff.2 ⟨k + 1 - 22, signature_at_drop.2 ?_⟩
          rw [show p + 22 + (k + 1 - 22) = p + (k + 1) by omega]
          exact hsignature
        rw [hcomment] at hfound
        cases hfound

/-! ## A longer file with the same directory -/

section
variable {bytes more : Bytes}

theorem field16_follows (start offset : Nat) :
    Follows (field16 bytes start offset) (field16 (bytes ++ more) start offset) :=
  (Follows.refl _).bind fun _ _ => number_follows 2 _ _ _ _

theorem field32_follows (start offset : Nat) :
    Follows (field32 bytes start offset) (field32 (bytes ++ more) start offset) :=
  (Follows.refl _).bind fun _ _ => number_follows 4 _ _ _ _

theorem end_record_follows (limits : KeyLimits) (stop : Nat) :
    Follows (end_record bytes limits stop) (end_record (bytes ++ more) limits stop) := by
  refine (field16_follows stop 10).bind fun count _ => ?_
  refine (field32_follows stop 12).bind fun size _ => ?_
  refine (field32_follows stop 16).bind fun start _ => ?_
  refine (field16_follows stop 4).bind fun disk _ => ?_
  refine Follows.guard ?_
  refine (field16_follows stop 6).bind fun directory_disk _ => ?_
  refine Follows.guard ?_
  exact (field16_follows stop 8).bind fun disk_count _ => .refl _

theorem read_fields_follows (position : Nat) :
    Follows (read_fields bytes position) (read_fields (bytes ++ more) position) := by
  refine (field16_follows position 8).bind fun flags _ => ?_
  refine (field16_follows position 10).bind fun method _ => ?_
  refine (field32_follows position 16).bind fun crc _ => ?_
  refine (field32_follows position 20).bind fun compressed _ => ?_
  refine (field32_follows position 24).bind fun inflated _ => ?_
  refine (field16_follows position 28).bind fun name_len _ => ?_
  refine (field16_follows position 30).bind fun extra_len _ => ?_
  refine (field16_follows position 32).bind fun comment_len _ => ?_
  refine (field32_follows position 38).bind fun external _ => ?_
  exact (field32_follows position 42).bind fun local_start _ => .refl _

theorem check_early_follows (local_start : Nat) (fields : List (Nat × Nat)) :
    Follows (check_early bytes local_start fields)
      (check_early (bytes ++ more) local_start fields) := by
  induction fields with
  | nil => exact .refl _
  | cons field rest ih => exact (field32_follows local_start field.1).bind fun _ _ => ih.guard

theorem check_numbers_follows (start : Nat) (offsets : Nat × Nat × Nat) (expected : ExpectedEntry) :
    Follows (check_numbers bytes start offsets expected)
      (check_numbers (bytes ++ more) start offsets expected) := by
  refine (field32_follows start offsets.1).bind fun crc _ => ?_
  refine Follows.guard ?_
  refine (field32_follows start offsets.2.1).bind fun compressed _ => ?_
  refine Follows.guard ?_
  exact (field32_follows start offsets.2.2).bind fun inflated _ => .refl _

theorem validate_data_follows (local_start : Nat) (expected : ExpectedEntry) (stop : Nat) :
    Follows (validate_data bytes local_start expected stop)
      (validate_data (bytes ++ more) local_start expected stop) := by
  unfold validate_data
  by_cases hflag : expected.flags &&& 8 = 0
  · rw [if_pos hflag, if_pos hflag]
    exact (check_numbers_follows local_start _ expected).bind fun _ _ => .refl _
  · rw [if_neg hflag, if_neg hflag]
    refine (check_early_follows local_start _).bind fun _ _ => ?_
    refine ((span_follows _ bytes more stop 4).bind fun _ _ => .refl _).bind fun start _ => ?_
    exact (check_numbers_follows start _ expected).bind fun _ _ => .refl _

theorem validate_local_follows (local_start : Nat) (expected : ExpectedEntry)
    (directory_start : Nat) : Follows (validate_local bytes local_start expected directory_start)
      (validate_local (bytes ++ more) local_start expected directory_start) := by
  refine (span_follows _ bytes more local_start 4).bind fun signature _ => ?_
  refine Follows.guard ?_
  refine (Follows.refl _).bind fun header _ => ?_
  refine Follows.guard ?_
  refine (field16_follows local_start 26).bind fun name_len _ => ?_
  refine (field16_follows local_start 28).bind fun extra_len _ => ?_
  refine (field16_follows local_start 6).bind fun flags _ => ?_
  refine Follows.guard ?_
  refine (field16_follows local_start 8).bind fun method _ => ?_
  refine Follows.guard ?_
  refine (span_follows _ bytes more header name_len).bind fun name _ => ?_
  refine Follows.guard ?_
  refine (Follows.refl _).bind fun extra_start _ => ?_
  refine (span_follows _ bytes more extra_start extra_len).bind fun extra _ => ?_
  refine (Follows.refl _).bind fun _ _ => ?_
  refine (Follows.refl _).bind fun named _ => ?_
  refine (Follows.refl _).bind fun size _ => ?_
  refine (Follows.refl _).bind fun data _ => ?_
  refine (Follows.refl _).bind fun stop _ => ?_
  exact (validate_data_follows local_start expected stop).bind fun _ _ => .refl _

theorem visit_entry_follows (requested : Str) (limits : KeyLimits)
    (stop directory_start index : Nat) (walk : Walk) :
    Follows (visit_entry bytes requested limits stop directory_start index walk)
      (visit_entry (bytes ++ more) requested limits stop directory_start index walk) := by
  refine (span_follows _ bytes more walk.position 4).bind fun signature _ => ?_
  refine Follows.guard ?_
  refine (Follows.refl _).bind fun header _ => ?_
  refine Follows.guard ?_
  refine (read_fields_follows walk.position).bind fun f _ => ?_
  refine (field16_follows walk.position 34).bind fun disk _ => ?_
  refine Follows.guard ?_
  refine (span_follows _ bytes more header f.name_len).bind fun name_bytes _ => ?_
  cases from_utf8 name_bytes with
  | none => exact .refl _
  | some name =>
    refine Follows.guard ?_
    refine (Follows.refl _).bind fun named _ => ?_
    refine (Follows.refl _).bind fun extended _ => ?_
    refine (Follows.refl _).bind fun size _ => ?_
    refine (Follows.refl _).bind fun next _ => ?_
    refine Follows.guard ?_
    refine (Follows.refl _).bind fun extra_start _ => ?_
    refine (span_follows _ bytes more extra_start f.extra_len).bind fun extra _ => ?_
    refine (Follows.refl _).bind fun _ _ => ?_
    refine (Follows.refl _).bind fun _ _ => ?_
    exact (validate_local_follows f.local_start _ directory_start).bind fun _ _ => .refl _

theorem visit_entries_follows (requested : Str) (limits : KeyLimits)
    (stop directory_start todo index : Nat) (walk : Walk) :
    Follows (visit_entries bytes requested limits stop directory_start todo index walk)
      (visit_entries (bytes ++ more) requested limits stop directory_start todo index walk) := by
  induction todo generalizing index walk with
  | zero => exact .refl _
  | succ todo ih =>
    exact (visit_entry_follows requested limits stop directory_start index walk).bind
      fun walk _ => ih (index + 1) walk

/-- The directory is read at its offsets, so bytes behind the file do not change it. -/
theorem read_directory_follows (requested : Str) (limits : KeyLimits) (stop : Nat) :
    Follows (read_directory bytes requested limits stop)
      (read_directory (bytes ++ more) requested limits stop) :=
  (end_record_follows limits stop).bind fun r _ =>
    (visit_entries_follows requested limits stop r.2 r.1 0 _).bind fun _ _ => .refl _

end

/-! ## A signature in the length of the comment -/

/-- A file with one entry, the stored byte `x` under the name `k`, up to the length of its
comment. -/
def one_key : Bytes :=
  LOCAL ++ [20, 0, 0, 0, 0, 0, 0, 0, 0, 0, 131, 22, 220, 140, 1, 0, 0, 0, 1, 0, 0, 0, 1, 0, 0, 0,
    107, 120] ++
  CENTRAL ++ [20, 0, 20, 0, 0, 0, 0, 0, 0, 0, 0, 0, 131, 22, 220, 140, 1, 0, 0, 0, 1, 0, 0, 0, 1, 0,
    0, 0, 0, 0, 0, 0, 0, 0, 0, 0, 0, 0, 0, 0, 0, 0, 107] ++
  END ++ [0, 0, 0, 0, 1, 0, 1, 0, 47, 0, 0, 0, 32, 0, 0, 0]

/-- The file up to the end of a signature that starts at the length of the comment. -/
def straddling_head : Bytes := one_key ++ [80, 75] ++ [5, 6]

/-- The comment is 0x4b50 bytes long. -/
def straddling : Bytes := straddling_head ++ List.replicate 19278 0

theorem straddling_length : straddling.length = 19381 := by
  unfold straddling
  rw [List.length_append, List.length_replicate]
  rfl

theorem byte_straddling_head {q : Nat} (h : q < 103) :
    byte straddling q = byte straddling_head q :=
  byte_append_left _ (by simpa [straddling_head, one_key, LOCAL, CENTRAL, END] using h)

/-- The rest of the comment is zero. -/
theorem byte_straddling_tail {q : Nat} (h : 103 ≤ q) : byte straddling q = 0 := by
  unfold straddling
  rw [byte_append_right _ (by simpa [straddling_head, one_key, LOCAL, CENTRAL, END] using h)]
  unfold byte
  rw [List.getD_eq_getElem?_getD, List.getElem?_replicate]
  split
  · rfl
  · rfl

theorem last_end_of_straddling : LastEnd straddling 79 := by
  constructor
  · constructor
    · rw [signature_at_iff, byte_straddling_head (by decide), byte_straddling_head (by decide),
        byte_straddling_head (by decide), byte_straddling_head (by decide)]
      decide
    · rw [u16_eq, byte_straddling_head (by decide), byte_straddling_head (by decide),
        straddling_length]
      decide
  · intro q hlt hends
    have hfirst := (signature_at_iff.1 hends.signature).1
    have hcomment := hends.comment
    by_cases hhead : q < 103
    · rw [byte_straddling_head hhead] at hfirst
      have hfrom : ∀ q < 103, 79 < q → byte straddling_head q = 0x50 → q = 99 := by decide
      obtain rfl := hfrom q hhead hlt hfirst
      rw [u16_eq, byte_straddling_tail (by decide), byte_straddling_tail (by decide),
        straddling_length] at hcomment
      omega
    · rw [byte_straddling_tail (Nat.le_of_not_lt hhead)] at hfirst
      omega

theorem no_end_in_zeros (n : Nat) : has_end (List.replicate n 0) = false := by
  induction n with
  | zero => rfl
  | succ n ih =>
    rw [List.replicate_succ, has_end, ih, Bool.or_false, decide_eq_false]
    intro heq
    cases heq

/-- The rest of a signature and zeros hold no signature. -/
theorem no_end_behind (n : Nat) : has_end ([5, 6] ++ List.replicate n 0) = false := by
  rw [List.cons_append, has_end, List.cons_append, has_end, List.nil_append, no_end_in_zeros]
  simp [END]

theorem straddling_passes : preflight straddling "k".toList KeyLimits.default = .ok 0 := by
  have hbound : straddling.length < 2 ^ 63 := by
    rw [straddling_length]
    decide
  have hcomment : has_end (straddling.drop (79 + 22)) = false := by
    have hdrop : straddling.drop (79 + 22) = [5, 6] ++ List.replicate 19278 0 := by
      unfold straddling
      rw [List.drop_append_of_le_length (by decide)]
      rfl
    rw [hdrop]
    exact no_end_behind 19278
  have hread : read_directory straddling_head "k".toList KeyLimits.default 79 = .ok 0 := by
    have hpasses : (read_directory straddling_head "k".toList KeyLimits.default 79).toOption =
        some 0 := by decide
    cases hok : read_directory straddling_head "k".toList KeyLimits.default 79 with
    | error e =>
      rw [hok] at hpasses
      cases hpasses
    | ok i =>
      rw [hok] at hpasses
      cases hpasses
      rfl
  have hlonger := @read_directory_follows straddling_head (List.replicate 19278 0) "k".toList
    KeyLimits.default 79 0 hread
  rw [← straddling] at hlonger
  exact except_bind_ok.2 ⟨79, locate_eq hbound last_end_of_straddling hcomment, hlonger⟩

/-- The record that is used is not the one that a search for the last signature finds. -/
theorem a_signature_straddles_the_length_of_the_comment :
    ¬ ∀ (file : ByteSlice) (requested : Str) (limits : KeyLimits) (i : Nat),
      limits.validate = .ok () → preflight file.bytes requested limits = .ok i →
        ∀ p, locate file.bytes = .ok p → ∀ q, p < q → ¬ SignatureAt file.bytes q := by
  intro hclaim
  have hbound : straddling.length < 2 ^ 63 := by
    rw [straddling_length]
    decide
  have hlocate : locate straddling = .ok 79 := by
    obtain ⟨p, hlocate, -⟩ := except_bind_ok.1 straddling_passes
    have hlocated : Spec False (locate straddling) _ := locate_spec hbound
    rw [hlocate, (hlocated.2 p hlocate).1.eq last_end_of_straddling]
  refine hclaim ⟨straddling, hbound⟩ _ _ 0 rfl straddling_passes 79 hlocate 99 (by decide) ?_
  rw [signature_at_iff, byte_straddling_head (by decide), byte_straddling_head (by decide),
    byte_straddling_head (by decide), byte_straddling_head (by decide)]
  decide

theorem the_last_signature_of_straddling_is_another :
    (∀ p, locate straddling = .ok p → ∀ q, p < q → ¬ SignatureAt straddling q) ↔
      ¬ Straddled straddling := by
  have hbound : straddling.length < 2 ^ 63 := by
    rw [straddling_length]
    decide
  exact @the_last_signature_is_found_unless_it_straddles ⟨straddling, hbound⟩ _ _ 0 rfl
    straddling_passes

end openwrt_mcp_key_sources.archive
