-- The header of a gzip member (RFC 1952), and that the validator completes on exactly this header,
-- however the bytes of the file are cut.
import OpenwrtMcp.GzipLaws

open programs openwrt_mcp_device_codec.archive

namespace openwrt_mcp_device_codec.gzip

/-! ## The grammar -/

/-- `XLEN`, and so many bytes. -/
def ExtraField (bytes : Bytes) : Prop :=
  ∃ low high data, bytes = low :: high :: data ∧
    low.toNat + 256 * high.toNat = data.length ∧ data.length ≤ MAX_EXTRA_BYTES

/-- A text up to its NUL. -/
def TextField (limit : Nat) (bytes : Bytes) : Prop :=
  ∃ text, bytes = text ++ [0] ∧ 0 ∉ text ∧ bytes.length ≤ limit

def CrcField (bytes : Bytes) : Prop := bytes.length = 2

/-- A part that is there if its flag is set. -/
def Flagged (flags bit : UInt8) (part : Bytes → Prop) (bytes : Bytes) : Prop :=
  if flags &&& bit ≠ 0 then part bytes else bytes = []

/-- The parts of a header behind the two bytes of the identification and the method. -/
structure HeaderParts where
  flags : UInt8
  /-- `MTIME`, `XFL` and `OS` -/
  fixed : Bytes
  extra : Bytes
  name : Bytes
  comment : Bytes
  crc : Bytes

namespace HeaderParts

def bytes (p : HeaderParts) : Bytes :=
  [0x1f, 0x8b, 8, p.flags] ++ p.fixed ++ (p.extra ++ (p.name ++ (p.comment ++ p.crc)))

structure Admitted (p : HeaderParts) : Prop where
  reserved : p.flags &&& 0xe0 = 0
  fixed : p.fixed.length = 6
  extra : Flagged p.flags 4 ExtraField p.extra
  name : Flagged p.flags 8 (TextField MAX_NAME_BYTES) p.name
  comment : Flagged p.flags 16 (TextField MAX_COMMENT_BYTES) p.comment
  crc : Flagged p.flags 2 CrcField p.crc

end HeaderParts

/-- The header of a member within the limits. -/
def MemberHeader (bytes : Bytes) : Prop :=
  bytes.length ≤ MAX_HEADER_BYTES ∧ ∃ p : HeaderParts, p.Admitted ∧ p.bytes = bytes

/-! ## The parts that are still to come -/

/-- The parts that these flags ask for. -/
def Parts (flags : UInt8) (bytes : Bytes) : Prop :=
  ∃ extra name comment crc, bytes = extra ++ (name ++ (comment ++ crc)) ∧
    Flagged flags 4 ExtraField extra ∧ Flagged flags 8 (TextField MAX_NAME_BYTES) name ∧
    Flagged flags 16 (TextField MAX_COMMENT_BYTES) comment ∧ Flagged flags 2 CrcField crc

/-- The rest of a text, of which `count` bytes are read. -/
def TextRest (limit count : Nat) (bytes : Bytes) : Prop :=
  ∃ text, bytes = text ++ [0] ∧ 0 ∉ text ∧ count + bytes.length ≤ limit

/-- The rest of the part that is being read. -/
def Stage.Rest : Stage → Bytes → Prop
  | .Fixed, _ => False
  | .ExtraLength none, bytes => ExtraField bytes
  | .ExtraLength (some low), bytes => ExtraField (low :: bytes)
  | .Extra remaining, bytes => bytes.length = remaining
  | .Name count, bytes => TextRest MAX_NAME_BYTES count bytes
  | .Comment count, bytes => TextRest MAX_COMMENT_BYTES count bytes
  | .Crc remaining, bytes => bytes.length = remaining
  | .Done, bytes => bytes = []

/-- What completes a header that has come so far, its limit apart. -/
def Header.Left (header : Header) (more : Bytes) : Prop :=
  match header.stage with
  | .Fixed => header.bytes.length < 10 ∧ ∃ ten rest, header.bytes ++ more = ten ++ rest ∧
      ten.length = 10 ∧ ten.take 3 = [0x1f, 0x8b, 8] ∧ ten.getD 3 0 &&& 0xe0 = 0 ∧
      Parts (ten.getD 3 0) rest
  | .Done => more = []
  | stage => ∃ part rest, more = part ++ rest ∧ stage.Rest part ∧ Parts header.flags rest

/-- The counts of a stage are those of parts that have not ended. -/
def Header.Open (header : Header) : Prop :=
  match header.stage with
  | .Fixed => header.bytes.length < 10
  | .Extra remaining | .Crc remaining => 0 < remaining
  | _ => True

theorem clear_self (flags bit : UInt8) : flags &&& ~~~bit &&& bit = 0 := by
  rw [UInt8.and_assoc]
  simp

theorem clear_other {bit other : UInt8} (flags : UInt8) (h : ~~~bit &&& other = other) :
    flags &&& ~~~bit &&& other = flags &&& other := by
  rw [UInt8.and_assoc, h]

/-- The next part that is asked for stands first. -/
theorem advance_left (header : Header) (more : Bytes) :
    header.advance.Left more ↔ Parts header.flags more := by
  unfold Header.advance
  by_cases hextra : header.flags &&& 4 ≠ 0
  · rw [if_pos hextra]
    simp only [Header.Left, Stage.Rest, Parts, Flagged, if_pos hextra, clear_self,
      @clear_other 4 8 header.flags (by decide), @clear_other 4 16 header.flags (by decide),
      @clear_other 4 2 header.flags (by decide)]
    constructor
    · intro h
      obtain ⟨part, rest, rfl, hpart, extra, name, comment, crc, rfl, hnone, hrest⟩ := h
      simp only [ne_eq, not_true, if_false] at hnone
      exact ⟨part, name, comment, crc, by rw [hnone, List.nil_append], hpart, hrest⟩
    · intro h
      obtain ⟨extra, name, comment, crc, rfl, hpart, hrest⟩ := h
      exact ⟨extra, name ++ (comment ++ crc), rfl, hpart, [], name, comment, crc, rfl, by simp,
        hrest⟩
  rw [if_neg hextra]
  by_cases hname : header.flags &&& 8 ≠ 0
  · rw [if_pos hname]
    simp only [Header.Left, Stage.Rest, Parts, Flagged, if_pos hname, if_neg hextra, clear_self,
      @clear_other 8 4 header.flags (by decide), @clear_other 8 16 header.flags (by decide),
      @clear_other 8 2 header.flags (by decide), TextRest, Nat.zero_add, TextField]
    constructor
    · intro h
      obtain ⟨part, rest, rfl, hpart, extra, name, comment, crc, rfl, rfl, hnone, hrest⟩ := h
      simp only [ne_eq, not_true, if_false] at hnone
      exact ⟨[], part, comment, crc, by simp [hnone], rfl, hpart, hrest⟩
    · intro h
      obtain ⟨extra, name, comment, crc, rfl, rfl, hpart, hrest⟩ := h
      exact ⟨name, comment ++ crc, rfl, hpart, [], [], comment, crc, rfl, rfl, by simp, hrest⟩
  rw [if_neg hname]
  by_cases hcomment : header.flags &&& 16 ≠ 0
  · rw [if_pos hcomment]
    simp only [Header.Left, Stage.Rest, Parts, Flagged, if_pos hcomment, if_neg hextra,
      if_neg hname,
      clear_self, @clear_other 16 4 header.flags (by decide),
      @clear_other 16 8 header.flags (by decide), @clear_other 16 2 header.flags (by decide),
      TextRest, Nat.zero_add, TextField]
    constructor
    · intro h
      obtain ⟨part, rest, rfl, hpart, extra, name, comment, crc, rfl, rfl, rfl, hnone, hrest⟩ := h
      simp only [ne_eq, not_true, if_false] at hnone
      exact ⟨[], [], part, crc, by simp [hnone], rfl, rfl, hpart, hrest⟩
    · intro h
      obtain ⟨extra, name, comment, crc, rfl, rfl, rfl, hpart, hrest⟩ := h
      exact ⟨comment, crc, rfl, hpart, [], [], [], crc, rfl, rfl, rfl, by simp, hrest⟩
  rw [if_neg hcomment]
  by_cases hcrc : header.flags &&& 2 ≠ 0
  · rw [if_pos hcrc]
    simp only [Header.Left, Stage.Rest, Parts, Flagged, if_pos hcrc, if_neg hextra, if_neg hname,
      if_neg hcomment, clear_self, @clear_other 2 4 header.flags (by decide),
      @clear_other 2 8 header.flags (by decide), @clear_other 2 16 header.flags (by decide)]
    constructor
    · intro h
      obtain ⟨part, rest, rfl, hpart, extra, name, comment, crc, rfl, rfl, rfl, rfl, hnone⟩ := h
      simp only [ne_eq, not_true, if_false] at hnone
      exact ⟨[], [], [], part, by simp [hnone], rfl, rfl, rfl, hpart⟩
    · intro h
      obtain ⟨extra, name, comment, crc, rfl, rfl, rfl, rfl, hpart⟩ := h
      exact ⟨crc, [], by simp, hpart, [], [], [], [], rfl, rfl, rfl, rfl, by simp⟩
  rw [if_neg hcrc]
  simp [Header.Left, Parts, Flagged, hextra, hname, hcomment, hcrc]

theorem advance_open (header : Header) : header.advance.Open := by
  unfold Header.advance
  split
  · exact trivial
  split
  · exact trivial
  split
  · exact trivial
  split
  · exact Nat.two_pos
  · exact trivial

/-! ## One byte -/

/-- The state is the one that is left when the byte is taken. -/
def Header.Steps (header : Header) (byte : UInt8) (more : Bytes) : Prop :=
  ∃ next, header.accept byte = .ok next ∧ next.Open ∧ next.Left more

/-- A part that is counted: this byte is its last one, or the count goes down. -/
theorem counted_left {flags byte : UInt8} {more : Bytes} {remaining : Nat} (h : 0 < remaining) :
    (∃ part rest, byte :: more = part ++ rest ∧ part.length = remaining ∧ Parts flags rest) ↔
      if remaining = 1 then Parts flags more
      else ∃ part rest, more = part ++ rest ∧ part.length = remaining - 1 ∧ Parts flags rest := by
  constructor
  · intro hleft
    obtain ⟨part, rest, heq, hlength, hrest⟩ := hleft
    cases part with
    | nil =>
      rw [List.length_nil] at hlength
      omega
    | cons b part =>
      obtain ⟨rfl, rfl⟩ := List.cons.inj heq
      rw [List.length_cons] at hlength
      split
      · obtain rfl : part = [] := List.eq_nil_of_length_eq_zero (by omega)
        exact hrest
      · exact ⟨part, rest, rfl, by omega, hrest⟩
  · intro hleft
    split at hleft
    · exact ⟨[byte], more, rfl, by rw [List.length_singleton]; omega, hleft⟩
    · obtain ⟨part, rest, rfl, hlength, hrest⟩ := hleft
      exact ⟨byte :: part, rest, rfl, by rw [List.length_cons]; omega, hrest⟩

/-- A text: this byte is its NUL, or it goes on. -/
theorem text_left {flags byte : UInt8} {more : Bytes} {limit count : Nat} :
    (∃ part rest, byte :: more = part ++ rest ∧ TextRest limit count part ∧ Parts flags rest) ↔
      count + 1 ≤ limit ∧ if byte = 0 then Parts flags more
        else ∃ part rest, more = part ++ rest ∧ TextRest limit (count + 1) part ∧
          Parts flags rest := by
  constructor
  · intro hleft
    obtain ⟨part, rest, heq, ⟨text, rfl, hnul, hlimit⟩, hrest⟩ := hleft
    rw [List.length_append, List.length_singleton] at hlimit
    refine ⟨by omega, ?_⟩
    cases text with
    | nil =>
      obtain ⟨rfl, rfl⟩ := List.cons.inj heq
      rw [if_pos rfl]
      exact hrest
    | cons b text =>
      obtain ⟨rfl, rfl⟩ := List.cons.inj heq
      rw [List.length_cons] at hlimit
      rw [if_neg fun hzero => hnul (by simp [hzero])]
      refine ⟨text ++ [0], rest, rfl, ⟨text, rfl, fun hmem => hnul (by simp [hmem]), ?_⟩, hrest⟩
      rw [List.length_append, List.length_singleton]
      omega
  · intro hleft
    obtain ⟨hlimit, hleft⟩ := hleft
    split at hleft
    · rename_i hzero
      subst hzero
      exact ⟨[0], more, rfl, ⟨[], rfl, by simp, hlimit⟩, hleft⟩
    · rename_i hzero
      obtain ⟨part, rest, rfl, ⟨text, rfl, hnul, htext⟩, hrest⟩ := hleft
      refine ⟨byte :: (text ++ [0]), rest, rfl, ⟨byte :: text, rfl, ?_, ?_⟩, hrest⟩
      · rw [List.mem_cons, not_or]
        exact ⟨fun heq => hzero heq.symm, hnul⟩
      · rw [List.length_cons]
        omega

theorem left_fixed {bytes more : Bytes} {flags : UInt8} :
    Header.Left ⟨bytes, flags, .Fixed⟩ more ↔ bytes.length < 10 ∧ ∃ ten rest,
      bytes ++ more = ten ++ rest ∧ ten.length = 10 ∧ ten.take 3 = [0x1f, 0x8b, 8] ∧
        ten.getD 3 0 &&& 0xe0 = 0 ∧ Parts (ten.getD 3 0) rest := Iff.rfl

theorem left_part {bytes more : Bytes} {flags : UInt8} {stage : Stage} (hfixed : stage ≠ .Fixed)
    (hdone : stage ≠ .Done) : Header.Left ⟨bytes, flags, stage⟩ more ↔
      ∃ part rest, more = part ++ rest ∧ stage.Rest part ∧ Parts flags rest := by
  cases stage with
  | Fixed => exact absurd rfl hfixed
  | Done => exact absurd rfl hdone
  | _ => exact Iff.rfl

theorem ok_steps {header : Header} {more : Bytes} :
    (∃ next, (Except.ok header : Except GzipError Header) = .ok next ∧ next.Open ∧ next.Left more) ↔
      header.Open ∧ header.Left more := by
  simp

theorem advance_steps {header : Header} {more : Bytes} :
    (∃ next, (Except.ok header.advance : Except GzipError Header) = .ok next ∧ next.Open ∧
      next.Left more) ↔ Parts header.flags more := by
  rw [ok_steps, advance_left]
  simp [advance_open]

/-- The fixed bytes are complete with this one, or more of them are to come. -/
theorem fixed_steps {bytes more : Bytes} {flags byte : UInt8} (h : bytes.length < 10) :
    Header.Left ⟨bytes, flags, .Fixed⟩ (byte :: more) ↔
      Header.Steps ⟨bytes ++ [byte], flags, .Fixed⟩ byte more := by
  rw [left_fixed]
  simp only [Header.Steps, Header.accept]
  by_cases hten : (bytes ++ [byte]).length = 10
  · rw [if_pos hten]
    constructor
    · intro hleft
      obtain ⟨-, ten, rest, heq, hlength, htake, hreserved, hparts⟩ := hleft
      rw [← List.singleton_append, ← List.append_assoc] at heq
      obtain ⟨rfl, rfl⟩ := List.append_inj heq (by rw [hten, hlength])
      rw [if_neg (by rw [not_or, not_not, not_not]; exact ⟨htake, hreserved⟩), advance_steps]
      exact hparts
    · intro hsteps
      split at hsteps
      · obtain ⟨next, herror, -⟩ := hsteps
        cases herror
      · rename_i hvalid
        rw [not_or, not_not, not_not] at hvalid
        rw [advance_steps] at hsteps
        exact ⟨h, bytes ++ [byte], more, by simp, hten, hvalid.1, hvalid.2, hsteps⟩
  · rw [if_neg hten, ok_steps, left_fixed]
    have hshort : (bytes ++ [byte]).length < 10 := by
      rw [List.length_append, List.length_singleton] at hten ⊢
      omega
    rw [List.append_assoc, List.singleton_append]
    exact ⟨fun hleft => ⟨hshort, hshort, hleft.2⟩, fun hleft => ⟨h, hleft.2.2⟩⟩

theorem extra_length_steps {bytes more : Bytes} {flags low byte : UInt8} :
    Header.Left ⟨bytes, flags, .ExtraLength (some low)⟩ (byte :: more) ↔
      Header.Steps ⟨bytes ++ [byte], flags, .ExtraLength (some low)⟩ byte more := by
  rw [left_part (by simp) (by simp)]
  simp only [Header.Steps, Header.accept]
  constructor
  · intro hleft
    obtain ⟨part, rest, heq, ⟨low', high, data, hpart, hlength, hlimit⟩, hrest⟩ := hleft
    obtain ⟨rfl, rfl⟩ := List.cons.inj hpart
    obtain ⟨rfl, rfl⟩ := List.cons.inj heq
    rw [if_neg (by omega)]
    split
    · obtain rfl : data = [] := List.eq_nil_of_length_eq_zero (by omega)
      rw [advance_steps]
      exact hrest
    · rename_i hzero
      rw [ok_steps, left_part (by simp) (by simp)]
      exact ⟨Nat.pos_of_ne_zero hzero, data, rest, rfl, hlength.symm, hrest⟩
  · intro hsteps
    split at hsteps
    · obtain ⟨next, herror, -⟩ := hsteps
      cases herror
    · rename_i hlimit
      split at hsteps
      · rename_i hzero
        rw [advance_steps] at hsteps
        exact ⟨[byte], more, rfl, ⟨low, byte, [], rfl, hzero, Nat.zero_le _⟩, hsteps⟩
      · rw [ok_steps, left_part (by simp) (by simp)] at hsteps
        obtain ⟨-, data, rest, rfl, hlength, hrest⟩ := hsteps
        have hlength : data.length = low.toNat + 256 * byte.toNat := hlength
        exact ⟨byte :: data, rest, rfl, ⟨low, byte, data, rfl, hlength.symm, by omega⟩, hrest⟩

/-- A stage that counts down what is left of its part. -/
theorem counted_steps {stage : Nat → Stage} {bytes more : Bytes} {flags byte : UInt8}
    {remaining : Nat} (hrest : ∀ n part, (stage n).Rest part ↔ part.length = n)
    (hopen : ∀ n bytes flags, Header.Open ⟨bytes, flags, stage n⟩ ↔ 0 < n)
    (hpart : ∀ n, stage n ≠ .Fixed ∧ stage n ≠ .Done) (h : 0 < remaining) :
    Header.Left ⟨bytes, flags, stage remaining⟩ (byte :: more) ↔
      ∃ next, (if remaining = 1 then .ok (Header.advance ⟨bytes ++ [byte], flags, stage remaining⟩)
        else .ok ⟨bytes ++ [byte], flags, stage (remaining - 1)⟩ : Except GzipError Header) =
          .ok next ∧ next.Open ∧ next.Left more := by
  rw [left_part (hpart _).1 (hpart _).2]
  simp only [hrest]
  rw [counted_left h]
  split
  · rw [advance_steps]
  · rw [ok_steps, left_part (hpart _).1 (hpart _).2, hopen]
    simp only [hrest]
    exact ⟨fun hleft => ⟨by omega, hleft⟩, fun hleft => hleft.2⟩

/-- A stage of a text. -/
theorem text_steps {stage : Nat → Stage} {limit : Nat} {bytes more : Bytes} {flags byte : UInt8}
    {count : Nat} (hrest : ∀ n part, (stage n).Rest part ↔ TextRest limit n part)
    (hopen : ∀ n bytes flags, Header.Open ⟨bytes, flags, stage n⟩)
    (hpart : ∀ n, stage n ≠ .Fixed ∧ stage n ≠ .Done) :
    Header.Left ⟨bytes, flags, stage count⟩ (byte :: more) ↔ ∃ next,
      Header.text ⟨bytes ++ [byte], flags, stage count⟩ stage limit count byte = .ok next ∧
        next.Open ∧ next.Left more := by
  rw [left_part (hpart _).1 (hpart _).2]
  simp only [hrest]
  rw [text_left]
  unfold Header.text
  by_cases hlimit : count + 1 > limit
  · rw [if_pos hlimit]
    simp only [reduceCtorEq, false_and, exists_false, iff_false]
    omega
  · rw [if_neg hlimit]
    split
    · rw [advance_steps]
      exact ⟨fun hleft => hleft.2, fun hleft => ⟨by omega, hleft⟩⟩
    · rw [ok_steps, left_part (hpart _).1 (hpart _).2]
      simp only [hrest]
      exact ⟨fun hleft => ⟨hopen _ _ _, hleft.2⟩, fun hleft => ⟨by omega, hleft.2⟩⟩

/-- A header that completes does so through the state after its next byte. -/
theorem accept_left {header : Header} {byte : UInt8} {more : Bytes}
    (hopen : header.complete = false) (h : header.Open) : header.Left (byte :: more) ↔
      Header.Steps { header with bytes := header.bytes ++ [byte] } byte more := by
  obtain ⟨bytes, flags, stage⟩ := header
  cases stage with
  | Done => cases hopen
  | Fixed => exact fixed_steps h
  | ExtraLength low =>
    cases low with
    | none =>
      simp only [Header.Steps, Header.accept]
      rw [ok_steps, left_part (by simp) (by simp), left_part (by simp) (by simp)]
      constructor
      · intro hleft
        obtain ⟨part, rest, heq, ⟨low, high, data, rfl, hfield⟩, hrest⟩ := hleft
        obtain ⟨rfl, rfl⟩ := List.cons.inj heq
        exact ⟨trivial, high :: data, rest, rfl, ⟨byte, high, data, rfl, hfield⟩, hrest⟩
      · intro hleft
        obtain ⟨-, part, rest, rfl, hfield, hrest⟩ := hleft
        exact ⟨byte :: part, rest, rfl, hfield, hrest⟩
    | some low => exact extra_length_steps
  | Extra remaining =>
    exact counted_steps (fun _ _ => Iff.rfl) (fun _ _ _ => Iff.rfl) (fun n => by simp) h
  | Name count => exact text_steps (fun _ _ => Iff.rfl) (fun _ _ _ => trivial) fun n => by simp
  | Comment count => exact text_steps (fun _ _ => Iff.rfl) (fun _ _ _ => trivial) fun n => by simp
  | Crc remaining =>
    exact counted_steps (fun _ _ => Iff.rfl) (fun _ _ _ => Iff.rfl) (fun n => by simp) h

theorem text_open {header next : Header} {stage : Nat → Stage} {limit count : Nat} {byte : UInt8}
    (hopen : ∀ n bytes flags, Header.Open ⟨bytes, flags, stage n⟩)
    (h : header.text stage limit count byte = .ok next) : next.Open := by
  unfold Header.text at h
  split at h
  · cases h
  split at h
  · cases h
    exact advance_open header
  · cases h
    exact hopen _ _ _

theorem accept_open {header next : Header} {byte : UInt8}
    (h : Header.accept { header with bytes := header.bytes ++ [byte] } byte = .ok next)
    (hopen : header.Open) : next.Open := by
  obtain ⟨bytes, flags, stage⟩ := header
  unfold Header.accept at h
  cases stage with
  | Done => cases h
  | Fixed =>
    simp only at h
    split at h
    · split at h
      · cases h
      · cases h
        exact advance_open _
    · cases h
      rename_i hten
      have hlt : bytes.length < 10 := hopen
      rw [List.length_append, List.length_singleton] at hten
      show (bytes ++ [byte]).length < 10
      rw [List.length_append, List.length_singleton]
      omega
  | ExtraLength low =>
    cases low with
    | none =>
      cases h
      exact trivial
    | some low =>
      simp only at h
      split at h
      · cases h
      split at h
      · cases h
        exact advance_open _
      · cases h
        rename_i hzero
        exact Nat.pos_of_ne_zero hzero
  | Extra remaining =>
    have hpos : 0 < remaining := hopen
    simp only at h
    split at h
    · cases h
      exact advance_open _
    · cases h
      show 0 < remaining - 1
      omega
  | Name count => exact @text_open _ _ .Name _ _ _ (fun _ _ _ => trivial) h
  | Comment count => exact @text_open _ _ .Comment _ _ _ (fun _ _ _ => trivial) h
  | Crc remaining =>
    have hpos : 0 < remaining := hopen
    simp only at h
    split at h
    · cases h
      exact advance_open _
    · cases h
      show 0 < remaining - 1
      omega

/-! ## Many bytes -/

theorem complete_left {header : Header} {more : Bytes} (h : header.complete = true) :
    header.Left more ↔ more = [] := by
  obtain ⟨bytes, flags, stage⟩ := header
  obtain rfl : stage = .Done := by simpa [Header.complete] using h
  exact Iff.rfl

/-- Nothing is left of a header that is complete, and of no other. -/
theorem left_nil {header : Header} (h : header.Open) (hleft : header.Left []) :
    header.complete = true := by
  obtain ⟨bytes, flags, stage⟩ := header
  have hnone : ∀ {P : Bytes → Prop}, ¬ P [] →
      ¬ ∃ part rest, [] = part ++ rest ∧ P part ∧ Parts flags rest := by
    intro P hP hex
    obtain ⟨part, rest, heq, hpart, -⟩ := hex
    rw [List.append_eq_nil_iff.1 heq.symm |>.1] at hpart
    exact hP hpart
  cases stage with
  | Done => rfl
  | Fixed =>
    obtain ⟨hlt, ten, rest, heq, hlength, -⟩ := left_fixed.1 hleft
    have hbytes := congrArg List.length heq
    rw [List.append_nil, List.length_append] at hbytes
    omega
  | ExtraLength low =>
    refine absurd hleft (hnone ?_)
    cases low with
    | none => simp [Stage.Rest, ExtraField]
    | some low => simp [Stage.Rest, ExtraField]
  | Extra remaining => exact absurd hleft (hnone (Nat.ne_of_lt h))
  | Name count => exact absurd hleft (hnone (by simp [Stage.Rest, TextRest]))
  | Comment count => exact absurd hleft (hnone (by simp [Stage.Rest, TextRest]))
  | Crc remaining => exact absurd hleft (hnone (Nat.ne_of_lt h))

/-- Bytes that the header can go on with are taken, all of them. -/
theorem feed_of_left {header : Header} {start rest : Bytes} (h : header.Open)
    (hleft : header.Left (start ++ rest))
    (hlimit : header.bytes.length + (start ++ rest).length ≤ MAX_HEADER_BYTES) :
    ∃ next, header.feed start = .ok (next, start.length) ∧ next.Open ∧ next.Left rest := by
  induction start generalizing header with
  | nil => exact ⟨header, rfl, h, hleft⟩
  | cons byte start ih =>
    have hopen : header.complete = false := by
      rw [← Bool.not_eq_true]
      intro hcomplete
      cases (complete_left hcomplete).1 hleft
    rw [List.cons_append, List.length_cons] at hlimit
    obtain ⟨next, hnext, hopen', hleft'⟩ := (accept_left hopen h).1 hleft
    have hbytes := accept_bytes hnext
    obtain ⟨last, hlast, hrest⟩ := ih hopen' hleft' (by
      rw [hbytes, List.length_append, List.length_singleton]
      omega)
    refine ⟨last, ?_, hrest⟩
    rw [feed_cons hopen, if_neg (by omega), hnext]
    simp [Bind.bind, Except.bind, hlast]

/-- A header that completes has taken what was left of it. -/
theorem left_of_feed {header next : Header} {input : Bytes} {n : Nat} (h : header.Open)
    (hlimit : header.bytes.length ≤ MAX_HEADER_BYTES) (hfeed : header.feed input = .ok (next, n))
    (hcomplete : next.complete = true) :
    header.Left (input.take n) ∧ header.bytes.length + n ≤ MAX_HEADER_BYTES := by
  induction input generalizing header n with
  | nil =>
    cases hfeed
    exact ⟨(complete_left hcomplete).2 rfl, hlimit⟩
  | cons byte rest ih =>
    by_cases hdone : header.complete = true
    · rw [feed_complete hdone] at hfeed
      cases hfeed
      exact ⟨(complete_left hdone).2 rfl, hlimit⟩
    · rw [Bool.not_eq_true] at hdone
      rw [feed_cons hdone] at hfeed
      split at hfeed
      · cases hfeed
      · rename_i hroom
        obtain ⟨header', haccept, hrest⟩ := except_bind_ok.1 hfeed
        obtain ⟨⟨last, count⟩, hlast, heq⟩ := except_bind_ok.1 hrest
        cases heq
        have hbytes : header'.bytes.length = header.bytes.length + 1 := by
          rw [accept_bytes haccept, List.length_append, List.length_singleton]
        obtain ⟨hleft, hbound⟩ := ih (accept_open haccept h) (by omega) hlast
        rw [List.take_succ_cons]
        exact ⟨(accept_left hdone h).2 ⟨header', haccept, accept_open haccept h, hleft⟩, by omega⟩

/-! ## The header of a file -/

theorem new_open : Header.new.Open := by
  show 0 < 10
  decide

/-- What the validator waits for at first is a header. -/
theorem new_left {bytes : Bytes} :
    Header.new.Left bytes ↔ ∃ p : HeaderParts, p.Admitted ∧ p.bytes = bytes := by
  unfold Header.new
  rw [left_fixed]
  constructor
  · intro h
    obtain ⟨-, ten, rest, heq, hlength, htake, hreserved, hparts⟩ := h
    obtain ⟨extra, name, comment, crc, rfl, hextra, hname, hcomment, hcrc⟩ := hparts
    refine ⟨⟨ten.getD 3 0, ten.drop 4, extra, name, comment, crc⟩,
      ⟨hreserved, by rw [List.length_drop, hlength], hextra, hname, hcomment, hcrc⟩, ?_⟩
    have hten : ten = [0x1f, 0x8b, 8, ten.getD 3 0] ++ ten.drop 4 := by
      match ten, hlength, htake with
      | a :: b :: c :: d :: more, _, htake => simpa using htake
    rw [List.nil_append] at heq
    rw [heq, HeaderParts.bytes]
    exact congrArg (· ++ _) hten.symm
  · intro h
    obtain ⟨p, hp, rfl⟩ := h
    exact ⟨by decide, [0x1f, 0x8b, 8, p.flags] ++ p.fixed, _, rfl, by simp [hp.fixed], rfl,
      hp.reserved, p.extra, p.name, p.comment, p.crc, rfl, hp.extra, hp.name, hp.comment, hp.crc⟩

theorem member_header_iff {bytes : Bytes} :
    MemberHeader bytes ↔ bytes.length ≤ MAX_HEADER_BYTES ∧ Header.new.Left bytes := by
  rw [new_left]
  exact Iff.rfl

/-- `Header::feed` on one chunk after another, each behind what the call before it left. -/
def Header.feed_chunks (header : Header) (left : Bytes) : List Bytes →
    Except GzipError (Header × Nat)
  | [] => .ok (header, 0)
  | chunk :: chunks => do
    let (header, consumed) ← header.feed (left ++ chunk)
    let (header, more) ← header.feed_chunks ((left ++ chunk).drop consumed) chunks
    return (header, consumed + more)

/-- Where the chunks are cut does not matter. -/
theorem feed_chunks_eq {header : Header} {left : Bytes} {chunks : List Bytes}
    (h : left = [] ∨ header.complete = true) :
    header.feed_chunks left chunks = header.feed (left ++ chunks.flatten) := by
  induction chunks generalizing header left with
  | nil =>
    rcases h with rfl | hcomplete
    · rfl
    · rw [feed_complete hcomplete]
      rfl
  | cons chunk chunks ih =>
    rw [List.flatten_cons, ← List.append_assoc, feed_append, Header.feed_chunks]
    cases hfeed : header.feed (left ++ chunk) with
    | error e => rfl
    | ok r =>
      obtain ⟨next, consumed⟩ := r
      obtain ⟨-, -, hall⟩ := feed_bytes hfeed
      by_cases hcomplete : next.complete = true
      · have hnext : next.feed_chunks ((left ++ chunk).drop consumed) chunks = .ok (next, 0) := by
          rw [ih (.inr hcomplete), feed_complete hcomplete]
        simp [Bind.bind, Except.bind, hnext, feed_complete hcomplete, pure, Except.pure]
      · have hconsumed := hall (by simpa using hcomplete)
        have hdrop : (left ++ chunk).drop consumed = [] := by
          rw [hconsumed, List.drop_length]
        simp only [Bind.bind, Except.bind, hdrop]
        rw [ih (.inl rfl), List.nil_append]
        rfl

/-- The validator completes on a file that starts with a header, whatever the chunks are, and has
taken just this header then. It waits on what goes on to a header. -/
theorem the_header_is_taken_and_no_more (chunks : List Bytes) :
    ((∃ header n, Header.new.feed_chunks [] chunks = .ok (header, n) ∧ header.complete = true) ↔
      ∃ start, start <+: chunks.flatten ∧ MemberHeader start) ∧
    (∀ start, start <+: chunks.flatten → MemberHeader start → ∃ header,
      Header.new.feed_chunks [] chunks = .ok (header, start.length) ∧ header.complete = true ∧
        header.bytes = start) ∧
    (∀ whole, MemberHeader whole → chunks.flatten <+: whole → chunks.flatten ≠ whole → ∃ header,
      Header.new.feed_chunks [] chunks = .ok (header, chunks.flatten.length) ∧
        header.complete = false) := by
  have hchunks : Header.new.feed_chunks [] chunks = Header.new.feed chunks.flatten :=
    feed_chunks_eq (.inl rfl)
  have htaken : ∀ start, start <+: chunks.flatten → MemberHeader start → ∃ header,
      Header.new.feed_chunks [] chunks = .ok (header, start.length) ∧ header.complete = true ∧
        header.bytes = start := by
    intro start hstarts hmember
    obtain ⟨hlimit, hleft⟩ := member_header_iff.1 hmember
    rw [← List.append_nil start] at hleft
    obtain ⟨header, hfeed, hopen, hrest⟩ := feed_of_left new_open hleft
      (by simpa [Header.new] using hlimit)
    have hcomplete := left_nil hopen hrest
    refine ⟨header, ?_, hcomplete, ?_⟩
    · rw [hchunks]
      exact feed_whole hfeed hcomplete hstarts
    · rw [(feed_bytes hfeed).2.1, List.take_length]
      rfl
  refine ⟨⟨?_, ?_⟩, htaken, ?_⟩
  · intro h
    obtain ⟨header, n, hfeed, hcomplete⟩ := h
    rw [hchunks] at hfeed
    obtain ⟨hleft, hlimit⟩ := left_of_feed new_open (Nat.zero_le _) hfeed hcomplete
    refine ⟨_, List.take_prefix n _, member_header_iff.2 ⟨?_, hleft⟩⟩
    rw [List.length_take]
    have hbound : 0 + n ≤ MAX_HEADER_BYTES := hlimit
    omega
  · intro h
    obtain ⟨start, hstarts, hmember⟩ := h
    obtain ⟨header, hfeed, hcomplete, -⟩ := htaken start hstarts hmember
    exact ⟨header, start.length, hfeed, hcomplete⟩
  · intro whole hmember hstarts hne
    obtain ⟨hlimit, hleft⟩ := member_header_iff.1 hmember
    obtain ⟨rest, rfl⟩ := hstarts
    obtain ⟨header, hfeed, -, hrest⟩ := feed_of_left new_open hleft
      (by simpa [Header.new] using hlimit)
    refine ⟨header, by rw [hchunks, hfeed], ?_⟩
    rw [← Bool.not_eq_true]
    intro hcomplete
    obtain rfl := (complete_left hcomplete).1 hrest
    exact hne (List.append_nil _).symm

/-- The shortest header, cut behind its third byte, with two bytes of the data behind it. -/
theorem a_header_in_two_pieces_is_taken : ∃ header,
    Header.new.feed_chunks [] [[31, 139, 8], [0, 0, 0, 0, 0, 0, 3, 75, 76]] = .ok (header, 10) ∧
      header.complete = true ∧ header.bytes = [31, 139, 8, 0, 0, 0, 0, 0, 0, 3] := by
  refine (the_header_is_taken_and_no_more [[31, 139, 8], [0, 0, 0, 0, 0, 0, 3, 75, 76]]).2.1
    [31, 139, 8, 0, 0, 0, 0, 0, 0, 3] ⟨[75, 76], rfl⟩ ⟨by decide, ?_⟩
  exact ⟨⟨0, [0, 0, 0, 0, 0, 3], [], [], [], []⟩, ⟨rfl, rfl, rfl, rfl, rfl, rfl⟩, rfl⟩

end openwrt_mcp_device_codec.gzip
