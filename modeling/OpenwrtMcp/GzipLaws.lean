-- The gzip validator takes a byte string or does not, however the bytes are cut into chunks and
-- whenever the buffer of the decoder is full.
import OpenwrtMcp.GzipStream

open programs openwrt_mcp_device_codec.archive

namespace openwrt_mcp_device_codec.gzip

/-! ## The header -/

theorem feed_complete {header : Header} (h : header.complete = true) (input : Bytes) :
    header.feed input = .ok (header, 0) := by
  cases input with
  | nil => rfl
  | cons byte rest => simp [Header.feed, h]

theorem feed_cons {header : Header} (h : header.complete = false) (byte : UInt8) (rest : Bytes) :
    header.feed (byte :: rest) =
      if header.bytes.length = MAX_HEADER_BYTES then .error .LimitExceeded
      else Header.accept { header with bytes := header.bytes ++ [byte] } byte >>= fun next =>
        next.feed rest >>= fun r => .ok (r.1, r.2 + 1) := by
  simp only [Header.feed, h]
  rfl

theorem advance_bytes (header : Header) : header.advance.bytes = header.bytes := by
  unfold Header.advance
  split
  · rfl
  split
  · rfl
  split
  · rfl
  split <;> rfl

theorem text_bytes {header header' : Header} {stage : Nat → Stage} {limit bytes : Nat}
    {byte : UInt8} (h : header.text stage limit bytes byte = .ok header') :
    header'.bytes = header.bytes := by
  unfold Header.text at h
  split at h
  · cases h
  split at h
  · cases h
    exact advance_bytes header
  · cases h
    rfl

theorem accept_bytes {header header' : Header} {byte : UInt8}
    (h : header.accept byte = .ok header') : header'.bytes = header.bytes := by
  unfold Header.accept at h
  split at h
  · split at h
    · split at h
      · cases h
      · cases h
        exact advance_bytes _
    · cases h
      rfl
  · cases h
    rfl
  · simp only at h
    split at h
    · cases h
    split at h
    · cases h
      exact advance_bytes _
    · cases h
      rfl
  · split at h
    · cases h
      exact advance_bytes _
    · cases h
      rfl
  · split at h
    · cases h
      exact advance_bytes _
    · cases h
      rfl
  · exact text_bytes h
  · exact text_bytes h
  · cases h

/-- The header has the bytes that it took. -/
theorem feed_bytes {header header' : Header} {input : Bytes} {consumed : Nat}
    (h : header.feed input = .ok (header', consumed)) :
    consumed ≤ input.length ∧ header'.bytes = header.bytes ++ input.take consumed ∧
      (header'.complete = false → consumed = input.length) := by
  induction input generalizing header consumed with
  | nil =>
    cases h
    simp
  | cons byte rest ih =>
    by_cases hcomplete : header.complete = true
    · rw [feed_complete hcomplete] at h
      cases h
      simp [hcomplete]
    rw [feed_cons (by simpa using hcomplete)] at h
    split at h
    · cases h
    obtain ⟨next, hnext, h⟩ := except_bind_ok.mp h
    obtain ⟨⟨last, count⟩, hlast, h⟩ := except_bind_ok.mp h
    cases h
    obtain ⟨hle, hbytes, hall⟩ := ih hlast
    have haccept := accept_bytes hnext
    refine ⟨by simpa using hle, ?_, ?_⟩
    · rw [hbytes, haccept]
      simp
    · intro hopen
      simp [hall hopen]

/-- The header reads the bytes one by one, until it is complete. -/
theorem feed_append (header : Header) (a b : Bytes) :
    header.feed (a ++ b) = header.feed a >>= fun r =>
      r.1.feed b >>= fun r' => .ok (r'.1, r.2 + r'.2) := by
  induction a generalizing header with
  | nil =>
    show header.feed b = header.feed b >>= fun r' => .ok (r'.1, 0 + r'.2)
    cases header.feed b with
    | error e => rfl
    | ok r => simp [Bind.bind, Except.bind]
  | cons byte rest ih =>
    by_cases hcomplete : header.complete = true
    · rw [feed_complete hcomplete, feed_complete hcomplete]
      show _ = header.feed b >>= _
      rw [feed_complete hcomplete]
      rfl
    · rw [Bool.not_eq_true] at hcomplete
      rw [List.cons_append, feed_cons hcomplete, feed_cons hcomplete]
      split
      · rfl
      cases Header.accept { header with bytes := header.bytes ++ [byte] } byte with
      | error e => rfl
      | ok next =>
        show (next.feed (rest ++ b) >>= fun r => _) = (next.feed rest >>= fun r => _) >>= _
        rw [ih next]
        cases next.feed rest with
        | error e => rfl
        | ok r =>
          show (r.1.feed b >>= _) >>= _ = r.1.feed b >>= _
          cases r.1.feed b with
          | error e => rfl
          | ok r' =>
            show Except.ok _ = Except.ok _
            simp only [Except.ok.injEq, Prod.mk.injEq, true_and]
            omega

/-! ## The decoder -/

/-- The format that a decoder reads: the starts of a member, what can be decoded of them, and the
whole members. No member is the start of another. -/
structure Format where
  fine : Bytes → Prop
  out : Bytes → Bytes
  member : Bytes → Prop
  fine_of_prefix : ∀ {a b}, a <+: b → fine b → fine a
  out_nil : out [] = []
  out_of_prefix : ∀ {a b}, a <+: b → fine b → out a <+: out b
  fine_of_member : ∀ {a}, member a → fine a
  member_unique : ∀ {a b}, a <+: b → member a → member b → a = b

/-- A call of the decoder that does not fail, on `input`, when it has read `read` and written
`wrote`: it goes on until the input is read, the buffer is full or the member has ended. -/
structure Decodes (F : Format) (read wrote input : Bytes) (status : Status) (used : Nat)
    (piece : Bytes) : Prop where
  used_le : used ≤ input.length
  piece_le : piece.length ≤ OUTPUT_BUFFER_BYTES
  fine : F.fine (read ++ input.take used)
  out : wrote ++ piece <+: F.out (read ++ input.take used)
  ends : status = .StreamEnd ↔
    F.member (read ++ input.take used) ∧ wrote ++ piece = F.out (read ++ input.take used)
  all : status ≠ .StreamEnd → piece.length < OUTPUT_BUFFER_BYTES →
    used = input.length ∧ wrote ++ piece = F.out (read ++ input.take used)

/-- The decoder is faithful: what it writes depends only on what it has read. `At` says what a
state of the decoder has read and written. -/
structure Faithful {δ : Type} (d : Decoder δ) (F : Format) (At : δ → Bytes → Bytes → Prop) :
    Prop where
  new_gzip : At d.new_gzip [] []
  total_in : ∀ {s read wrote}, At s read wrote → d.total_in s = read.length
  total_out : ∀ {s read wrote}, At s read wrote → d.total_out s = wrote.length
  fails : ∀ {s read wrote} (input e), At s read wrote → (d.decompress input s).1 = .error e →
    ¬ F.fine (read ++ input)
  decodes : ∀ {s read wrote} (input status), At s read wrote →
    (d.decompress input s).1 = .ok status → ∃ used written,
      written ≤ OUTPUT_BUFFER_BYTES ∧
      Decodes F read wrote input status used ((d.decompress input s).2.1.1.take written) ∧
      At (d.decompress input s).2.2 (read ++ input.take used)
        (wrote ++ (d.decompress input s).2.1.1.take written)

/-! ## What is taken -/

/-- The byte string is one member with a header within the limits and nothing behind it, and the
archive in it is taken. -/
structure Takes (F : Format) (expected : ExpectedArchive) (bytes : Bytes)
    (summary : GzipArchiveSummary) : Prop where
  source_le : bytes.length ≤ MAX_SOURCE_BYTES
  member : F.member bytes
  header : ∃ header n, Header.new.feed bytes = .ok (header, n) ∧ header.complete = true ∧
    n + 8 < bytes.length ∧ ∃ inner archive, archive_after expected (F.out bytes) = some inner ∧
      inner.finish = .ok archive ∧
      archive.archive_bytes ≤ (bytes.length - n - 8) * MAX_EXPANSION_RATIO + EXPANSION_SLACK_BYTES ∧
      summary = ⟨bytes.length, archive.files, archive.payload_bytes, archive.archive_bytes⟩

/-- No byte string of at least `size` bytes that starts so is a member with an archive that is
taken, behind a header of `n` bytes. -/
def Doomed (F : Format) (expected : ExpectedArchive) (size n : Nat) (bytes : Bytes) : Prop :=
  ∀ whole, bytes <+: whole → size ≤ whole.length → F.member whole → n + 8 < whole.length →
    archive_after expected (F.out whole) = none

section
variable {δ : Type} {d : Decoder δ} {F : Format} {At : δ → Bytes → Bytes → Prop}
  {expected : ExpectedArchive} {size n : Nat} {read wrote input : Bytes}
  {v : GzipArchiveValidator δ}

/-- The loop of `decode` is at work: the decoder has read `read` and the inner validator took
what it wrote. -/
structure Decoding (At : δ → Bytes → Bytes → Prop) (expected : ExpectedArchive) (size n : Nat)
    (read wrote : Bytes) (v : GzipArchiveValidator δ) : Prop where
  decoder : ∃ s, v.decoder = some s ∧ At s read wrote
  inner : ∃ i, v.inner = some i ∧ archive_after expected wrote = some i
  header : v.header = none
  source : v.source_bytes = size
  header_bytes : v.header_bytes = n
  complete : v.complete = false
  failure : v.failure = none

/-- The member has ended, and all of it is decoded. -/
structure Decoded (F : Format) (expected : ExpectedArchive) (n : Nat) (bytes : Bytes)
    (v : GzipArchiveValidator δ) : Prop where
  member : F.member bytes
  inner : ∃ i, v.inner = some i ∧ archive_after expected (F.out bytes) = some i
  source : v.source_bytes = bytes.length
  trailer : n + 8 < bytes.length
  deflate : v.deflate_bytes = bytes.length - n - 8
  complete : v.complete = true
  failure : v.failure = none

/-- What the decoder wrote is the start of what every member that starts so decodes to. -/
theorem Format.out_start {bytes whole : Bytes} (hw : wrote <+: F.out bytes) (hb : bytes <+: whole)
    (hm : F.member whole) : wrote <+: F.out whole :=
  hw.trans (F.out_of_prefix hb (F.fine_of_member hm))

theorem doomed_of_not_fine {bytes : Bytes} (h : ¬ F.fine bytes) : Doomed F expected size n bytes :=
  fun _ hb _ hm _ => absurd (F.fine_of_prefix hb (F.fine_of_member hm)) h

theorem doomed_of_refused {bytes start : Bytes} (hs : start <+: bytes)
    (hw : wrote <+: F.out start) (hnone : archive_after expected wrote = none) :
    Doomed F expected size n bytes := by
  intro whole hb _ hm _
  by_contra hsome
  exact archive_after_prefix (F.out_start hw (hs.trans hb) hm) hsome hnone

theorem feed_archive_spec {start : GzipArchiveValidator δ} {i : ArchiveValidator} {piece : Bytes}
    (hafter : archive_after expected wrote = some i) (hi : start.inner = some i)
    (hc : piece.length ≤ archive.MAX_CHUNK_BYTES) {last : δ} :
    Triple (· = { start with decoder := some last }) (feed_archive piece)
      (fun _ v => ∃ i', archive_after expected (wrote ++ piece) = some i' ∧
        v = { start with decoder := some last, inner := some i' })
      (fun _ _ => archive_after expected (wrote ++ piece) = none) := by
  unfold feed_archive
  apply Triple.get_bind
  rintro _ rfl
  simp only [hi, Prog.ok_or_some_bind]
  rcases archive_after_feed hafter hc with ⟨i', hi', hfeed⟩ | ⟨hnone, e, he⟩
  · rw [hfeed]
    apply Triple.modify_bind (M := (· = { start with decoder := some last, inner := some i' }))
    · rintro _ rfl
      rfl
    · apply Triple.pure
      exact fun v hv => ⟨i', hi', hv⟩
  · cases hfeed : i.feed piece with
    | mk i' result =>
      rw [hfeed] at he
      simp only at he
      subst he
      apply Triple.modify_bind (M := fun _ => True)
      · exact fun _ _ => trivial
      · apply Triple.stop
        exact fun _ _ => hnone

/-- One call of the decoder. -/
theorem decompress_spec (hd : Faithful d F At) :
    Triple (Decoding At expected size n read wrote) (decompress d input)
      (fun r v => ∃ piece, r.2.2 = piece.length ∧ Decodes F read wrote input r.1 r.2.1 piece ∧
        Decoding At expected size n (read ++ input.take r.2.1) (wrote ++ piece) v)
      (fun _ _ => Doomed F expected size n (read ++ input)) := by
  unfold decompress
  apply Triple.get_bind
  intro start hstart
  obtain ⟨s, hs, hat⟩ := hstart.decoder
  obtain ⟨i, hi, hafter⟩ := hstart.inner
  rw [hs, Prog.ok_or_some_bind]
  cases hcall : d.decompress input s with
  | mk answer rest =>
    obtain ⟨buffer, last⟩ := rest
    simp only
    apply Triple.modify_bind (M := (· = { start with decoder := some last }))
    · rintro _ rfl
      rfl
    cases answer with
    | error e =>
      apply Triple.stop
      intro _ _
      exact doomed_of_not_fine (hd.fails input e hat (by rw [hcall]))
    | ok status =>
      obtain ⟨used, written, hle, hdecodes, hnext⟩ := hd.decodes input status hat (by rw [hcall])
      rw [hcall] at hdecodes hnext
      simp only at hdecodes hnext
      have hlength : (buffer.1.take written).length = written := by
        rw [List.length_take, buffer.2]
        omega
      have hused : counted (d.total_in last) (d.total_in s) input.length = some used := by
        have hin := hd.total_in hnext
        rw [List.length_append, List.length_take, Nat.min_eq_left hdecodes.used_le,
          ← hd.total_in hat] at hin
        unfold counted
        rw [if_pos ⟨by omega, by have := hdecodes.used_le; omega⟩, hin]
        simp
      have hwritten : counted (d.total_out last) (d.total_out s) OUTPUT_BUFFER_BYTES =
          some written := by
        have hout := hd.total_out hnext
        rw [List.length_append, hlength, ← hd.total_out hat] at hout
        unfold counted
        rw [if_pos ⟨by omega, by omega⟩, hout]
        simp
      simp only [hused, hwritten, Prog.ok_or_some_bind]
      have hchunk : (buffer.1.take written).length ≤ archive.MAX_CHUNK_BYTES :=
        hdecodes.piece_le.trans (by decide)
      apply Triple.bind ((feed_archive_spec hafter hi hchunk).conseq (fun _ h => h)
        (fun _ _ h => h) ?_)
      · intro _
        apply Triple.pure
        rintro _ ⟨i', hi', rfl⟩
        exact ⟨_, hlength.symm, hdecodes, ⟨last, rfl, hnext⟩, ⟨i', rfl, hi'⟩, hstart.header,
          hstart.source, hstart.header_bytes, hstart.complete, hstart.failure⟩
      · intro _ _ hnone
        exact doomed_of_refused
          (List.prefix_append_right_inj read |>.mpr (List.take_prefix used input))
          hdecodes.out hnone

/-- The end of a member is the end of the input, or nothing that starts so is taken. -/
theorem stream_end_spec (hd : Faithful d F At) {rest : Bytes} (hm : F.member read)
    (hsize : (read ++ rest).length ≤ size) :
    Triple (Decoding At expected size n read (F.out read)) (stream_end d rest)
      (fun _ v => rest = [] ∧ size = read.length ∧ Decoded F expected n read v)
      (fun _ _ => Doomed F expected size n (read ++ rest)) := by
  have hunique : ∀ whole, read ++ rest <+: whole → F.member whole → read = whole :=
    fun whole hw hm' => F.member_unique ((List.prefix_append read rest).trans hw) hm hm'
  have hlength : ∀ whole, read ++ rest <+: whole → F.member whole →
      (read ++ rest).length = read.length := by
    intro whole hw hm'
    have := hw.length_le
    rw [← hunique whole hw hm'] at this
    rw [List.length_append] at this ⊢
    omega
  unfold stream_end
  apply Triple.get_bind
  intro start hstart
  obtain ⟨s, hs, hat⟩ := hstart.decoder
  rw [hs, Prog.ok_or_some_bind, hd.total_in hat, hstart.source, hstart.header_bytes]
  split
  · rename_i hrest
    apply Triple.stop
    intro _ _ whole hw _ hm' _
    have hlen := hlength whole hw hm'
    rw [List.length_append] at hlen
    have hnil : rest = [] := List.length_eq_zero_iff.mp (by omega)
    simp [hnil] at hrest
  rename_i hrest
  have hnil : rest = [] := by simpa using hrest
  subst hnil
  rw [List.append_nil] at hsize hunique
  split
  · rename_i hne
    apply Triple.stop
    intro _ _ whole hw hle hm' _
    rw [List.append_nil] at hw
    rw [← hunique whole hw hm'] at hle
    omega
  rename_i heq
  have heq : size = read.length := by simpa using Eq.symm (not_not.mp heq)
  unfold deflate_of
  split
  · rename_i htrailer
    rw [Prog.ok_or_some_bind]
    apply Triple.modify
    rintro _ rfl
    exact ⟨rfl, heq, hm, hstart.inner, by rw [hstart.source, heq], htrailer, rfl, rfl,
      hstart.failure⟩
  · rename_i htrailer
    rw [Prog.ok_or_none_bind]
    apply Triple.stop
    intro _ _ whole hw _ hm' hlong
    rw [List.append_nil] at hw
    rw [← hunique whole hw hm'] at hlong
    omega

/-- The state in which the loop stops: all the input is read and what it decodes to was taken. -/
def Rests (F : Format) (At : δ → Bytes → Bytes → Prop) (expected : ExpectedArchive) (size n : Nat)
    (bytes : Bytes) (v : GzipArchiveValidator δ) : Prop :=
  (Decoding At expected size n bytes (F.out bytes) v ∧ ¬ F.member bytes) ∨
    Decoded F expected n bytes v

theorem decode_turn_spec (hd : Faithful d F At) (hsize : (read ++ input).length ≤ size) :
    Triple (Decoding At expected size n read wrote) (decode_turn d input)
      (fun r v => match r with
        | none => Rests F At expected size n (read ++ input) v
        | some rest => ∃ used wrote', rest = input.drop used ∧
            Decoding At expected size n (read ++ input.take used) wrote' v)
      (fun _ _ => Doomed F expected size n (read ++ input)) := by
  unfold decode_turn
  apply Triple.bind (decompress_spec hd)
  rintro ⟨status, used, written⟩ v ⟨piece, hwritten, hdecodes, hnext⟩
  simp only at hwritten hdecodes hnext
  have hsplit : (read ++ input.take used) ++ input.drop used = read ++ input := by simp
  revert hnext
  revert v
  -- a call that did not fill the buffer has read and written all
  have hrests : status ≠ .StreamEnd → written < OUTPUT_BUFFER_BYTES →
      input.drop used = [] ∧ ∀ v, Decoding At expected size n (read ++ input.take used)
        (wrote ++ piece) v → Rests F At expected size n (read ++ input) v := by
    intro hstatus hroom
    obtain ⟨hused, hout⟩ := hdecodes.all hstatus (hwritten ▸ hroom)
    have hmember : ¬ F.member (read ++ input.take used) :=
      fun hm => hstatus (hdecodes.ends.mpr ⟨hm, hout⟩)
    rw [hout]
    rw [hused, List.take_length] at hmember ⊢
    exact ⟨by simp, fun v hv => .inl ⟨hv, hmember⟩⟩
  suffices hrest : Triple (Decoding At expected size n (read ++ input.take used) (wrote ++ piece))
      (if status = .StreamEnd then do
          stream_end d (input.drop used)
          return none
        else if used = 0 ∧ written = 0 then
          if (input.drop used).isEmpty then return none else Prog.stop .InvalidData
        else if (input.drop used).isEmpty ∧ written < OUTPUT_BUFFER_BYTES then return none
        else return some (input.drop used) : Gzip δ (Option Bytes))
      (fun r v => match r with
        | none => Rests F At expected size n (read ++ input) v
        | some rest => ∃ used wrote', rest = input.drop used ∧
            Decoding At expected size n (read ++ input.take used) wrote' v)
      (fun _ _ => Doomed F expected size n (read ++ input)) from hrest
  by_cases hstatus : status = .StreamEnd
  · rw [if_pos hstatus]
    obtain ⟨hm, hout⟩ := hdecodes.ends.mp hstatus
    rw [hout]
    rw [← hsplit] at hsize ⊢
    apply Triple.bind (stream_end_spec hd hm hsize)
    intro _
    apply Triple.pure
    rintro v ⟨hnil, -, hdecoded⟩
    rw [hnil, List.append_nil]
    exact .inr hdecoded
  rw [if_neg hstatus]
  by_cases hstuck : used = 0 ∧ written = 0
  · obtain ⟨hnil, hrest⟩ := hrests hstatus (by rw [hstuck.2]; decide)
    rw [if_pos hstuck, hnil]
    exact Triple.pure hrest
  rw [if_neg hstuck]
  by_cases hdone : (input.drop used).isEmpty ∧ written < OUTPUT_BUFFER_BYTES
  · rw [if_pos hdone]
    exact Triple.pure (hrests hstatus hdone.2).2
  · rw [if_neg hdone]
    apply Triple.pure
    exact fun v hv => ⟨used, _, rfl, hv⟩

theorem decode_eq (d : Decoder δ) (input : Bytes) (v : GzipArchiveValidator δ) :
    decode d input v = match decode_turn d input v with
      | (.error error, v') => (.error error, v')
      | (.ok none, v') => (.ok (), v')
      | (.ok (some rest), v') => decode d rest v' := by
  rw [decode]
  split <;> rename_i hrun <;> rw [hrun]

/-- At most so many turns of the loop of `decode`, which may be too few for it to end. -/
def decode_within (d : Decoder δ) :
    Nat → Bytes → GzipArchiveValidator δ → Option (Except GzipError Unit × GzipArchiveValidator δ)
  | 0, _, _ => none
  | n + 1, input, v =>
    match decode_turn d input v with
    | (.error error, v') => some (.error error, v')
    | (.ok none, v') => some (.ok (), v')
    | (.ok (some rest), v') => decode_within d n rest v'

theorem decode_within_eq (d : Decoder δ) {n : Nat} {input : Bytes} {v : GzipArchiveValidator δ}
    (hn : input.length + v.room < n) : decode_within d n input v = some (decode d input v) := by
  induction n generalizing input v with
  | zero => exact absurd hn (Nat.not_lt_zero _)
  | succ n ih =>
    rw [decode_within, decode_eq]
    cases hrun : decode_turn d input v with
    | mk r v' =>
      cases r with
      | error e => rfl
      | ok r =>
        cases r with
        | none => rfl
        | some rest =>
          have hdecreases := decode_turn_decreases hrun
          exact ih (by omega)

/-- Whatever the decoder does, the loop ends after so many turns: every turn that goes on leaves
less input, or less room for the archive inside. -/
theorem the_loop_over_the_decoder_ends (d : Decoder δ) :
    (∀ input rest v v', decode_turn d input v = (.ok (some rest), v') →
      rest.length + v'.room < input.length + v.room) ∧
    ∀ input v, decode_within d (input.length + v.room + 1) input v = some (decode d input v) :=
  ⟨fun _ _ _ _ => decode_turn_decreases, fun _ _ => decode_within_eq d (Nat.lt_succ_self _)⟩

/-- The loop reads all the input, or nothing that starts so is taken. -/
theorem decode_spec (hd : Faithful d F At) (hsize : (read ++ input).length ≤ size) :
    Triple (Decoding At expected size n read wrote) (decode d input)
      (fun _ => Rests F At expected size n (read ++ input))
      (fun _ _ => Doomed F expected size n (read ++ input)) := by
  intro v hv
  induction hm : input.length + v.room using Nat.strongRecOn generalizing input v read wrote with
  | ind m ih =>
    subst hm
    have hturn := decode_turn_spec hd hsize v hv
    rw [decode_eq]
    cases hrun : decode_turn d input v with
    | mk r v' =>
      rw [hrun] at hturn
      cases r with
      | error e => exact hturn
      | ok r =>
        cases r with
        | none => exact hturn
        | some rest =>
          obtain ⟨used, wrote', rfl, hnext⟩ := hturn
          have hsplit : (read ++ input.take used) ++ input.drop used = read ++ input := by simp
          have hrec := ih _ (decode_turn_decreases hrun) (by rw [hsplit]; exact hsize) v' hnext rfl
          rw [hsplit] at hrec
          exact hrec

/-! ## The chunks -/

/-- No byte string that starts so is taken. -/
def Refused (F : Format) (expected : ExpectedArchive) (bytes : Bytes) : Prop :=
  ∀ whole summary, bytes <+: whole → ¬ Takes F expected whole summary

/-- The validator has taken these bytes: its header is not complete, or its decoder has read
them. -/
inductive Reads (F : Format) (At : δ → Bytes → Bytes → Prop) (expected : ExpectedArchive)
    (bytes : Bytes) : GzipArchiveValidator δ → Prop
  | header (header : Header) (hle : bytes.length ≤ MAX_SOURCE_BYTES)
      (hfeed : Header.new.feed bytes = .ok (header, bytes.length))
      (hopen : header.complete = false) : Reads F At expected bytes
        { GzipArchiveValidator.new δ expected with
          header := some header, source_bytes := bytes.length }
  | member (header : Header) (n : Nat) (hle : bytes.length ≤ MAX_SOURCE_BYTES)
      (hfeed : Header.new.feed bytes = .ok (header, n)) (hcomplete : header.complete = true)
      {v : GzipArchiveValidator δ}
      (hrests : Rests F At expected bytes.length n bytes v) : Reads F At expected bytes v

/-- A header that is complete stays as it is. -/
theorem feed_whole {bytes whole : Bytes} {header : Header}
    (hfeed : Header.new.feed bytes = .ok (header, n)) (hcomplete : header.complete = true)
    (hw : bytes <+: whole) : Header.new.feed whole = .ok (header, n) := by
  obtain ⟨rest, rfl⟩ := hw
  rw [feed_append, hfeed]
  show (header.feed rest >>= _) = _
  rw [feed_complete hcomplete]
  rfl

theorem refused_of_doomed {bytes start : Bytes} {header : Header}
    (hfeed : Header.new.feed bytes = .ok (header, n)) (hcomplete : header.complete = true)
    (hstart : start <+: bytes) (hdoomed : Doomed F expected bytes.length n start) :
    Refused F expected bytes := by
  intro whole summary hw htakes
  obtain ⟨header', n', hfeed', -, htrailer, inner, archive, hinner, -⟩ := htakes.header
  rw [feed_whole hfeed hcomplete hw] at hfeed'
  cases hfeed'
  rw [hdoomed whole (hstart.trans hw) hw.length_le htakes.member htrailer] at hinner
  cases hinner

theorem refused_of_header {bytes : Bytes} {e : GzipError}
    (hfeed : Header.new.feed bytes = .error e) : Refused F expected bytes := by
  rintro whole summary ⟨rest, rfl⟩ htakes
  obtain ⟨header, n, hfeed', -⟩ := htakes.header
  rw [feed_append, hfeed] at hfeed'
  cases hfeed'

theorem Rests.source {bytes : Bytes} (h : Rests F At expected bytes.length n bytes v) :
    v.source_bytes = bytes.length ∧ v.failure = none ∧ (v.complete = false → v.header = none) := by
  rcases h with ⟨h, -⟩ | h
  · exact ⟨h.source, h.failure, fun _ => h.header⟩
  · exact ⟨h.source, h.failure, fun hopen => by simp [h.complete] at hopen⟩

/-- The header has come to its end in this chunk: the decoder reads it and what follows. -/
theorem start_decoder_spec (hd : Faithful d F At) {header : Header} {bytes rest : Bytes}
    (hbytes : header.bytes ++ rest = bytes) (hinner : v.inner = some (.new expected))
    (hsource : v.source_bytes = bytes.length) (hopen : v.complete = false)
    (hfailure : v.failure = none) :
    Triple (· = v) (do start_decoder d header; decode d rest)
      (fun _ => Rests F At expected bytes.length header.bytes.length bytes)
      (fun _ _ => ∃ start, start <+: bytes ∧
        Doomed F expected bytes.length header.bytes.length start) := by
  subst hbytes
  have hlength : header.bytes.length ≤ (header.bytes ++ rest).length := by simp
  apply Triple.bind (Q := fun _ => Decoding At expected (header.bytes ++ rest).length
    header.bytes.length header.bytes (F.out header.bytes))
  · unfold start_decoder
    apply Triple.modify_bind (M := Decoding At expected (header.bytes ++ rest).length
      header.bytes.length [] [])
    · rintro _ rfl
      exact ⟨⟨_, rfl, hd.new_gzip⟩, ⟨_, hinner, archive_after_nil expected⟩, rfl, hsource, rfl,
        hopen, hfailure⟩
    refine (decode_spec hd hlength).conseq (fun _ h => h) ?_ ?_
    · rintro _ v (⟨hv, -⟩ | hv)
      · exact hv
      · have htrailer := hv.trailer
        simp at htrailer
    · exact fun _ _ hdoomed => ⟨_, List.prefix_append _ _, hdoomed⟩
  · intro _
    refine (decode_spec hd (Nat.le_refl _)).conseq (fun _ h => h) (fun _ _ h => h) ?_
    exact fun _ _ hdoomed => ⟨_, List.prefix_refl _, hdoomed⟩

theorem feed_inner_spec (hd : Faithful d F At) {bytes chunk : Bytes}
    (hv : Reads F At expected bytes v) (hc : chunk.length ≤ MAX_CHUNK_BYTES) :
    Triple (· = v) (gzip_feed_inner d chunk) (fun _ => Reads F At expected (bytes ++ chunk))
      (fun _ _ => Refused F expected (bytes ++ chunk)) := by
  have hsource : v.source_bytes = bytes.length := by
    cases hv with
    | header header hle hfeed hopen => rfl
    | member header n hle hfeed hcomplete hrests => exact hrests.source.1
  unfold gzip_feed_inner
  rw [if_neg (by omega)]
  apply Triple.get_bind
  rintro start rfl
  rw [hsource]
  rw [← List.length_append]
  by_cases hlimit : (bytes ++ chunk).length ≤ MAX_SOURCE_BYTES
  case neg =>
    rw [if_neg hlimit]
    apply Triple.stop
    intro _ _ whole summary hw htakes
    have := hw.length_le
    have := htakes.source_le
    omega
  rw [if_pos hlimit]
  apply Triple.modify_bind
    (M := (· = { start with source_bytes := (bytes ++ chunk).length }))
  · rintro _ rfl
    rw [hsource, List.length_append]
  cases hv with
  | header header hle hfeed hopen =>
    obtain ⟨-, hbytes, -⟩ := feed_bytes hfeed
    have happend := feed_append Header.new bytes chunk
    rw [hfeed] at happend
    change Header.new.feed (bytes ++ chunk) = header.feed chunk >>= _ at happend
    simp only [GzipArchiveValidator.new, Bool.false_eq_true]
    cases hnext : header.feed chunk with
    | error e =>
      rw [hnext] at happend
      rw [Prog.lift_error_bind]
      apply Triple.stop
      exact fun _ _ => refused_of_header happend
    | ok r =>
      obtain ⟨header', consumed⟩ := r
      rw [hnext] at happend
      change Header.new.feed (bytes ++ chunk) = .ok (header', bytes.length + consumed) at happend
      obtain ⟨hle, hbytes', hall⟩ := feed_bytes hnext
      rw [Prog.lift_ok_bind]
      simp only
      apply Triple.modify_bind (M := (· = { GzipArchiveValidator.new δ expected with
        header := some header', source_bytes := (bytes ++ chunk).length }))
      · rintro _ rfl
        rfl
      by_cases hcomplete : header'.complete = true
      · rw [hcomplete]
        simp only [Bool.not_true, Bool.false_eq_true, if_false]
        have hwhole : header'.bytes ++ chunk.drop consumed = bytes ++ chunk := by
          rw [hbytes', hbytes]
          simp [Header.new]
        have hlength : header'.bytes.length = bytes.length + consumed := by
          rw [hbytes', hbytes]
          simp [Header.new, Nat.min_eq_left hle]
        refine (start_decoder_spec hd hwhole rfl rfl rfl rfl).conseq (fun _ h => h) ?_ ?_
        · intro _ v' hrests
          rw [hlength] at hrests
          exact .member header' _ hlimit happend hcomplete hrests
        · rintro _ _ ⟨start, hstart, hdoomed⟩
          rw [hlength] at hdoomed
          exact refused_of_doomed happend hcomplete hstart hdoomed
      · rw [Bool.not_eq_true] at hcomplete
        rw [hcomplete]
        simp only [Bool.not_false, if_true]
        apply Triple.pure
        rintro _ rfl
        rw [hall hcomplete, ← List.length_append] at happend
        exact .header header' hlimit happend hcomplete
  | member header n hle hfeed hcomplete hrests =>
    have hfeed' := feed_whole hfeed hcomplete (List.prefix_append bytes chunk)
    rcases hrests with ⟨hdecoding, -⟩ | hdecoded
    · rw [hdecoding.complete, hdecoding.header]
      simp only [Bool.false_eq_true]
      have hspec : Triple (Decoding At expected (bytes ++ chunk).length n bytes (F.out bytes))
          (decode d chunk) _ _ := decode_spec hd (Nat.le_refl _)
      apply hspec.conseq
      · rintro _ rfl
        exact ⟨hdecoding.decoder, hdecoding.inner, rfl, rfl, hdecoding.header_bytes, rfl,
          hdecoding.failure⟩
      · exact fun _ v' hrests => .member header n hlimit hfeed' hcomplete hrests
      · intro _ _ hdoomed
        exact refused_of_doomed hfeed' hcomplete (List.prefix_refl _) hdoomed
    · rw [hdecoded.complete]
      simp only [if_true]
      by_cases hempty : chunk.isEmpty = true
      · rw [if_pos hempty]
        have hnil : chunk = [] := List.isEmpty_iff.mp hempty
        subst hnil
        rw [List.append_nil] at hfeed' ⊢
        apply Triple.pure
        rintro _ rfl
        exact .member header n hle hfeed' hcomplete (.inr ⟨hdecoded.member, hdecoded.inner, rfl,
          hdecoded.trailer, hdecoded.deflate, rfl, hdecoded.failure⟩)
      · rw [if_neg hempty]
        apply Triple.stop
        intro _ _ whole summary hw htakes
        have hsame := F.member_unique ((List.prefix_append bytes chunk).trans hw) hdecoded.member
          htakes.member
        have := hw.length_le
        rw [← hsame, List.length_append] at this
        exact hempty (List.isEmpty_iff.mpr (List.length_eq_zero_iff.mp (by omega)))

/-- One chunk more is taken, or nothing that starts so is. -/
theorem feed_reads (hd : Faithful d F At) {bytes chunk : Bytes} (hv : Reads F At expected bytes v)
    (hc : chunk.length ≤ MAX_CHUNK_BYTES) :
    (∃ v', v.feed d chunk = (v', .ok ()) ∧ Reads F At expected (bytes ++ chunk) v') ∨
    (∃ v' e, v.feed d chunk = (v', .error e) ∧ v'.failure = some e) ∧
      Refused F expected (bytes ++ chunk) := by
  have hfailure : v.failure = none := by
    cases hv with
    | header header hle hfeed hopen => rfl
    | member header n hle hfeed hcomplete hrests => exact hrests.source.2.1
  have hinner := feed_inner_spec hd hv hc v rfl
  unfold GzipArchiveValidator.feed
  rw [hfailure]
  simp only
  cases hrun : gzip_feed_inner d chunk v with
  | mk answer v' =>
    rw [hrun] at hinner
    cases answer with
    | ok _ => exact .inl ⟨v', rfl, hinner⟩
    | error e => exact .inr ⟨⟨_, e, rfl, rfl⟩, hinner⟩

theorem finish_reads {bytes : Bytes} (hv : Reads F At expected bytes v)
    (summary : GzipArchiveSummary) :
    v.finish = .ok summary ↔ Takes F expected bytes summary := by
  cases hv with
  | header header hle hfeed hopen =>
    constructor
    · intro hfinish
      simp [GzipArchiveValidator.finish, GzipArchiveValidator.new] at hfinish
    · intro htakes
      obtain ⟨header', n, hfeed', hcomplete, -⟩ := htakes.header
      rw [hfeed] at hfeed'
      cases hfeed'
      simp [hopen] at hcomplete
  | member header n hle hfeed hcomplete hrests =>
    rcases hrests with ⟨hdecoding, hno⟩ | hdecoded
    · constructor
      · intro hfinish
        simp [GzipArchiveValidator.finish, hdecoding.failure, hdecoding.complete] at hfinish
      · exact fun htakes => absurd htakes.member hno
    · obtain ⟨i, hi, hafter⟩ := hdecoded.inner
      have hbound : (bytes.length - n - 8) * MAX_EXPANSION_RATIO + EXPANSION_SLACK_BYTES < 2 ^
        64 := by
        unfold MAX_SOURCE_BYTES at hle
        unfold MAX_EXPANSION_RATIO EXPANSION_SLACK_BYTES
        omega
      unfold GzipArchiveValidator.finish
      rw [hdecoded.failure, hdecoded.complete, hi, hdecoded.deflate, hdecoded.source]
      simp only [Bool.not_true, Bool.false_eq_true, if_false, if_pos hbound]
      constructor
      · intro hfinish
        cases hf : i.finish with
        | error e => simp [hf] at hfinish
        | ok archive =>
          simp only [hf] at hfinish
          split at hfinish
          · cases hfinish
          · rename_i hsmall
            cases hfinish
            exact ⟨hle, hdecoded.member, header, n, hfeed, hcomplete, hdecoded.trailer, i, archive,
              hafter, hf, by omega, rfl⟩
      · intro htakes
        obtain ⟨header', n', hfeed', -, -, i', archive, hafter', hf, hsmall, rfl⟩ := htakes.header
        rw [hfeed] at hfeed'
        cases hfeed'
        rw [hafter] at hafter'
        cases hafter'
        simp only [hf]
        rw [if_neg (by omega)]

theorem reads_new (F : Format) (At : δ → Bytes → Bytes → Prop) (expected : ExpectedArchive) :
    Reads F At expected [] (GzipArchiveValidator.new δ expected) :=
  .header Header.new (by simp) rfl rfl

/-- After a failure the validator fails. -/
theorem gzip_validate_failed {e : GzipError} (hf : v.failure = some e) (chunks : List Bytes) :
    v.validate d chunks = .error e := by
  unfold GzipArchiveValidator.validate
  induction chunks with
  | nil =>
    unfold GzipArchiveValidator.finish
    simp [hf]
  | cons c chunks ih =>
    have hfeed : (v.feed d c).1 = v := by
      unfold GzipArchiveValidator.feed
      simp [hf]
    rw [List.foldl_cons, hfeed]
    exact ih

theorem reads_validate_iff (hd : Faithful d F At) {bytes : Bytes}
    (hv : Reads F At expected bytes v) (chunks : List Bytes)
    (hc : ∀ c ∈ chunks, c.length ≤ MAX_CHUNK_BYTES) (summary : GzipArchiveSummary) :
    v.validate d chunks = .ok summary ↔ Takes F expected (bytes ++ chunks.flatten) summary := by
  induction chunks generalizing v bytes with
  | nil =>
    rw [List.flatten_nil, List.append_nil]
    exact finish_reads hv summary
  | cons chunk chunks ih =>
    obtain ⟨hchunk, hrest⟩ := List.forall_mem_cons.mp hc
    have hcons : v.validate d (chunk :: chunks) = (v.feed d chunk).1.validate d chunks := rfl
    rw [hcons, List.flatten_cons, ← List.append_assoc]
    rcases feed_reads hd hv hchunk with ⟨v', hfeed, hv'⟩ | ⟨⟨v', e, hfeed, hfailure⟩, hrefused⟩
    · rw [hfeed]
      exact ih hv' hrest
    · rw [hfeed, gzip_validate_failed hfailure]
      constructor
      · rintro ⟨⟩
      · exact fun htakes => absurd htakes (hrefused _ summary (List.prefix_append _ _))

/-- The chunks pass when their bytes are taken, however they are cut. -/
theorem gzip_validate_ok_iff (hd : Faithful d F At) (expected : ExpectedArchive)
    (chunks : List Bytes) (hc : ∀ c ∈ chunks, c.length ≤ MAX_CHUNK_BYTES)
    (summary : GzipArchiveSummary) :
    (GzipArchiveValidator.new δ expected).validate d chunks = .ok summary ↔
      Takes F expected chunks.flatten summary := by
  have hiff := reads_validate_iff hd (reads_new F At expected) chunks hc summary
  rwa [List.nil_append] at hiff

end

end openwrt_mcp_device_codec.gzip
