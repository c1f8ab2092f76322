-- What the gzip validator takes, said without the validator: one member with a header within the
-- limits, which holds an archive of the manifest and does not expand too much.
import OpenwrtMcp.ArchiveGrammar
import OpenwrtMcp.GzipHeader

open programs openwrt_mcp_device_codec.archive

namespace openwrt_mcp_device_codec.gzip

variable {expected : ExpectedArchive} {bytes : Bytes}

/-! ## The archive inside -/

/-- The archive validator takes these bytes, in some chunks. -/
def Archived (expected : ExpectedArchive) (bytes : Bytes) (inside : ArchiveSummary) : Prop :=
  ∃ pieces : List Bytes, (∀ piece ∈ pieces, piece.length ≤ archive.MAX_CHUNK_BYTES) ∧
    pieces.flatten = bytes ∧ (ArchiveValidator.new expected).validate pieces = .ok inside

theorem archived_iff {inside : ArchiveSummary} : Archived expected bytes inside ↔
    ∃ inner, archive_after expected bytes = some inner ∧ inner.finish = .ok inside := by
  have hchunks : ∀ pieces : List Bytes, (∀ piece ∈ pieces, piece.length ≤ archive.MAX_CHUNK_BYTES) →
      pieces.flatten = bytes → ((ArchiveValidator.new expected).validate pieces = .ok inside ↔
        ∃ inner, archive_after expected bytes = some inner ∧ inner.finish = .ok inside) := by
    intro pieces hpieces hflatten
    rw [validate_ok_iff pieces hpieces _ rfl, hflatten]
    have htotal : (ArchiveValidator.new expected).total + bytes.length = bytes.length :=
      Nat.zero_add _
    rw [htotal]
    constructor
    · intro h
      obtain ⟨hlimit, v, hafter, hfinish⟩ := h
      have hle : bytes.length ≤ MAX_ARCHIVE_BYTES := by
        rcases hlimit with rfl | hle
        · rw [← hflatten]
          exact Nat.zero_le _
        · exact hle
      exact ⟨_, archive_after_some.2 ⟨hle, v, hafter, (after_keeps hafter).2.2, rfl⟩, hfinish⟩
    · intro h
      obtain ⟨inner, hinner, hfinish⟩ := h
      obtain ⟨hle, v, hafter, -, rfl⟩ := archive_after_some.1 hinner
      exact ⟨.inr hle, v, hafter, hfinish⟩
  constructor
  · intro h
    obtain ⟨pieces, hpieces, hflatten, hvalidate⟩ := h
    exact (hchunks pieces hpieces hflatten).1 hvalidate
  · intro h
    have hsmall : ∀ byte : UInt8, [byte].length ≤ archive.MAX_CHUNK_BYTES := by
      intro byte
      rw [List.length_singleton]
      decide
    have hflatten : (bytes.map fun byte => [byte]).flatten = bytes := by
      rw [← List.flatMap_def]
      exact List.flatMap_singleton' bytes
    refine ⟨bytes.map fun byte => [byte], ?_, ?_, ?_⟩
    · intro piece hpiece
      obtain ⟨byte, -, rfl⟩ := List.mem_map.1 hpiece
      exact hsmall byte
    · exact hflatten
    · refine (hchunks _ ?_ hflatten).2 h
      intro piece hpiece
      obtain ⟨byte, -, rfl⟩ := List.mem_map.1 hpiece
      exact hsmall byte

/-- The summary counts the bytes. -/
theorem archived_bytes {inside : ArchiveSummary} (h : Archived expected bytes inside) :
    inside.archive_bytes = bytes.length := by
  obtain ⟨inner, hinner, hfinish⟩ := archived_iff.1 h
  obtain ⟨-, v, -, hfailure, rfl⟩ := archive_after_some.1 hinner
  obtain ⟨k, -, -, -, rfl⟩ := (finish_ok_iff (v := { v with total := bytes.length }) hfailure).1
    hfinish
  rfl

theorem archived_unique {inside inside' : ArchiveSummary} (h : Archived expected bytes inside)
    (h' : Archived expected bytes inside') : inside = inside' := by
  obtain ⟨inner, hinner, hfinish⟩ := archived_iff.1 h
  obtain ⟨inner', hinner', hfinish'⟩ := archived_iff.1 h'
  rw [hinner] at hinner'
  cases hinner'
  rw [hfinish] at hfinish'
  exact Except.ok.inj hfinish'

/-! ## The member -/

/-- Behind the header of a member stand its data, of which there is at least a byte, and the eight
bytes of its trailer. -/
def Trailed (F : Format) : Prop :=
  ∀ header rest, MemberHeader header → F.member (header ++ rest) → 8 < rest.length

/-- The bytes are a member with an archive that is taken. -/
structure Accepted (F : Format) (expected : ExpectedArchive) (bytes : Bytes)
    (summary : GzipArchiveSummary) : Prop where
  source_le : bytes.length ≤ MAX_SOURCE_BYTES
  member : F.member bytes
  parts : ∃ header rest inside, bytes = header ++ rest ∧ MemberHeader header ∧
    Archived expected (F.out bytes) inside ∧
    (F.out bytes).length ≤
      (bytes.length - header.length - 8) * MAX_EXPANSION_RATIO + EXPANSION_SLACK_BYTES ∧
    summary = {
      compressed_bytes := bytes.length
      files := inside.files
      payload_bytes := inside.payload_bytes
      archive_bytes := (F.out bytes).length }

/-- The header that is read is the one that the grammar gives. -/
theorem header_reads {header rest : Bytes} (h : MemberHeader header) : ∃ last : Header,
    Header.new.feed (header ++ rest) = .ok (last, header.length) ∧ last.complete = true := by
  obtain ⟨hlimit, hleft⟩ := member_header_iff.1 h
  rw [← List.append_nil header] at hleft
  obtain ⟨last, hfeed, hopen, hrest⟩ :=
    feed_of_left new_open hleft (by simpa [Header.new] using hlimit)
  have hcomplete := left_nil hopen hrest
  exact ⟨last, feed_whole hfeed hcomplete (List.prefix_append _ _), hcomplete⟩

theorem header_of_reads {last : Header} {n : Nat} (h : Header.new.feed bytes = .ok (last, n))
    (hcomplete : last.complete = true) : MemberHeader (bytes.take n) ∧ n ≤ bytes.length := by
  obtain ⟨hleft, hlimit⟩ := left_of_feed new_open (Nat.zero_le _) h hcomplete
  have hle := (feed_bytes h).1
  refine ⟨member_header_iff.2 ⟨?_, hleft⟩, hle⟩
  rw [List.length_take, Nat.min_eq_left hle]
  exact (Nat.le_add_left _ _).trans hlimit

theorem takes_iff {F : Format} (hF : Trailed F) {summary : GzipArchiveSummary} :
    Takes F expected bytes summary ↔ Accepted F expected bytes summary := by
  constructor
  · intro h
    obtain ⟨last, n, hfeed, hcomplete, -, inner, inside, hinner, hfinish, hsmall, hsummary⟩ :=
      h.header
    obtain ⟨hheader, hle⟩ := header_of_reads hfeed hcomplete
    have hinside : Archived expected (F.out bytes) inside := archived_iff.2 ⟨inner, hinner, hfinish⟩
    rw [archived_bytes hinside] at hsmall hsummary
    refine ⟨h.source_le, h.member, bytes.take n, bytes.drop n, inside,
      (List.take_append_drop n bytes).symm, hheader, hinside, ?_, hsummary⟩
    rw [List.length_take, Nat.min_eq_left hle]
    exact hsmall
  · intro h
    obtain ⟨header, rest, inside, rfl, hheader, hinside, hsmall, hsummary⟩ := h.parts
    obtain ⟨last, hfeed, hcomplete⟩ := @header_reads header rest hheader
    obtain ⟨inner, hinner, hfinish⟩ := archived_iff.1 hinside
    have htrailed := hF header rest hheader h.member
    refine ⟨h.source_le, h.member, last, header.length, hfeed, hcomplete, ?_, inner, inside, hinner,
      hfinish, ?_, ?_⟩
    · rw [List.length_append]
      omega
    · rw [archived_bytes hinside]
      exact hsmall
    · rw [archived_bytes hinside]
      exact hsummary

section
variable {δ : Type} {d : Decoder δ} {F : Format} {At : δ → Bytes → Bytes → Prop}

/-- A file is accepted or not, whatever the chunks are in which it comes, and the summary is the
same. -/
theorem a_file_is_accepted_in_any_chunks (hd : Faithful d F At) (hF : Trailed F)
    (expected : ExpectedArchive) (bytes : Bytes) :
    (∀ chunks : List Bytes, (∀ chunk ∈ chunks, chunk.length ≤ MAX_CHUNK_BYTES) →
      chunks.flatten = bytes → ∀ summary,
        (GzipArchiveValidator.new δ expected).validate d chunks = .ok summary ↔
          Accepted F expected bytes summary) ∧
    (∀ summary summary', Accepted F expected bytes summary → Accepted F expected bytes summary' →
      summary = summary') ∧
    ∀ summary, Accepted F expected bytes summary → summary.compressed_bytes = bytes.length := by
  have hchunks : ∀ chunks : List Bytes, (∀ chunk ∈ chunks, chunk.length ≤ MAX_CHUNK_BYTES) →
      chunks.flatten = bytes → ∀ summary,
        (GzipArchiveValidator.new δ expected).validate d chunks = .ok summary ↔
          Accepted F expected bytes summary := by
    intro chunks hchunks hflatten summary
    rw [gzip_validate_ok_iff hd expected chunks hchunks summary, takes_iff hF, hflatten]
  refine ⟨hchunks, ?_, ?_⟩
  · intro summary summary' h h'
    obtain ⟨-, -, inside, -, -, hinside, -, rfl⟩ := h.parts
    obtain ⟨-, -, inside', -, -, hinside', -, rfl⟩ := h'.parts
    obtain rfl := archived_unique hinside hinside'
    rfl
  · intro summary h
    obtain ⟨-, -, inside, -, -, -, -, rfl⟩ := h.parts
    rfl

end

/-! ## A stored member -/

/-- The format of one member, which stores its data as it is. -/
def stored_format (head data trailer : Bytes) : Format where
  fine bytes := bytes <+: head ++ data ++ trailer
  out bytes := data.take (bytes.length - head.length)
  member bytes := bytes = head ++ data ++ trailer
  fine_of_prefix := fun hp h => hp.trans h
  out_nil := by simp
  out_of_prefix := by
    intro a b hp _
    exact List.take_prefix_take_left (Nat.sub_le_sub_right hp.length_le _)
  fine_of_member := by
    intro a h
    rw [h]
  member_unique := by
    intro a b _ ha hb
    rw [ha, hb]

theorem stored_out (head data trailer bytes : Bytes) :
    (stored_format head data trailer).out bytes = data.take (bytes.length - head.length) := rfl

/-- The decoder of such a member keeps what it has read and how much it has written. -/
def stored_decoder (head data trailer : Bytes) : Decoder (Bytes × Nat) where
  new_gzip := ([], 0)
  total_in s := s.1.length
  total_out s := s.2
  decompress input s :=
    let read := s.1 ++ input
    let piece := ((data.take (read.length - head.length)).drop s.2).take OUTPUT_BUFFER_BYTES
    let buffer := (piece ++ List.replicate OUTPUT_BUFFER_BYTES 0).take OUTPUT_BUFFER_BYTES
    (if read <+: head ++ data ++ trailer then
      if read = head ++ data ++ trailer ∧ s.2 + piece.length = data.length then .ok .StreamEnd
      else .ok .Ok
     else .error (), ⟨buffer, by simp [buffer]⟩, (read, s.2 + piece.length))

theorem stored_decoder_faithful (head data trailer : Bytes) :
    Faithful (stored_decoder head data trailer) (stored_format head data trailer)
      fun s read wrote => s = (read, wrote.length) ∧
        wrote <+: data.take (read.length - head.length) where
  new_gzip := ⟨rfl, List.nil_prefix⟩
  total_in := by
    intro s read wrote h
    rw [h.1]
    rfl
  total_out := by
    intro s read wrote h
    rw [h.1]
    rfl
  fails := by
    intro s read wrote input e h herror hfine
    obtain ⟨rfl, -⟩ := h
    have hfine : read ++ input <+: head ++ data ++ trailer := hfine
    simp only [stored_decoder, if_pos hfine] at herror
    split at herror
    · cases herror
    · cases herror
  decodes := by
    intro s read wrote input status h hok
    obtain ⟨rfl, hwrote⟩ := h
    have hgrow : wrote <+: data.take ((read ++ input).length - head.length) :=
      hwrote.trans (List.take_prefix_take_left (by rw [List.length_append]; omega))
    obtain ⟨rest, hrest⟩ := hgrow
    have hdrop : (data.take ((read ++ input).length - head.length)).drop wrote.length = rest := by
      rw [← hrest, List.drop_left]
    simp only [stored_decoder, hdrop] at hok ⊢
    have hpiece : ((rest.take OUTPUT_BUFFER_BYTES ++ List.replicate OUTPUT_BUFFER_BYTES 0).take
        OUTPUT_BUFFER_BYTES).take (rest.take OUTPUT_BUFFER_BYTES).length =
          rest.take OUTPUT_BUFFER_BYTES := by
      rw [List.take_take, Nat.min_eq_left (List.length_take_le _ _), List.take_left]
    have hstarts : wrote ++ rest.take OUTPUT_BUFFER_BYTES <+:
        data.take ((read ++ input).length - head.length) := by
      rw [← hrest]
      exact (List.prefix_append_right_inj wrote).2 (List.take_prefix _ _)
    split at hok
    · rename_i hfine
      refine ⟨input.length, (rest.take OUTPUT_BUFFER_BYTES).length, List.length_take_le _ _, ?_, ?_⟩
      · rw [hpiece]
        refine ⟨Nat.le_refl _, List.length_take_le _ _, ?_, ?_, ?_, ?_⟩
        all_goals rw [List.take_length]
        · exact hfine
        · exact hstarts
        · have hout : read ++ input = head ++ data ++ trailer →
              data.take ((read ++ input).length - head.length) = data := by
            intro heq
            rw [heq, List.take_of_length_le]
            simp only [List.length_append]
            omega
          have hstatus : status = .StreamEnd ↔ read ++ input = head ++ data ++ trailer ∧
              wrote.length + (rest.take OUTPUT_BUFFER_BYTES).length = data.length := by
            split at hok
            · rename_i h
              cases hok
              simp only [h, and_self]
            · rename_i h
              cases hok
              simp only [reduceCtorEq, false_iff]
              exact h
          rw [hstatus]
          refine and_congr_right fun heq => ?_
          show _ ↔ _ = data.take _
          rw [hout heq] at hstarts ⊢
          rw [← List.length_append]
          exact ⟨hstarts.eq_of_length, congrArg List.length⟩
        · intro _ hshort
          rw [List.length_take] at hshort
          refine ⟨rfl, ?_⟩
          rw [List.take_of_length_le (by omega)]
          exact hrest
      · rw [hpiece, List.take_length, List.length_append]
        exact ⟨rfl, hstarts⟩
    · cases hok

/-- The one file of the archive, stored. -/
def one_byte_member_head : Bytes :=
  [0x1f, 0x8b, 8, 0, 0, 0, 0, 0, 0, 255] ++ [1, 0, 8, 255, 247]

def one_byte_member_trailer : Bytes := [112, 86, 132, 64, 0, 8, 0, 0]

def one_byte_member : Bytes :=
  one_byte_member_head ++ one_byte_archive ++ one_byte_member_trailer

theorem one_byte_member_length : one_byte_member.length = 2071 := by
  simp only [one_byte_member, List.length_append, one_byte_archive_length]
  rfl

theorem ten_bytes_are_a_header : MemberHeader [0x1f, 0x8b, 8, 0, 0, 0, 0, 0, 0, 255] := by
  refine ⟨by decide, ⟨0, [0, 0, 0, 0, 0, 255], [], [], [], []⟩, ?_, rfl⟩
  exact ⟨by decide, rfl, rfl, rfl, rfl, rfl⟩

/-- No header but the one of ten bytes starts the member. -/
theorem one_byte_member_trailed :
    Trailed (stored_format one_byte_member_head one_byte_archive one_byte_member_trailer) := by
  intro header rest hheader hmember
  have heq : header ++ rest = one_byte_member := hmember
  obtain ⟨last, hfeed, -⟩ := @header_reads header rest hheader
  obtain ⟨last', hfeed', -⟩ := @header_reads _
    ([1, 0, 8, 255, 247] ++ one_byte_archive ++ one_byte_member_trailer) ten_bytes_are_a_header
  have heq' : one_byte_member = [0x1f, 0x8b, 8, 0, 0, 0, 0, 0, 0, 255] ++
      ([1, 0, 8, 255, 247] ++ one_byte_archive ++ one_byte_member_trailer) := by
    simp [one_byte_member, one_byte_member_head]
  rw [heq, heq', hfeed'] at hfeed
  obtain ⟨-, hlength⟩ := Prod.mk.inj (Except.ok.inj hfeed)
  have htotal := congrArg List.length heq
  rw [one_byte_member_length, List.length_append, ← hlength] at htotal
  simp only [List.length_cons, List.length_nil] at htotal
  omega

/-- A member that is cut in its header. -/
theorem a_member_is_accepted_in_two_chunks :
    (GzipArchiveValidator.new _ ⟨[one_byte_file], 1⟩).validate
      (stored_decoder one_byte_member_head one_byte_archive one_byte_member_trailer)
      [one_byte_member.take 5, one_byte_member.drop 5] = .ok ⟨2071, 1, 1, 2048⟩ := by
  have hinside : Archived ⟨[one_byte_file], 1⟩ one_byte_archive ⟨1, 1, 2048⟩ := by
    have hmanifest : Manifest [one_byte_file] ⟨[one_byte_file], 1⟩ :=
      ExpectedArchive.new_manifest (by rfl)
    obtain ⟨v, hafter, hfinish⟩ := (finish_after_iff hmanifest one_byte_archive ⟨1, 1, 2048⟩ 2048).2
      ⟨one_byte_archive_of_its_manifest, rfl⟩
    refine archived_iff.2
      ⟨_, archive_after_some.2 ⟨?_, v, hafter, (after_keeps hafter).2.2, rfl⟩, ?_⟩
    · rw [one_byte_archive_length]
      decide
    · rw [one_byte_archive_length]
      exact hfinish
  have hout : (stored_format one_byte_member_head one_byte_archive one_byte_member_trailer).out
      one_byte_member = one_byte_archive := by
    rw [stored_out, one_byte_member_length, List.take_of_length_le]
    rw [one_byte_archive_length]
    decide
  refine ((a_file_is_accepted_in_any_chunks (stored_decoder_faithful _ _ _)
    one_byte_member_trailed ⟨[one_byte_file], 1⟩ one_byte_member).1 _ ?_ (by simp) _).2 ?_
  · intro chunk hchunk
    simp only [List.mem_cons, List.not_mem_nil, or_false] at hchunk
    unfold MAX_CHUNK_BYTES
    rcases hchunk with rfl | rfl
    · rw [List.length_take]
      omega
    · rw [List.length_drop, one_byte_member_length]
      omega
  · refine ⟨?_, rfl, [0x1f, 0x8b, 8, 0, 0, 0, 0, 0, 0, 255],
      [1, 0, 8, 255, 247] ++ one_byte_archive ++ one_byte_member_trailer, ⟨1, 1, 2048⟩, ?_,
      ten_bytes_are_a_header, ?_, ?_, ?_⟩
    · rw [one_byte_member_length]
      decide
    · simp [one_byte_member, one_byte_member_head]
    · rw [hout]
      exact hinside
    · rw [hout, one_byte_archive_length, one_byte_member_length]
      decide
    · rw [hout, one_byte_archive_length, one_byte_member_length]

end openwrt_mcp_device_codec.gzip
