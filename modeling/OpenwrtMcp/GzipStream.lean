-- The streaming validator of `gzip`: the admission of a member header, the loop over the decoder
-- and the archive inside. The decoder of `flate2` is a parameter, with the totals that it reports.
import OpenwrtMcp.ArchiveTurns
import OpenwrtMcp.Programs

open programs openwrt_mcp_device_codec.archive

namespace openwrt_mcp_device_codec.gzip

def MAX_CHUNK_BYTES : Nat := 65536
def MAX_SOURCE_BYTES : Nat := 72 * 1024 * 1024
def MAX_HEADER_BYTES : Nat := 4096
def MAX_EXTRA_BYTES : Nat := 4084
def MAX_NAME_BYTES : Nat := 1024
def MAX_COMMENT_BYTES : Nat := 1024
def OUTPUT_BUFFER_BYTES : Nat := 4096
def MAX_EXPANSION_RATIO : Nat := 128
def EXPANSION_SLACK_BYTES : Nat := 1024 * 1024

structure GzipArchiveSummary where
  compressed_bytes : Nat
  files : Nat
  payload_bytes : Nat
  archive_bytes : Nat
  deriving DecidableEq

inductive GzipError
  | InvalidHeader
  | InvalidData
  | LimitExceeded
  | IncompleteStream
  | TrailingData
  | InvalidArchive
  deriving DecidableEq

/-- `GzipError::from` -/
def GzipError.from : ArchiveError → GzipError
  | .LimitExceeded => .LimitExceeded
  | _ => .InvalidArchive

/-! ## The header -/

inductive Stage
  | Fixed
  | ExtraLength (low : Option UInt8)
  | Extra (remaining : Nat)
  | Name (bytes : Nat)
  | Comment (bytes : Nat)
  | Crc (remaining : Nat)
  | Done
  deriving DecidableEq

/-- `bytes` is the filled part of the buffer. -/
structure Header where
  bytes : Bytes
  flags : UInt8
  stage : Stage
  deriving DecidableEq

def Header.new : Header := { bytes := [], flags := 0, stage := .Fixed }

def Header.complete (header : Header) : Bool := header.stage == .Done

/-- The next part that a flag asks for, and the flag cleared. -/
def Header.advance (header : Header) : Header :=
  if header.flags &&& 4 ≠ 0 then
    { header with flags := header.flags &&& ~~~4, stage := .ExtraLength none }
  else if header.flags &&& 8 ≠ 0 then
    { header with flags := header.flags &&& ~~~8, stage := .Name 0 }
  else if header.flags &&& 16 ≠ 0 then
    { header with flags := header.flags &&& ~~~16, stage := .Comment 0 }
  else if header.flags &&& 2 ≠ 0 then
    { header with flags := header.flags &&& ~~~2, stage := .Crc 2 }
  else { header with stage := .Done }

/-- A byte of a text that ends with NUL, after `bytes` of its bytes. -/
def Header.text (header : Header) (stage : Nat → Stage) (limit bytes : Nat) (byte : UInt8) :
    Except GzipError Header :=
  if bytes + 1 > limit then .error .LimitExceeded
  else if byte = 0 then .ok header.advance
  else .ok { header with stage := stage (bytes + 1) }

/-- The stage after a byte that is already in the buffer. -/
def Header.accept (header : Header) (byte : UInt8) : Except GzipError Header :=
  match header.stage with
  | .Fixed =>
    if header.bytes.length = 10 then
      if header.bytes.take 3 ≠ [0x1f, 0x8b, 8] ∨ header.bytes.getD 3 0 &&& 0xe0 ≠ 0 then
        .error .InvalidHeader
      else .ok { header with flags := header.bytes.getD 3 0 }.advance
    else .ok header
  | .ExtraLength none => .ok { header with stage := .ExtraLength (some byte) }
  | .ExtraLength (some low) =>
    let remaining := low.toNat + 256 * byte.toNat
    if remaining > MAX_EXTRA_BYTES then .error .LimitExceeded
    else if remaining = 0 then .ok header.advance
    else .ok { header with stage := .Extra remaining }
  | .Extra remaining =>
    if remaining = 1 then .ok header.advance
    else .ok { header with stage := .Extra (remaining - 1) }
  | .Crc remaining =>
    if remaining = 1 then .ok header.advance
    else .ok { header with stage := .Crc (remaining - 1) }
  | .Name bytes => header.text .Name MAX_NAME_BYTES bytes byte
  | .Comment bytes => header.text .Comment MAX_COMMENT_BYTES bytes byte
  | .Done => .error .InvalidHeader

/-- `Header::feed`: the header and how many bytes it took. -/
def Header.feed : Header → Bytes → Except GzipError (Header × Nat)
  | header, [] => .ok (header, 0)
  | header, byte :: rest =>
    if header.complete then .ok (header, 0)
    else if header.bytes.length = MAX_HEADER_BYTES then .error .LimitExceeded
    else do
      let header ← Header.accept { header with bytes := header.bytes ++ [byte] } byte
      let (header, consumed) ← Header.feed header rest
      return (header, consumed + 1)

/-! ## The decoder -/

inductive Status
  | Ok
  | BufError
  | StreamEnd
  deriving DecidableEq

/-- `flate2::Decompress`: a call is given the input and a buffer of `OUTPUT_BUFFER_BYTES`, and
counts what it has read and written. -/
structure Decoder (δ : Type) where
  new_gzip : δ
  total_in : δ → Nat
  total_out : δ → Nat
  decompress (input : Bytes) : δ → Except Unit Status ×
    { out : Bytes // out.length = OUTPUT_BUFFER_BYTES } × δ

/-! ## The validator -/

structure GzipArchiveValidator (δ : Type) where
  header : Option Header
  decoder : Option δ
  inner : Option ArchiveValidator
  source_bytes : Nat
  header_bytes : Nat
  deflate_bytes : Nat
  complete : Bool
  failure : Option GzipError

def GzipArchiveValidator.new (δ : Type) (expected : ExpectedArchive) : GzipArchiveValidator δ where
  header := some .new
  decoder := none
  inner := some (ArchiveValidator.new expected)
  source_bytes := 0
  header_bytes := 0
  deflate_bytes := 0
  complete := false
  failure := none

abbrev Gzip (δ α : Type) := Prog (GzipArchiveValidator δ) GzipError α

/-- `after.checked_sub(before).filter(|n| *n <= limit)` -/
def counted (after before limit : Nat) : Option Nat :=
  if before ≤ after ∧ after - before ≤ limit then some (after - before) else none

/-- The bytes of the member between its header and its trailer, of which there is at least
one. -/
def deflate_of (total_in header_bytes : Nat) : Option Nat :=
  if header_bytes + 8 < total_in then some (total_in - header_bytes - 8) else none

section
variable {δ : Type} (d : Decoder δ)

/-- The inner validator takes the bytes that the decoder wrote. -/
def feed_archive (bytes : Bytes) : Gzip δ Unit := do
  let v ← Prog.get
  let inner ← Prog.ok_or v.inner .InvalidData
  let (inner, result) := inner.feed bytes
  Prog.modify fun v => { v with inner := some inner }
  match result with
  | .error error => Prog.stop (GzipError.from error)
  | .ok () => return ()

/-- One call of the decoder: its status, and how many bytes it read and wrote. -/
def decompress (input : Bytes) : Gzip δ (Status × Nat × Nat) := do
  let v ← Prog.get
  let before ← Prog.ok_or v.decoder .InvalidData
  let (status, out, after) := d.decompress input before
  Prog.modify fun v => { v with decoder := some after }
  match status with
  | .error _ => Prog.stop .InvalidData
  | .ok status =>
    let used ← Prog.ok_or (counted (d.total_in after) (d.total_in before) input.length) .InvalidData
    let written ← Prog.ok_or
      (counted (d.total_out after) (d.total_out before) OUTPUT_BUFFER_BYTES) .InvalidData
    feed_archive (out.1.take written)
    return (status, used, written)

/-- The member has ended. -/
def stream_end (input : Bytes) : Gzip δ Unit := do
  let v ← Prog.get
  let decoder ← Prog.ok_or v.decoder .InvalidData
  if !input.isEmpty then Prog.stop .TrailingData
  else if d.total_in decoder ≠ v.source_bytes then Prog.stop .InvalidData
  else
    let deflate_bytes ← Prog.ok_or (deflate_of (d.total_in decoder) v.header_bytes) .InvalidData
    Prog.modify fun v =>
      { v with deflate_bytes := deflate_bytes, complete := true, decoder := none }

/-- One turn of the loop of `decode`: the input that is left, when the loop goes on. -/
def decode_turn (input : Bytes) : Gzip δ (Option Bytes) := do
  let (status, used, written) ← decompress d input
  let input := input.drop used
  if status = .StreamEnd then
    stream_end d input
    return none
  else if used = 0 ∧ written = 0 then
    if input.isEmpty then return none else Prog.stop .InvalidData
  else if input.isEmpty ∧ written < OUTPUT_BUFFER_BYTES then return none
  else return some input

/-- The room that is left for the bytes of the archive. -/
def GzipArchiveValidator.room (v : GzipArchiveValidator δ) : Nat :=
  v.inner.elim 0 fun inner => MAX_ARCHIVE_BYTES - inner.total

/-! ## The loop -/

/-- A chunk that the inner validator takes counts against its limit. -/
theorem feed_ok_total {inner : ArchiveValidator} {chunk : Bytes}
    (hok : (inner.feed chunk).2 = .ok ()) :
    (inner.feed chunk).1.total = inner.total + chunk.length ∧
      inner.total + chunk.length ≤ MAX_ARCHIVE_BYTES := by
  unfold ArchiveValidator.feed at hok ⊢
  cases hf : inner.failure with
  | some error => simp [hf] at hok
  | none =>
    simp only [hf] at hok ⊢
    unfold feed_inner at hok ⊢
    by_cases hchunk : chunk.length > archive.MAX_CHUNK_BYTES
    · simp [hchunk] at hok
    · rw [if_neg hchunk] at hok ⊢
      by_cases htotal : inner.total + chunk.length ≤ MAX_ARCHIVE_BYTES
      · rw [if_pos htotal] at hok ⊢
        have hkeeps :=
          (feed_loop_keeps { inner with total := inner.total + chunk.length } chunk).2.1
        cases hloop : feed_loop { inner with total := inner.total + chunk.length } chunk with
        | mk v result =>
          rw [hloop] at hkeeps hok
          cases result with
          | error e => simp at hok
          | ok _ => exact ⟨hkeeps, htotal⟩
      · simp [htotal] at hok

theorem feed_archive_ok {bytes : Bytes} {v v' : GzipArchiveValidator δ}
    (hrun : feed_archive bytes v = (.ok (), v')) :
    ∃ inner, v.inner = some inner ∧ (inner.feed bytes).2 = .ok () ∧
      v' = { v with inner := some (inner.feed bytes).1 } := by
  unfold feed_archive at hrun
  obtain ⟨v0, m0, hget, hrest⟩ := Prog.bind_ok.mp hrun
  cases hget
  obtain ⟨inner, hinner, hrest⟩ := Prog.ok_or_bind_ok.mp hrest
  refine ⟨inner, hinner, ?_⟩
  cases hfeed : inner.feed bytes with
  | mk inner' result =>
    simp only [hfeed] at hrest
    obtain ⟨_, m1, hmodify, hrest⟩ := Prog.bind_ok.mp hrest
    cases hmodify
    cases result with
    | error e => simp at hrest
    | ok _ =>
      cases hrest
      exact ⟨rfl, rfl⟩

/-- What one call of the decoder did. -/
structure Decompressed (input : Bytes) (v v' : GzipArchiveValidator δ) (status : Status)
    (used written : Nat) (before : δ) (inner : ArchiveValidator) : Prop where
  decoder : v.decoder = some before
  archive : v.inner = some inner
  status_eq : (d.decompress input before).1 = .ok status
  used_eq : counted (d.total_in (d.decompress input before).2.2) (d.total_in before) input.length =
    some used
  written_eq : counted (d.total_out (d.decompress input before).2.2) (d.total_out before)
    OUTPUT_BUFFER_BYTES = some written
  fed : (inner.feed ((d.decompress input before).2.1.1.take written)).2 = .ok ()
  after : v' = { v with
    decoder := some (d.decompress input before).2.2
    inner := some (inner.feed ((d.decompress input before).2.1.1.take written)).1 }

variable {d}

theorem decompress_ok {input : Bytes} {v v' : GzipArchiveValidator δ} {status : Status}
    {used written : Nat} (hrun : decompress d input v = (.ok (status, used, written), v')) :
    ∃ before inner, Decompressed d input v v' status used written before inner := by
  unfold decompress at hrun
  obtain ⟨v0, m0, hget, hrest⟩ := Prog.bind_ok.mp hrun
  cases hget
  obtain ⟨before, hdecoder, hrest⟩ := Prog.ok_or_bind_ok.mp hrest
  cases hcall : d.decompress input before with
  | mk answer rest =>
    obtain ⟨out, after⟩ := rest
    simp only [hcall] at hrest
    obtain ⟨_, m1, hmodify, hrest⟩ := Prog.bind_ok.mp hrest
    cases hmodify
    cases answer with
    | error e => simp at hrest
    | ok status' =>
      obtain ⟨used', hused, hrest⟩ := Prog.ok_or_bind_ok.mp hrest
      obtain ⟨written', hwritten, hrest⟩ := Prog.ok_or_bind_ok.mp hrest
      obtain ⟨_, m2, hfeed, hrest⟩ := Prog.bind_ok.mp hrest
      cases hrest
      obtain ⟨inner, hinner, hok, hafter⟩ := feed_archive_ok hfeed
      refine ⟨before, inner, hdecoder, hinner, ?_, ?_, ?_, ?_, ?_⟩
      all_goals simp only [hcall]
      · exact hused
      · exact hwritten
      · exact hok
      · exact hafter

theorem counted_some {after before limit n : Nat} (h : counted after before limit = some n) :
    n ≤ limit ∧ after = before + n := by
  unfold counted at h
  split at h
  · cases h
    omega
  · cases h

/-- A turn after which the loop goes on: it read or wrote a byte, and the inner validator took
what it wrote. -/
theorem decode_turn_decreases {input rest : Bytes} {v v' : GzipArchiveValidator δ}
    (hrun : decode_turn d input v = (.ok (some rest), v')) :
    rest.length + v'.room < input.length + v.room := by
  unfold decode_turn at hrun
  obtain ⟨⟨status, used, written⟩, m, hcall, hrest⟩ := Prog.bind_ok.mp hrun
  obtain ⟨before, inner, hd⟩ := decompress_ok hcall
  obtain ⟨hused, -⟩ := counted_some hd.used_eq
  obtain ⟨hwritten, -⟩ := counted_some hd.written_eq
  have hlength : ((d.decompress input before).2.1.1.take written).length = written := by
    rw [List.length_take, (d.decompress input before).2.1.2]
    omega
  obtain ⟨htotal, hmax⟩ := feed_ok_total hd.fed
  rw [hlength] at htotal hmax
  have hroom : m.room = MAX_ARCHIVE_BYTES - (inner.total + written) := by
    rw [hd.after]
    show MAX_ARCHIVE_BYTES - (inner.feed _).1.total = _
    rw [htotal]
  have hroom' : v.room = MAX_ARCHIVE_BYTES - inner.total := by
    unfold GzipArchiveValidator.room
    rw [hd.archive]
    rfl
  simp only at hrest
  split at hrest
  · obtain ⟨_, m', -, hnone⟩ := Prog.bind_ok.mp hrest
    simp at hnone
  split at hrest
  · split at hrest
    · simp at hrest
    · simp at hrest
  rename_i hprogress
  split at hrest
  · simp at hrest
  · cases hrest
    rw [hroom, hroom', List.length_drop]
    omega

variable (d)

/-- The loop of `decode`. -/
def decode (input : Bytes) (v : GzipArchiveValidator δ) :
    Except GzipError Unit × GzipArchiveValidator δ :=
  match _hrun : decode_turn d input v with
  | (.error error, v') => (.error error, v')
  | (.ok none, v') => (.ok (), v')
  | (.ok (some rest), v') => decode rest v'
termination_by input.length + v.room
decreasing_by exact decode_turn_decreases _hrun

/-- A header that is complete goes to a new decoder. -/
def start_decoder (header : Header) : Gzip δ Unit := do
  Prog.modify fun v => { v with
    header := none
    header_bytes := header.bytes.length
    decoder := some d.new_gzip }
  decode d header.bytes

def gzip_feed_inner (input : Bytes) : Gzip δ Unit := do
  if input.length > MAX_CHUNK_BYTES then Prog.stop .LimitExceeded
  else
    let v ← Prog.get
    if v.source_bytes + input.length ≤ MAX_SOURCE_BYTES then
      Prog.modify fun v => { v with source_bytes := v.source_bytes + input.length }
      if v.complete then
        if input.isEmpty then return () else Prog.stop .TrailingData
      else
        match v.header with
        | none => decode d input
        | some header =>
          let (header, consumed) ← Prog.lift (header.feed input)
          Prog.modify fun v => { v with header := some header }
          if !header.complete then return ()
          else
            start_decoder d header
            decode d (input.drop consumed)
    else Prog.stop .LimitExceeded

def GzipArchiveValidator.feed (v : GzipArchiveValidator δ) (input : Bytes) :
    GzipArchiveValidator δ × Except GzipError Unit :=
  match v.failure with
  | some error => (v, .error error)
  | none =>
    match gzip_feed_inner d input v with
    | (.error error, v') =>
      ({ v' with failure := some error, header := none, decoder := none, inner := none },
        .error error)
    | (.ok (), v') => (v', .ok ())

def GzipArchiveValidator.finish (v : GzipArchiveValidator δ) :
    Except GzipError GzipArchiveSummary :=
  match v.failure with
  | some error => .error error
  | none =>
    if !v.complete then .error .IncompleteStream
    else
      match v.inner with
      | none => .error .InvalidData
      | some inner =>
        match inner.finish with
        | .error error => .error (GzipError.from error)
        | .ok summary =>
          -- both sums are checked as `u64`
          if v.deflate_bytes * MAX_EXPANSION_RATIO + EXPANSION_SLACK_BYTES < 2 ^ 64 then
            if summary.archive_bytes > v.deflate_bytes * MAX_EXPANSION_RATIO + EXPANSION_SLACK_BYTES
              then .error .LimitExceeded
            else .ok {
              compressed_bytes := v.source_bytes
              files := summary.files
              payload_bytes := summary.payload_bytes
              archive_bytes := summary.archive_bytes }
          else .error .LimitExceeded

/-- `feed` on each chunk in turn, then `finish`. -/
def GzipArchiveValidator.validate (v : GzipArchiveValidator δ) (chunks : List Bytes) :
    Except GzipError GzipArchiveSummary :=
  (chunks.foldl (fun v chunk => (v.feed d chunk).1) v).finish

end

end openwrt_mcp_device_codec.gzip
