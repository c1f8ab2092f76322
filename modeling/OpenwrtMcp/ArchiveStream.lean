-- The streaming validator of `archive`. It reads the bytes of a tar stream in
-- chunks, keeps a part of a header between them, and latches its first error.
import OpenwrtMcp.ArchiveHeader

open text slices

namespace openwrt_mcp_device_codec.archive

/-- A body or a padding in the stage has at least one byte to come. -/
inductive Stage
  | Header
  | Body (remaining : Nat) (padding : Nat) (pos : 0 < remaining)
  | Padding (remaining : Nat) (pos : 0 < remaining)
  | End (bytes : Nat)
  deriving DecidableEq

/-- `header` is the filled part of the block buffer; the rest of the buffer is zero. -/
structure ArchiveValidator where
  expected : ExpectedArchive
  seen : List Bool
  header : Bytes
  header_lt : header.length < BLOCK_BYTES
  stage : Stage
  total : Nat
  failure : Option ArchiveError

def ArchiveValidator.new (expected : ExpectedArchive) : ArchiveValidator where
  expected := expected
  seen := List.replicate expected.files.length false
  header := []
  header_lt := by decide
  stage := .Header
  total := 0
  failure := none

/-- The zero bytes from the end of a body to the next block. -/
def padding_of (size : Nat) : Nat := (BLOCK_BYTES - size % BLOCK_BYTES) % BLOCK_BYTES

/-- The stage after a body that has ended. -/
def Stage.after_body (padding : Nat) : Stage :=
  if h : 0 < padding then .Padding padding h else .Header

/-- The stage after a header with this size. -/
def Stage.after_header (size : Nat) : Stage :=
  if h : 0 < size then .Body size (padding_of size) h else .Header

/-- `accept_header` on a full block: the files seen and the stage after it. -/
def accept_header (files : List ExpectedFile) (seen : List Bool) (block : Bytes) :
    Except ArchiveError (List Bool × Stage) :=
  if block.all (· == 0) then .ok (seen, .End BLOCK_BYTES)
  else
    match parse block with
    | .error e => .error e
    | .ok entry =>
      match find_path files entry.path with
      | .error _ => .error .ManifestMismatch
      | .ok i =>
        -- the index is in bounds of both lists, so a missing element is never read
        if seen[i]? ≠ some false ∨ files[i]?.map ExpectedFile.size ≠ some entry.size then
          .error .ManifestMismatch
        else .ok (seen.set i true, .after_header entry.size)

/-- The loop of `feed_inner`: `while !input.is_empty()`. -/
def feed_loop (v : ArchiveValidator) (input : Bytes) :
    ArchiveValidator × Except ArchiveError Unit :=
  if hne : input = [] then (v, .ok ())
  else
    match v.stage with
    | .Header =>
      let take := min input.length (BLOCK_BYTES - v.header.length)
      let header := v.header ++ input.take take
      if hlt : header.length < BLOCK_BYTES then
        feed_loop { v with header := header, header_lt := hlt } (input.drop take)
      else
        match accept_header v.expected.files v.seen header with
        | .error e => (v, .error e)
        | .ok (seen, stage) =>
          feed_loop { v with seen := seen, stage := stage, header := [], header_lt := by decide }
            (input.drop take)
    | .Body remaining padding _ =>
      let take := min remaining input.length
      let stage := if h : 0 < remaining - take then Stage.Body (remaining - take) padding h
        else .after_body padding
      feed_loop { v with stage := stage } (input.drop take)
    | .Padding remaining _ =>
      let take := min remaining input.length
      if (input.take take).any (· != 0) then (v, .error .InvalidPadding)
      else
        let stage := if h : 0 < remaining - take then Stage.Padding (remaining - take) h
          else .Header
        feed_loop { v with stage := stage } (input.drop take)
    | .End bytes =>
      if bytes + input.length ≤ MAX_TAIL_BYTES then
        if input.any (· != 0) then (v, .error .InvalidPadding)
        else ({ v with stage := .End (bytes + input.length) }, .ok ())
      else (v, .error .LimitExceeded)
termination_by input.length
decreasing_by
  all_goals
    have hpos := List.length_pos_iff.mpr hne
    have hlt := v.header_lt
    simp only [List.length_drop]
    omega

def feed_inner (v : ArchiveValidator) (input : Bytes) :
    ArchiveValidator × Except ArchiveError Unit :=
  if input.length > MAX_CHUNK_BYTES then (v, .error .LimitExceeded)
  else if v.total + input.length ≤ MAX_ARCHIVE_BYTES then
    feed_loop { v with total := v.total + input.length } input
  else (v, .error .LimitExceeded)

def ArchiveValidator.feed (v : ArchiveValidator) (input : Bytes) :
    ArchiveValidator × Except ArchiveError Unit :=
  match v.failure with
  | some error => (v, .error error)
  | none =>
    match feed_inner v input with
    | (v', .error error) =>
      ({ v' with failure := some error, header := [], header_lt := by decide }, .error error)
    | (v', .ok ()) => (v', .ok ())

def ArchiveValidator.finish (v : ArchiveValidator) : Except ArchiveError ArchiveSummary :=
  match v.failure with
  | some error => .error error
  | none =>
    match v.stage with
    | .End bytes =>
      if bytes ≥ 2 * BLOCK_BYTES ∧ bytes % BLOCK_BYTES = 0 then
        if v.seen.any (fun seen => !seen) then .error .ManifestMismatch
        else .ok {
          files := v.expected.files.length
          payload_bytes := v.expected.payload_bytes
          archive_bytes := v.total }
      else .error .IncompleteArchive
    | _ => .error .IncompleteArchive

/-- `feed` on each chunk in turn, then `finish`. -/
def ArchiveValidator.validate (v : ArchiveValidator) (chunks : List Bytes) :
    Except ArchiveError ArchiveSummary :=
  (chunks.foldl (fun v chunk => (v.feed chunk).1) v).finish

end openwrt_mcp_device_codec.archive
