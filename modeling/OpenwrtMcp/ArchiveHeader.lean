-- The tar header and the manifest of `archive`: what one 512-byte block may
-- hold, which paths are allowed, and the list of files that an archive must have.
import OpenwrtMcp.Slices
import OpenwrtMcp.Text

open text slices

instance byte_order : LinearOrder UInt8 where
  le_refl a := UInt8.le_refl a
  le_trans a b c := UInt8.le_trans
  le_antisymm a b := UInt8.le_antisymm
  le_total a b := UInt8.le_total a b
  lt_iff_le_not_ge a b := by
    rw [UInt8.lt_iff_toNat_lt, UInt8.le_iff_toNat_le, UInt8.le_iff_toNat_le]
    omega
  toDecidableLE := inferInstance

namespace openwrt_mcp_device_codec.archive

def MAX_CHUNK_BYTES : Nat := 65536
def MAX_ARCHIVE_BYTES : Nat := 72 * 1024 * 1024
def MAX_PAYLOAD_BYTES : Nat := 64 * 1024 * 1024
def MAX_FILE_BYTES : Nat := 8 * 1024 * 1024
def MAX_FILES : Nat := 4096
def MAX_PATH_BYTES : Nat := 256
def MAX_PATH_COMPONENTS : Nat := 32
def MAX_COMPONENT_BYTES : Nat := 100
def MAX_TAIL_BYTES : Nat := 32768
def BLOCK_BYTES : Nat := 512

abbrev Bytes := List UInt8

structure ArchiveSummary where
  files : Nat
  payload_bytes : Nat
  archive_bytes : Nat
  deriving DecidableEq, Repr

inductive ArchiveError
  | InvalidPath
  | InvalidManifest
  | InvalidHeader
  | UnsupportedEntry
  | ManifestMismatch
  | LimitExceeded
  | IncompleteArchive
  | InvalidPadding
  deriving DecidableEq, Repr

/-! ## Paths -/

def validate_path (path : Bytes) : Except ArchiveError Unit :=
  if path.isEmpty || path.length > MAX_PATH_BYTES then .error .InvalidPath
  else if !path.all (fun b => is_ascii_alphanumeric b || b ∈ ascii "_-.+@/") then
    .error .InvalidPath
  else if ((path.splitOn 47).zipIdx 1).any (fun (component, count) =>
      component.isEmpty || component.length > MAX_COMPONENT_BYTES || component = ascii "." ||
        component = ascii ".." || count > MAX_PATH_COMPONENTS) then
    .error .InvalidPath
  else .ok ()

/-! ## The header block -/

structure Header where
  path : Bytes
  size : Nat
  deriving DecidableEq

/-- The loop of `octal`, from the first byte that is no space: the value so far, and what is
left. The sums are checked as `u64`. -/
def octal_digits : Bytes → Nat → Except ArchiveError (Nat × Bytes)
  | [], value => .ok (value, [])
  | b :: rest, value =>
    if 48 ≤ b ∧ b ≤ 55 then
      if value * 8 < 2 ^ 64 ∧ value * 8 + (b - 48).toNat < 2 ^ 64 then
        octal_digits rest (value * 8 + (b - 48).toNat)
      else .error .InvalidHeader
    else .ok (value, b :: rest)

def octal (field : Bytes) : Except ArchiveError Nat :=
  match field.dropWhile (· == 32) with
  | [] => .error .InvalidHeader
  | start => do
    let (value, rest) ← octal_digits start 0
    if rest.length = start.length || !rest.all (fun b => b = 32 || b = 0) then
      .error .InvalidHeader
    else .ok value

/-- `text`: the bytes before the first NUL, which only NULs may follow. -/
def text_field (field : Bytes) : Except ArchiveError Bytes :=
  match field.findIdx? (· == 0) with
  | some last =>
    if (field.drop last).any (· != 0) then .error .InvalidHeader else .ok (field.take last)
  | none => .ok field

/-- `&block[lo..hi]` -/
def sub (block : Bytes) (lo hi : Nat) : Bytes := (block.drop lo).take (hi - lo)

/-- The sum of all bytes, with the checksum field read as spaces. -/
def checksum (block : Bytes) : Nat :=
  (block.zipIdx.map fun (b, i) => if 148 ≤ i ∧ i < 156 then 32 else b.toNat).sum

def posix_magic : Bytes := ascii "ustar" ++ [0] ++ ascii "00"
def gnu_magic : Bytes := ascii "ustar  " ++ [0]

/-- The `prefix` of the path, by the magic of the block. -/
def path_prefix (block : Bytes) : Except ArchiveError Bytes :=
  if sub block 257 265 = posix_magic then
    if (sub block 500 512).any (· != 0) then .error .InvalidHeader
    else text_field (sub block 345 500)
  else if sub block 257 265 = gnu_magic then
    if (sub block 345 512).any (· != 0) then .error .InvalidHeader else .ok []
  else .error .InvalidHeader

/-- A field of `||` tests: an octal field that must not pass a bound. -/
def octal_at_most (field : Bytes) (bound : Nat) : Except ArchiveError Unit := do
  if (← octal field) > bound then .error .InvalidHeader else .ok ()

/-- A device field is all NULs or an octal zero. -/
def device_field (field : Bytes) : Except ArchiveError Unit :=
  if field.all (· == 0) then .ok () else octal_at_most field 0

/-- `u8::is_ascii_graphic` -/
def is_ascii_graphic (b : UInt8) : Bool := 33 ≤ b && b ≤ 126

def owner_field (field : Bytes) : Except ArchiveError Unit := do
  if !(← text_field field).all is_ascii_graphic then .error .InvalidHeader else .ok ()

/-- The block is one of 512 bytes. -/
def parse (block : Bytes) : Except ArchiveError Header := do
  let stored ← octal (sub block 148 156)
  if checksum block ≠ stored then .error .InvalidHeader
  else
    let lead ← path_prefix block
    if ¬ (block.getD 156 0 = 48 ∨ block.getD 156 0 = 0) then .error .UnsupportedEntry
    else if (sub block 157 257).any (· != 0) then .error .InvalidHeader
    else
      octal_at_most (sub block 100 108) 0o777
      octal_at_most (sub block 108 116) (2 ^ 32 - 1)
      octal_at_most (sub block 116 124) (2 ^ 32 - 1)
      let size ← octal (sub block 124 136)
      if size > MAX_FILE_BYTES then .error .LimitExceeded
      else
        let _ ← octal (sub block 136 148)
        device_field (sub block 329 337)
        device_field (sub block 337 345)
        owner_field (sub block 265 297)
        owner_field (sub block 297 329)
        let name ← text_field (sub block 0 100)
        let length := lead.length + (if lead.isEmpty then 0 else 1) + name.length
        if length > MAX_PATH_BYTES || name.isEmpty then .error .InvalidPath
        else
          let path := lead ++ (if lead.isEmpty then [] else [47]) ++ name
          validate_path path
          return { path, size }

/-- A block of NULs is no header: its checksum field has no digit. -/
theorem parse_zero_block : ∃ e, parse (List.replicate BLOCK_BYTES 0) = .error e := by
  refine ⟨.InvalidHeader, ?_⟩
  have h : octal (sub (List.replicate BLOCK_BYTES 0) 148 156) = .error .InvalidHeader := by decide
  unfold parse
  rw [h]
  rfl

/-! ## The manifest -/

/-- Its fields are private, so every value passed the tests of `new`. -/
structure ExpectedFile where
  path : Bytes
  size : Nat
  valid : validate_path path = .ok ()
  size_le : size ≤ MAX_FILE_BYTES

@[ext]
theorem ExpectedFile.ext {a b : ExpectedFile} (h1 : a.path = b.path) (h2 : a.size = b.size) :
    a = b := by
  cases a
  cases b
  simp_all

def ExpectedFile.new (path : Str) (size : Nat) : Except ArchiveError ExpectedFile :=
  match h : validate_path (bytes path) with
  | .error e => .error e
  | .ok _ =>
    if hs : size ≤ MAX_FILE_BYTES then .ok ⟨bytes path, size, h, hs⟩ else .error .LimitExceeded

structure ExpectedArchive where
  files : List ExpectedFile
  payload_bytes : Nat

/-- The loop that adds the sizes. -/
def add_sizes : List ExpectedFile → Nat → Except ArchiveError Nat
  | [], payload_bytes => .ok payload_bytes
  | file :: rest, payload_bytes =>
    if payload_bytes + file.size < 2 ^ 64 ∧ payload_bytes + file.size ≤ MAX_PAYLOAD_BYTES then
      add_sizes rest (payload_bytes + file.size)
    else .error .LimitExceeded

/-- The index of a path in the sorted files. -/
def find_path (files : List ExpectedFile) (path : Bytes) : Except Nat Nat :=
  binary_search_by files fun f => cmp f.path path

/-- A prefix of the path of `file`, up to a separator, is the path of a file. -/
def has_ancestor (files : List ExpectedFile) (file : ExpectedFile) : Bool :=
  file.path.zipIdx.any fun (byte, i) =>
    byte = 47 && (find_path files (file.path.take i)).toOption.isSome

def ExpectedArchive.new (files : List ExpectedFile) : Except ArchiveError ExpectedArchive :=
  if files.isEmpty then .error .InvalidManifest
  else if files.length > MAX_FILES then .error .LimitExceeded
  else
    match add_sizes files 0 with
    | .error e => .error e
    | .ok payload_bytes =>
      let files := sort_by_key ExpectedFile.path files
      if (windows2 files).any fun p => p.1.path = p.2.path then .error .InvalidManifest
      else if files.any (has_ancestor files) then .error .InvalidManifest
      else .ok { files, payload_bytes }

theorem add_sizes_ok {files : List ExpectedFile} {n m : Nat} (h : add_sizes files n = .ok m)
    (hn : n ≤ MAX_PAYLOAD_BYTES) :
    m = n + (files.map ExpectedFile.size).sum ∧ m ≤ MAX_PAYLOAD_BYTES := by
  induction files generalizing n with
  | nil =>
    cases h
    exact ⟨by simp, hn⟩
  | cons f files ih =>
    unfold add_sizes at h
    split at h
    · rename_i hle
      obtain ⟨h1, h2⟩ := ih h hle.2
      refine ⟨?_, h2⟩
      rw [h1, List.map_cons, List.sum_cons]
      omega
    · cases h

/-- What an archive built by `new` keeps of its manifest. -/
structure Manifest (manifest : List ExpectedFile) (expected : ExpectedArchive) : Prop where
  perm : expected.files.Perm manifest
  increasing : (expected.files.map ExpectedFile.path).Pairwise (· < ·)
  payload : expected.payload_bytes = (manifest.map ExpectedFile.size).sum
  payload_le : expected.payload_bytes ≤ MAX_PAYLOAD_BYTES
  files_le : manifest.length ≤ MAX_FILES

theorem ExpectedArchive.new_manifest {manifest : List ExpectedFile} {expected : ExpectedArchive}
    (h : ExpectedArchive.new manifest = .ok expected) : Manifest manifest expected := by
  unfold ExpectedArchive.new at h
  split at h
  · cases h
  split at h
  · cases h
  rename_i hlen
  split at h
  · cases h
  rename_i payload hsum
  simp only at h
  split at h
  · cases h
  rename_i hdup
  split at h
  · cases h
  cases h
  obtain ⟨h1, h2⟩ := add_sizes_ok hsum (Nat.zero_le _)
  refine ⟨sort_by_key_perm _ _, ?_, by simpa using h1, h2, by omega⟩
  apply sort_by_key_lt
  intro p hp he
  exact hdup (List.any_eq_true.mpr ⟨p, hp, by simpa using he⟩)

theorem find_path_ok_iff {files : List ExpectedFile}
    (hinc : (files.map ExpectedFile.path).Pairwise (· < ·)) (path : Bytes) (i : Nat) :
    find_path files path = .ok i ↔ files[i]?.map ExpectedFile.path = some path := by
  rw [← binary_search_by_ok_iff ExpectedFile.path path files i hinc]
  unfold find_path
  -- the two orders on byte lists are the same, with two instances to decide them
  congr!

end openwrt_mcp_device_codec.archive
