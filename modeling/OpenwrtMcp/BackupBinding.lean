-- The binding of a backup artifact: 88 bytes that name a store, a target, a boot and a job,
-- with the sizes and the format of the archive.
import OpenwrtMcp.BigEndian
import OpenwrtMcp.Programs
import OpenwrtMcp.Text

open big_endian programs text

namespace openwrt_mcp_runtime.backups

abbrev Bytes := List UInt8

inductive BackupError
  | Invalid
  | Limit
  | Cancelled
  | Deadline
  | Busy
  | Unavailable
  | Integrity
  | Unknown
  deriving DecidableEq

def MAX_PLAINTEXT : Nat := 131072
def MAX_CIPHERTEXT : Nat := 1048576
def MAX_STORE_BYTES : Nat := 33562688
def MAX_RECORDS : Nat := 32
def BINDING_BYTES : Nat := 88

inductive ArchiveFormat
  | Tar
  | Gzip
  deriving DecidableEq

/-- `[u8; 16]` -/
abbrev Id := { id : Bytes // id.length = 16 }

def Id.zero : Id := ⟨List.replicate 16 0, rfl⟩

def ArchiveFormat.byte : ArchiveFormat → UInt8
  | .Tar => 0
  | .Gzip => 1

/-- What `system` is given. -/
structure BindingFields where
  store : Id
  target : Id
  boot : Id
  job : Id
  file_bytes : Nat
  source_bytes : Nat
  format : ArchiveFormat
  deriving DecidableEq

def BindingFields.valid (f : BindingFields) : Bool :=
  !([f.store, f.target, f.boot, f.job].contains Id.zero || f.file_bytes > 65536 ||
    f.source_bytes = 0 || f.source_bytes > MAX_PLAINTEXT)

def BindingFields.encode (f : BindingFields) : Bytes :=
  f.store.1 ++ f.target.1 ++ f.boot.1 ++ f.job.1 ++ to_be_bytes 8 f.file_bytes ++
    to_be_bytes 8 f.source_bytes ++ [f.format.byte] ++ ascii "SYSv001"

/-- The bytes are private: they are the encoding of fields that `system` took. -/
structure ArtifactBinding where
  encoded : Bytes
  built : ∃ f : BindingFields, f.valid = true ∧ encoded = f.encode

@[ext]
theorem ArtifactBinding.ext {a b : ArtifactBinding} (h : a.encoded = b.encoded) : a = b := by
  cases a
  cases b
  simp_all

instance : DecidableEq ArtifactBinding := fun a b =>
  decidable_of_iff (a.encoded = b.encoded) ⟨ArtifactBinding.ext, fun h => h ▸ rfl⟩

def ArtifactBinding.system (f : BindingFields) : Except BackupError ArtifactBinding :=
  if h : f.valid = true then .ok ⟨f.encode, f, h, rfl⟩ else .error .Invalid

/-- `&bytes[start..start + len]` -/
def field (bytes : Bytes) (start len : Nat) : Bytes := (bytes.drop start).take len

/-- The closure `id` of `decode`. -/
def id_at (bytes : Bytes) (start : Nat) : Except BackupError Id :=
  if h : (field bytes start 16).length = 16 then .ok ⟨_, h⟩ else .error .Integrity

/-- The closure `number` of `decode`. -/
def number_at (bytes : Bytes) (start : Nat) : Except BackupError Nat :=
  if (field bytes start 8).length = 8 then .ok (from_be_bytes (field bytes start 8))
  else .error .Integrity

def format_of : UInt8 → Except BackupError ArchiveFormat
  | 0 => .ok .Tar
  | 1 => .ok .Gzip
  | _ => .error .Integrity

def ArtifactBinding.decode (bytes : Bytes) : Except BackupError ArtifactBinding :=
  if bytes.length ≠ BINDING_BYTES ∨ bytes.drop 81 ≠ ascii "SYSv001" then .error .Integrity
  else do
    let format ← format_of (bytes.getD 80 0)
    let store ← id_at bytes 0
    let target ← id_at bytes 16
    let boot ← id_at bytes 32
    let job ← id_at bytes 48
    let file_bytes ← number_at bytes 64
    let source_bytes ← number_at bytes 72
    ArtifactBinding.system { store, target, boot, job, file_bytes, source_bytes, format }

def ArtifactBinding.store (b : ArtifactBinding) : Bytes := b.encoded.take 16
def ArtifactBinding.target (b : ArtifactBinding) : Bytes := field b.encoded 16 16
def ArtifactBinding.job (b : ArtifactBinding) : Bytes := field b.encoded 48 16
def ArtifactBinding.file_bytes (b : ArtifactBinding) : Nat := from_be_bytes (field b.encoded 64 8)
def ArtifactBinding.source_bytes (b : ArtifactBinding) : Nat :=
  from_be_bytes (field b.encoded 72 8)

def ArtifactBinding.format (b : ArtifactBinding) : ArchiveFormat :=
  if b.encoded.getD 80 0 = 0 then .Tar else .Gzip

/-- Its fields are private, so every value passed the tests of `completed`. -/
structure CapturedArchive where
  binding : ArtifactBinding
  bytes : Bytes
  length_eq : bytes.length = binding.source_bytes
  length_le : bytes.length ≤ MAX_PLAINTEXT

def CapturedArchive.completed (binding : ArtifactBinding) (bytes : Bytes) (producer_bytes : Nat) :
    Except BackupError CapturedArchive :=
  if h : bytes.length = binding.source_bytes ∧ producer_bytes = binding.source_bytes ∧
      bytes.length ≤ MAX_PLAINTEXT then .ok ⟨binding, bytes, h.1, h.2.2⟩
  else .error .Integrity

theorem BindingFields.length_encode (f : BindingFields) : f.encode.length = BINDING_BYTES := by
  unfold BindingFields.encode
  simp only [List.length_append, length_to_be_bytes, f.store.2, f.target.2, f.boot.2, f.job.2]
  rfl

theorem ArtifactBinding.length_encoded (b : ArtifactBinding) :
    b.encoded.length = BINDING_BYTES := by
  obtain ⟨f, -, h⟩ := b.built
  rw [h, f.length_encode]

theorem id_at_ok {bytes : Bytes} {start : Nat} {id : Id} (h : id_at bytes start = .ok id) :
    id.1 = field bytes start 16 := by
  unfold id_at at h
  split at h
  · cases h
    rfl
  · cases h

theorem number_at_ok {bytes : Bytes} {start n : Nat} (h : number_at bytes start = .ok n) :
    to_be_bytes 8 n = field bytes start 8 := by
  unfold number_at at h
  split at h
  · rename_i hlen
    cases h
    have := to_from_be_bytes (field bytes start 8)
    rwa [hlen] at this
  · cases h

theorem format_of_ok {b : UInt8} {format : ArchiveFormat} (h : format_of b = .ok format) :
    format.byte = b := by
  unfold format_of at h
  split at h
  · cases h
    rfl
  · cases h
    rfl
  · cases h

theorem field_append (bytes : Bytes) (start len len' : Nat) :
    field bytes start len ++ field bytes (start + len) len' = field bytes start (len + len') := by
  unfold field
  rw [List.take_add, List.drop_drop]

/-- The ids and the numbers, one after another. -/
theorem fields_eighty (bytes : Bytes) :
    field bytes 0 16 ++ field bytes 16 16 ++ field bytes 32 16 ++ field bytes 48 16 ++
      field bytes 64 8 ++ field bytes 72 8 = field bytes 0 80 := by
  have h16 := field_append bytes 0 16 16
  have h32 := field_append bytes 0 32 16
  have h48 := field_append bytes 0 48 16
  have h64 := field_append bytes 0 64 8
  have h72 := field_append bytes 0 72 8
  simp only [Nat.zero_add] at h16 h32 h48 h64 h72
  rw [h16, h32, h48, h64, h72]

/-- What `decode` accepts is the encoding of the binding it returns. -/
theorem ArtifactBinding.encoded_decode {bytes : Bytes} {b : ArtifactBinding}
    (h : ArtifactBinding.decode bytes = .ok b) : b.encoded = bytes := by
  unfold ArtifactBinding.decode at h
  split at h
  · cases h
  rename_i hshape
  simp only [not_or, not_not] at hshape
  simp only [except_bind_ok] at h
  obtain ⟨format, hformat, store, hstore, target, htarget, boot, hboot, job, hjob, file_bytes,
    hfile, source_bytes, hsource, h⟩ := h
  unfold ArtifactBinding.system at h
  split at h
  · cases h
    have h80 : bytes.drop 80 = [bytes.getD 80 0] ++ bytes.drop 81 := by
      have hlt : 80 < bytes.length := by
        rw [hshape.1]
        decide
      rw [List.drop_eq_getElem_cons hlt, List.getD_eq_getElem _ _ hlt]
      rfl
    have hsplit : bytes = field bytes 0 80 ++ bytes.drop 80 := by
      unfold field
      rw [List.drop_zero, List.take_append_drop]
    unfold BindingFields.encode
    simp only [id_at_ok hstore, id_at_ok htarget, id_at_ok hboot, id_at_ok hjob,
      number_at_ok hfile, number_at_ok hsource, format_of_ok hformat]
    conv_rhs => rw [hsplit, h80, hshape.2]
    simp only [← List.append_assoc]
    congr 2
    exact fields_eighty bytes
  · cases h

/-! ## The fields of an encoding -/

theorem field_drop {before rest : Bytes} {n : Nat} (h : before.length = n) (start len : Nat) :
    field (before ++ rest) (n + start) len = field rest start len := by
  unfold field
  rw [← List.drop_drop, List.drop_left' h]

theorem field_skip {before rest : Bytes} {n : Nat} (h : before.length = n) (len : Nat) :
    field (before ++ rest) n len = field rest 0 len :=
  field_drop h 0 len

theorem field_take {x rest : Bytes} {len : Nat} (h : x.length = len) :
    field (x ++ rest) 0 len = x := by
  unfold field
  rw [List.drop_zero, List.take_left' h]

theorem id_at_of_field {bytes : Bytes} {start : Nat} {id : Id}
    (h : field bytes start 16 = id.1) : id_at bytes start = .ok id := by
  unfold id_at
  rw [dif_pos (by rw [h, id.2])]
  congr 1
  exact Subtype.ext h

theorem number_at_of_field {bytes : Bytes} {start n : Nat} (hn : n < 256 ^ 8)
    (h : field bytes start 8 = to_be_bytes 8 n) : number_at bytes start = .ok n := by
  unfold number_at
  rw [if_pos (by rw [h, length_to_be_bytes]), h, from_to_be_bytes hn]

theorem format_of_byte (format : ArchiveFormat) : format_of format.byte = .ok format := by
  cases format with
  | Tar => rfl
  | Gzip => rfl

theorem BindingFields.sizes_lt {f : BindingFields} (hvalid : f.valid = true) :
    f.file_bytes < 256 ^ 8 ∧ f.source_bytes < 256 ^ 8 := by
  unfold BindingFields.valid MAX_PLAINTEXT at hvalid
  simp at hvalid
  omega

section
variable (f : BindingFields)

theorem BindingFields.field_store : field f.encode 0 16 = f.store.1 := by
  simp only [BindingFields.encode, List.append_assoc]
  exact field_take f.store.2

theorem BindingFields.field_target : field f.encode 16 16 = f.target.1 := by
  simp only [BindingFields.encode, List.append_assoc]
  rw [field_drop f.store.2 0, field_take f.target.2]

theorem BindingFields.field_boot : field f.encode 32 16 = f.boot.1 := by
  simp only [BindingFields.encode, List.append_assoc]
  rw [field_drop f.store.2 16, field_drop f.target.2 0, field_take f.boot.2]

theorem BindingFields.field_job : field f.encode 48 16 = f.job.1 := by
  simp only [BindingFields.encode, List.append_assoc]
  rw [field_drop f.store.2 32, field_drop f.target.2 16, field_drop f.boot.2 0,
    field_take f.job.2]

/-- The part behind the four ids. -/
theorem BindingFields.field_sizes (start len : Nat) :
    field f.encode (64 + start) len = field (to_be_bytes 8 f.file_bytes ++
      (to_be_bytes 8 f.source_bytes ++ ([f.format.byte] ++ ascii "SYSv001"))) start len := by
  simp only [BindingFields.encode, List.append_assoc]
  have h64 : 64 + start = 16 + (16 + (16 + (16 + start))) := by omega
  rw [h64, field_drop f.store.2, field_drop f.target.2, field_drop f.boot.2, field_drop f.job.2]

theorem BindingFields.field_file_bytes : field f.encode 64 8 = to_be_bytes 8 f.file_bytes := by
  rw [f.field_sizes 0, field_take (length_to_be_bytes ..)]

theorem BindingFields.field_source_bytes :
    field f.encode 72 8 = to_be_bytes 8 f.source_bytes := by
  rw [f.field_sizes 8, field_drop (length_to_be_bytes 8 _) 0, field_take (length_to_be_bytes ..)]

theorem BindingFields.drop_format :
    f.encode.drop 80 = [f.format.byte] ++ ascii "SYSv001" := by
  have hlen : (f.encode.drop 80).length = 8 := by
    rw [List.length_drop, f.length_encode]
    rfl
  have hfield : field f.encode 80 8 = [f.format.byte] ++ ascii "SYSv001" := by
    rw [f.field_sizes 16, field_drop (length_to_be_bytes 8 _) 8,
      field_drop (length_to_be_bytes 8 _) 0]
    rfl
  rw [← hfield]
  unfold field
  rw [List.take_of_length_le (by omega)]

end

/-- What `system` took comes back from its encoding. -/
theorem BindingFields.decode_encode {f : BindingFields} (hvalid : f.valid = true) :
    ArtifactBinding.decode f.encode = ArtifactBinding.system f := by
  obtain ⟨hfile, hsource⟩ := BindingFields.sizes_lt hvalid
  have hdrop : f.encode.drop 81 = ascii "SYSv001" := by
    rw [show 81 = 80 + 1 from rfl, ← List.drop_drop, f.drop_format]
    rfl
  have hformat : f.encode.getD 80 0 = f.format.byte := by
    have hhead := congrArg List.head? f.drop_format
    rw [List.head?_drop] at hhead
    rw [List.getD_eq_getElem?_getD, hhead]
    rfl
  unfold ArtifactBinding.decode
  rw [if_neg (by simp [f.length_encode, hdrop]), hformat, format_of_byte,
    id_at_of_field f.field_store, id_at_of_field f.field_target, id_at_of_field f.field_boot,
    id_at_of_field f.field_job, number_at_of_field hfile f.field_file_bytes,
    number_at_of_field hsource f.field_source_bytes]
  rfl

/-- A binding decodes from its own bytes. -/
theorem ArtifactBinding.decode_encoded (b : ArtifactBinding) :
    ArtifactBinding.decode b.encoded = .ok b := by
  obtain ⟨encoded, f, hvalid, rfl⟩ := b
  rw [BindingFields.decode_encode hvalid]
  unfold ArtifactBinding.system
  rw [dif_pos hvalid]

/-- No binding is about more than a record holds. -/
theorem ArtifactBinding.source_bytes_le (b : ArtifactBinding) : b.source_bytes ≤ MAX_PLAINTEXT := by
  obtain ⟨f, hvalid, h⟩ := b.built
  rw [ArtifactBinding.source_bytes, h, f.field_source_bytes,
    from_to_be_bytes (BindingFields.sizes_lt hvalid).2]
  unfold BindingFields.valid at hvalid
  simp at hvalid
  exact hvalid.2

/-! ## The format as a whole -/

/-- The arguments that `system` takes. -/
structure BindingFields.Accepted (f : BindingFields) : Prop where
  store : f.store ≠ Id.zero
  target : f.target ≠ Id.zero
  boot : f.boot ≠ Id.zero
  job : f.job ≠ Id.zero
  file_bytes_le : f.file_bytes ≤ 65536
  one_le : 1 ≤ f.source_bytes
  source_bytes_le : f.source_bytes ≤ 131072

theorem BindingFields.valid_iff {f : BindingFields} : f.valid = true ↔ f.Accepted := by
  have hids : [f.store, f.target, f.boot, f.job].contains Id.zero = true ↔
      Id.zero = f.store ∨ Id.zero = f.target ∨ Id.zero = f.boot ∨ Id.zero = f.job := by
    simp
  unfold BindingFields.valid MAX_PLAINTEXT
  rw [Bool.not_eq_true', ← Bool.not_eq_true]
  simp only [Bool.or_eq_true, decide_eq_true_eq, hids, not_or]
  constructor
  · rintro ⟨⟨⟨⟨hstore, htarget, hboot, hjob⟩, hfile⟩, hzero⟩, hsource⟩
    exact ⟨Ne.symm hstore, Ne.symm htarget, Ne.symm hboot, Ne.symm hjob, by omega, by omega,
      by omega⟩
  · rintro ⟨hstore, htarget, hboot, hjob, hfile, hone, hsource⟩
    exact ⟨⟨⟨⟨hstore.symm, htarget.symm, hboot.symm, hjob.symm⟩, by omega⟩, by omega⟩, by omega⟩

theorem ArtifactBinding.system_ok {f : BindingFields} {b : ArtifactBinding} :
    ArtifactBinding.system f = .ok b ↔ f.Accepted ∧ b.encoded = f.encode := by
  unfold ArtifactBinding.system
  split
  · rename_i hvalid
    rw [Except.ok.injEq, ← BindingFields.valid_iff]
    exact ⟨fun h => ⟨hvalid, h ▸ rfl⟩, fun h => ArtifactBinding.ext h.2.symm⟩
  · rename_i hvalid
    simp [← BindingFields.valid_iff, hvalid]

theorem ArtifactBinding.format_of_encoded {f : BindingFields} {b : ArtifactBinding}
    (h : b.encoded = f.encode) : b.format = f.format := by
  have hbyte : f.encode.getD 80 0 = f.format.byte := by
    have hhead := congrArg List.head? f.drop_format
    rw [List.head?_drop] at hhead
    rw [List.getD_eq_getElem?_getD, hhead]
    rfl
  unfold ArtifactBinding.format
  rw [h, hbyte]
  cases f.format with
  | Tar => rfl
  | Gzip => rfl

theorem BindingFields.encode_injective {f g : BindingFields} (hf : f.Accepted) (hg : g.Accepted)
    (h : f.encode = g.encode) : f = g := by
  obtain ⟨hfile, hsource⟩ := BindingFields.sizes_lt (BindingFields.valid_iff.2 hf)
  obtain ⟨hfile', hsource'⟩ := BindingFields.sizes_lt (BindingFields.valid_iff.2 hg)
  have hpart : ∀ start len, field f.encode start len = field g.encode start len := by simp [h]
  have hstore := hpart 0 16
  have htarget := hpart 16 16
  have hboot := hpart 32 16
  have hjob := hpart 48 16
  have hfiles := hpart 64 8
  have hsources := hpart 72 8
  have hformats := congrArg (List.drop 80) h
  rw [f.field_store, g.field_store] at hstore
  rw [f.field_target, g.field_target] at htarget
  rw [f.field_boot, g.field_boot] at hboot
  rw [f.field_job, g.field_job] at hjob
  rw [f.field_file_bytes, g.field_file_bytes] at hfiles
  rw [f.field_source_bytes, g.field_source_bytes] at hsources
  rw [f.drop_format, g.drop_format] at hformats
  have hfiles : f.file_bytes = g.file_bytes := by
    rw [← from_to_be_bytes hfile, hfiles, from_to_be_bytes hfile']
  have hsources : f.source_bytes = g.source_bytes := by
    rw [← from_to_be_bytes hsource, hsources, from_to_be_bytes hsource']
  have hbytes : f.format.byte = g.format.byte := (List.cons.inj hformats).1
  have hformats : f.format = g.format := by
    have hof := format_of_byte f.format
    rw [hbytes, format_of_byte] at hof
    exact (Except.ok.inj hof).symm
  cases f
  cases g
  simp only [BindingFields.mk.injEq]
  exact ⟨Subtype.ext hstore, Subtype.ext htarget, Subtype.ext hboot, Subtype.ext hjob, hfiles,
    hsources, hformats⟩

/-- What is decoded is the encoding of arguments that are accepted, it is read back to them, and
no other text says the same. -/
theorem a_binding_has_exactly_one_encoding :
    (∀ s, (∃ b, ArtifactBinding.decode s = .ok b) ↔
      ∃ f : BindingFields, f.Accepted ∧ s = f.encode) ∧
    (∀ s b, ArtifactBinding.decode s = .ok b → b.encoded = s) ∧
    (∀ b : ArtifactBinding, ArtifactBinding.decode b.encoded = .ok b) ∧
    (∀ f b, ArtifactBinding.system f = .ok b → b.store = f.store.1 ∧ b.target = f.target.1 ∧
      b.job = f.job.1 ∧ b.file_bytes = f.file_bytes ∧ b.source_bytes = f.source_bytes ∧
        b.format = f.format) ∧
    (∀ f g : BindingFields, f.Accepted → g.Accepted → f.encode = g.encode → f = g) ∧
    (∀ s, s.length ≠ BINDING_BYTES → ArtifactBinding.decode s = .error .Integrity) := by
  refine ⟨fun s => ⟨?_, ?_⟩, fun s b => ArtifactBinding.encoded_decode,
    ArtifactBinding.decode_encoded, fun f b h => ?_, fun f g => BindingFields.encode_injective,
    fun s hlen => if_pos (.inl hlen)⟩
  · rintro ⟨b, h⟩
    obtain ⟨f, hvalid, hencoded⟩ := b.built
    exact ⟨f, BindingFields.valid_iff.1 hvalid, by
      rw [← ArtifactBinding.encoded_decode h, hencoded]⟩
  · rintro ⟨f, hf, rfl⟩
    have hvalid := BindingFields.valid_iff.2 hf
    exact ⟨_, ArtifactBinding.decode_encoded ⟨f.encode, f, hvalid, rfl⟩⟩
  · obtain ⟨hf, hencoded⟩ := ArtifactBinding.system_ok.1 h
    obtain ⟨hfile, hsource⟩ := BindingFields.sizes_lt (BindingFields.valid_iff.2 hf)
    refine ⟨?_, ?_, ?_, ?_, ?_, ArtifactBinding.format_of_encoded hencoded⟩
    · exact (congrArg (List.take 16) hencoded).trans f.field_store
    · exact (congrArg (field · 16 16) hencoded).trans f.field_target
    · exact (congrArg (field · 48 16) hencoded).trans f.field_job
    · rw [ArtifactBinding.file_bytes, hencoded, f.field_file_bytes, from_to_be_bytes hfile]
    · rw [ArtifactBinding.source_bytes, hencoded, f.field_source_bytes, from_to_be_bytes hsource]

/-- The fields of a binding with four different identities. -/
def numbered : BindingFields where
  store := ⟨List.replicate 16 17, rfl⟩
  target := ⟨List.replicate 16 18, rfl⟩
  boot := ⟨List.replicate 16 19, rfl⟩
  job := ⟨List.replicate 16 20, rfl⟩
  file_bytes := 5
  source_bytes := 6
  format := .Gzip

theorem a_binding_is_read_back : ∃ b, ArtifactBinding.system numbered = .ok b ∧
    ArtifactBinding.decode b.encoded = .ok b ∧ b.job = List.replicate 16 20 ∧ b.file_bytes = 5 ∧
      b.format = .Gzip := by
  obtain ⟨-, -, hread, hfields, -⟩ := a_binding_has_exactly_one_encoding
  have hok : ArtifactBinding.system numbered = .ok ⟨numbered.encode, numbered, by decide, rfl⟩ := by
    rfl
  obtain ⟨-, -, hjob, hfile, -, hformat⟩ := hfields _ _ hok
  exact ⟨_, hok, hread _, hjob, hfile, hformat⟩

end openwrt_mcp_runtime.backups
