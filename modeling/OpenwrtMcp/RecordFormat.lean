-- The format of the file of the record store: a header and then whole records. A record says in
-- its own header where it ends, so a file has only one list of records.
import OpenwrtMcp.RecordStore

open big_endian programs slices text openwrt_mcp_runtime.backups

namespace openwrt_mcp_adapters.backups

/-! ## The format of the file -/

/-- A record with sizes that the store takes. -/
structure Record where
  binding : ArtifactBinding
  ciphertext : Bytes
  tag : Tag
  pos : 1 ≤ ciphertext.length
  le : ciphertext.length ≤ MAX_CIPHERTEXT

def Record.encode (r : Record) : Bytes :=
  record_header r.binding r.ciphertext.length ++ r.ciphertext ++ r.tag.1

def encodes (records : List Record) : Bytes := (records.map Record.encode).flatten

/-- The file is a header and whole records of this store, with different jobs. -/
structure Complete (store : Id) (file : Bytes) (records : List Record) : Prop where
  header : ∃ header, header.length = HEADER ∧ file = header ++ encodes records
  store : ∀ r ∈ records, r.binding.store = store.1
  jobs : (records.map fun r => r.binding.job).Nodup
  count : records.length ≤ MAX_RECORDS

theorem length_record_header (binding : ArtifactBinding) (count : Nat) :
    (record_header binding count).length = RECORD_HEADER := by
  unfold record_header
  simp only [List.length_append, length_to_be_bytes, binding.length_encoded]
  rfl

theorem Record.length_encode (r : Record) :
    r.encode.length = r.ciphertext.length + (RECORD_HEADER + TAG) := by
  unfold Record.encode
  rw [List.length_append, List.length_append, length_record_header, r.tag.2]
  omega

theorem Record.count_lt (r : Record) : r.ciphertext.length < 256 ^ 8 := by
  have := r.le
  unfold MAX_CIPHERTEXT at this
  omega

/-- The count in the header of a record. -/
theorem Record.encode_count (r : Record) (rest : Bytes) :
    field (r.encode ++ rest) (8 + BINDING_BYTES) 8 = to_be_bytes 8 r.ciphertext.length := by
  unfold field Record.encode record_header
  simp only [List.append_assoc]
  rw [← List.append_assoc (ascii "OMCPBK01"), List.drop_left' (by
    rw [List.length_append, r.binding.length_encoded]; rfl)]
  rw [List.take_left' (length_to_be_bytes ..)]

/-- A record says in its header where it ends. -/
theorem Record.length_unique {r r' : Record} {x y : Bytes} (h : r.encode ++ x = r'.encode ++ y) :
    r.encode.length = r'.encode.length := by
  have hcount := r.encode_count x
  rw [h, r'.encode_count y] at hcount
  have hlen := congrArg from_be_bytes hcount
  rw [from_to_be_bytes r.count_lt, from_to_be_bytes r'.count_lt] at hlen
  rw [r.length_encode, r'.length_encode, hlen]

theorem Record.encode_injective {r r' : Record} (h : r.encode = r'.encode) : r = r' := by
  have hlen := congrArg List.length h
  rw [r.length_encode, r'.length_encode, Nat.add_right_cancel_iff] at hlen
  unfold Record.encode at h
  obtain ⟨h1, h2⟩ := List.append_inj' h (r.tag.2.trans r'.tag.2.symm)
  obtain ⟨h3, h4⟩ := List.append_inj' h1 hlen
  unfold record_header at h3
  obtain ⟨h5, -⟩ := List.append_inj' h3 (by simp)
  obtain ⟨binding, ciphertext, tag, pos, le⟩ := r
  obtain ⟨binding', ciphertext', tag', pos', le'⟩ := r'
  obtain rfl : binding = binding' := ArtifactBinding.ext (List.append_cancel_left h5)
  obtain rfl : ciphertext = ciphertext' := h4
  obtain rfl : tag = tag' := Subtype.ext h2
  rfl

theorem encodes_injective {records records' : List Record}
    (h : encodes records = encodes records') : records = records' := by
  have hpos : ∀ r : Record, r.encode ≠ [] := by
    intro r hnil
    have := r.length_encode
    rw [hnil, List.length_nil] at this
    unfold TAG at this
    omega
  induction records generalizing records' with
  | nil =>
    cases records' with
    | nil => rfl
    | cons r' records' => exact absurd (List.append_eq_nil_iff.mp h.symm).1 (hpos r')
  | cons r records ih =>
    cases records' with
    | nil => exact absurd (List.append_eq_nil_iff.mp h).1 (hpos r)
    | cons r' records' =>
      have hcons : r.encode ++ encodes records = r'.encode ++ encodes records' := h
      obtain ⟨h1, h2⟩ := List.append_inj hcons (Record.length_unique hcons)
      rw [Record.encode_injective h1, ih h2]

theorem length_encodes_le (records : List Record) :
    (encodes records).length ≤ records.length * (MAX_CIPHERTEXT + (RECORD_HEADER + TAG)) := by
  induction records with
  | nil => simp [encodes]
  | cons r records ih =>
    have hr := r.le
    have hlen := r.length_encode
    have hcons : encodes (r :: records) = r.encode ++ encodes records := rfl
    rw [hcons, List.length_append, List.length_cons, Nat.add_mul]
    omega

/-- A file has only one list of records. -/
theorem Complete.unique {store : Id} {file : Bytes} {records records' : List Record}
    (h : Complete store file records) (h' : Complete store file records') :
    records = records' := by
  obtain ⟨header, hlen, hf⟩ := h.header
  obtain ⟨header', hlen', hf'⟩ := h'.header
  obtain ⟨-, hrest⟩ := List.append_inj (hf.symm.trans hf') (hlen.trans hlen'.symm)
  exact encodes_injective hrest

theorem encodes_append (a b : List Record) : encodes (a ++ b) = encodes a ++ encodes b := by
  simp [encodes]

/-- Whole records do not end in a torn one. -/
theorem encodes_not_torn {records records' : List Record} {r : Record} {tail : Bytes}
    (hne : tail ≠ []) (hpre : tail <+: r.encode) (hlt : tail ≠ r.encode) :
    encodes records ++ tail ≠ encodes records' := by
  induction records generalizing records' with
  | nil =>
    intro h
    cases records' with
    | nil => exact hne h
    | cons r' records' =>
      obtain ⟨rest, hrest⟩ := hpre
      have hsame : r.encode = r'.encode ++ (encodes records' ++ rest) := by
        rw [← hrest, show tail = encodes (r' :: records') from h]
        simp [encodes]
      have hlen := Record.length_unique (r := r) (x := []) ((List.append_nil _).trans hsame)
      rw [hsame, List.length_append] at hlen
      have hnil : rest = [] := by
        rw [← List.length_eq_zero_iff]
        rw [List.length_append] at hlen
        omega
      rw [hnil, List.append_nil] at hrest
      exact hlt hrest
  | cons r0 records ih =>
    intro h
    cases records' with
    | nil => exact hne (List.append_eq_nil_iff.mp h).2
    | cons r' records' =>
      have hcons : r0.encode ++ (encodes records ++ tail) = r'.encode ++ encodes records' := by
        simpa [encodes] using h
      obtain ⟨-, hrest⟩ := List.append_inj hcons (Record.length_unique hcons)
      exact ih hrest

/-- The file is torn: whole records, and then a part of one more. -/
def Torn (store : Id) (file : Bytes) : Prop :=
  ∃ whole records tail r, Complete store whole records ∧ file = whole ++ tail ∧ tail ≠ [] ∧
    tail <+: Record.encode r ∧ tail ≠ r.encode

theorem Torn.not_complete {store : Id} {file : Bytes} (h : Torn store file)
    (records : List Record) : ¬ Complete store file records := by
  obtain ⟨whole, records', tail, r, hwhole, rfl, hne, hpre, hlt⟩ := h
  intro hfile
  obtain ⟨header, hlen, hw⟩ := hwhole.header
  obtain ⟨header', hlen', hf⟩ := hfile.header
  rw [hw, List.append_assoc] at hf
  obtain ⟨-, hrest⟩ := List.append_inj hf (hlen.trans hlen'.symm)
  exact encodes_not_torn hne hpre hlt hrest

end openwrt_mcp_adapters.backups
