-- The scan of the record store, from both sides: it passes only on a header and whole records
-- whose tags were accepted, and when no call of the host fails it passes on every such file.
import OpenwrtMcp.RecordFormat

open big_endian programs slices text openwrt_mcp_runtime.backups

namespace openwrt_mcp_adapters.backups

/-! ## A host that is watched -/

section
variable {σ α ε : Type}

/-- A call that answers leaves the world in `S`, one that fails in `R`. -/
def Kept (S R : σ → Prop) (r : Except ε α × σ) : Prop :=
  match r with
  | (.ok _, world) => S world
  | (.error _, world) => R world

/-- `S` holds of the world as long as no call has failed. What the authenticator does not accept
is no failure of a call. -/
structure Watched (h : Host σ) (S R : σ → Prop) : Prop where
  check : ∀ world, S world → Kept S R (h.check world)
  size : ∀ world, S world → Kept S R (h.size world)
  read_at : ∀ offset len world, S world → Kept S R (h.read_at offset len world)
  append : ∀ size bytes world, S world → Kept S R (h.append size bytes world)
  synchronize : ∀ world, S world → Kept S R (h.synchronize world)
  tag : ∀ purpose parts world, S world → Kept S R (h.tag purpose parts world)
  verify : ∀ purpose parts tag world, S world → S (h.verify purpose parts tag world).2

/-- Every host is watched for nothing. -/
theorem watched_true (h : Host σ) : Watched h (fun _ => True) (fun _ => True) := by
  have hkept : ∀ {ε α : Type} (r : Except ε α × σ), Kept (fun _ => True) (fun _ => True) r := by
    intro ε α r
    obtain ⟨answer, world⟩ := r
    cases answer with
    | ok a => trivial
    | error e => trivial
  exact ⟨fun _ _ => hkept _, fun _ _ => hkept _, fun _ _ _ _ => hkept _, fun _ _ _ _ => hkept _,
    fun _ _ => hkept _, fun _ _ _ _ => hkept _, fun _ _ _ _ _ => trivial⟩

/-- The tag was accepted once. -/
def Verified (h : Host σ) (purpose : MacPurpose) (parts : List Bytes) (tag : Bytes) : Prop :=
  ∃ world, (h.verify purpose parts tag world).1 = .ok ()

/-- The tag is accepted in every world. -/
def Accepted (h : Host σ) (purpose : MacPurpose) (parts : List Bytes) (tag : Bytes) : Prop :=
  ∀ world, (h.verify purpose parts tag world).1 = .ok ()

end

/-! ## A file that can be scanned -/

/-- Which tags are accepted. -/
abbrev Accepts := MacPurpose → List Bytes → Bytes → Prop

/-- The header of a file of this store. -/
structure HeaderOf (V : Accepts) (store : Id) (header : Bytes) : Prop where
  magic : header.take 8 = ascii "OMCPST01"
  store_eq : field header 8 16 = store.1
  version : field header 24 8 = ascii "recd0001"
  nonzero : store ≠ Id.zero
  tag : V .StoreHeader [header.take 32] (header.drop 32)

/-- The tag of the record is accepted. -/
def Record.Tagged (V : Accepts) (r : Record) : Prop :=
  V .ArtifactRecord [record_header r.binding r.ciphertext.length, r.ciphertext] r.tag.1

/-- A file with accepted tags. -/
structure Sound (V : Accepts) (store : Id) (f : Bytes) (records : List Record) : Prop where
  complete : Complete store f records
  header : HeaderOf V store (f.take HEADER)
  tags : ∀ r ∈ records, r.Tagged V

/-- The record at `position`, after records with `jobs`. -/
structure RecordAt (V : Accepts) (store : Id) (f : Bytes) (position : Nat) (jobs : List Bytes)
    (r : Record) : Prop where
  encode : r.encode = field f position r.encode.length
  le : position + r.encode.length ≤ f.length
  same_store : r.binding.store = store.1
  fresh : r.binding.job ∉ jobs
  room : jobs.length < MAX_RECORDS
  tagged : r.Tagged V

section
variable {V : Accepts} {store : Id} {f : Bytes} {position : Nat} {jobs : List Bytes}
  {r r' : Record}

theorem length_field {bytes : Bytes} {start len : Nat} (hle : start + len ≤ bytes.length) :
    (field bytes start len).length = len := by
  unfold field
  rw [List.length_take, List.length_drop]
  omega

theorem RecordAt.split (hr : RecordAt V store f position jobs r) :
    f.drop position = r.encode ++ f.drop (position + r.encode.length) := by
  have hencode := hr.encode
  unfold field at hencode
  rw [← List.drop_drop]
  conv_lhs => rw [← List.take_append_drop r.encode.length (f.drop position), ← hencode]

/-- There is one record at a position. -/
theorem RecordAt.unique {V' : Accepts} {store' : Id} {jobs' : List Bytes}
    (hr : RecordAt V store f position jobs r) (hr' : RecordAt V' store' f position jobs' r') :
    r = r' := by
  have hsame := hr.split.symm.trans hr'.split
  exact Record.encode_injective (List.append_inj hsame (Record.length_unique hsame)).1

/-- The parts of the file that a scan reads for the record. -/
theorem RecordAt.parts (hr : RecordAt V store f position jobs r) :
    field f position RECORD_HEADER = record_header r.binding r.ciphertext.length ∧
    field f (position + RECORD_HEADER) r.ciphertext.length = r.ciphertext ∧
    field f (position + RECORD_HEADER + r.ciphertext.length) TAG = r.tag.1 := by
  have hheader := length_record_header r.binding r.ciphertext.length
  have hfield : ∀ start len, field f (position + start) len =
      field (r.encode ++ f.drop (position + r.encode.length)) start len := by
    intro start len
    rw [← hr.split]
    unfold field
    rw [List.drop_drop]
  have hparts : ∀ rest, r.encode ++ rest =
      record_header r.binding r.ciphertext.length ++ (r.ciphertext ++ (r.tag.1 ++ rest)) := by
    intro rest
    simp only [Record.encode, List.append_assoc]
  refine ⟨?_, ?_, ?_⟩
  · have h0 := hfield 0 RECORD_HEADER
    rw [Nat.add_zero] at h0
    rw [h0, hparts, field_take hheader]
  · rw [hfield, hparts, field_skip hheader, field_take rfl]
  · rw [Nat.add_assoc, hfield, hparts, field_drop hheader, field_skip rfl, field_take r.tag.2]

end

/-! ## Reading -/

section
variable {σ α : Type} {h : Host σ} {S R : σ → Prop} {store : Id} {f : Bytes} {u : Bool}

/-- The file and the flag are these. -/
def Same (f : Bytes) (u : Bool) (st : Store σ) : Prop := st.file = f ∧ st.uncertain = u

def Seen (f : Bytes) (u : Bool) (S : σ → Prop) (st : Store σ) : Prop := Same f u st ∧ S st.world

/-- A call of the host failed, or the reason for the error is `φ`. -/
def Fails (f : Bytes) (u : Bool) (R : σ → Prop) (φ : Prop) (st : Store σ) : Prop :=
  Same f u st ∧ (R st.world ∨ φ)

theorem Fails.mono {φ ψ : Prop} (hφ : φ → ψ) {st : Store σ} (hst : Fails f u R φ st) :
    Fails f u R ψ st := ⟨hst.1, hst.2.imp_right hφ⟩

theorem ask_seen {call : σ → Except BackupError α × σ} {φ : Prop}
    (hcall : ∀ world, S world → Kept S R (call world)) :
    Triple (Seen f u S) (ask call) (fun _ => Seen f u S) (fun _ => Fails f u R φ) := by
  intro st hst
  have hkept := hcall st.world hst.2
  unfold ask
  unfold Kept at hkept
  cases hc : call st.world with
  | mk answer world =>
    rw [hc] at hkept
    cases answer with
    | ok a => exact ⟨hst.1, hkept⟩
    | error e => exact ⟨hst.1, .inl hkept⟩

/-- A tag that is not accepted. -/
theorem verify_seen (hw : Watched h S R) (purpose : MacPurpose) (parts : List Bytes)
    (tag : Bytes) :
    Triple (Seen f u S) (ask (h.verify purpose parts tag))
      (fun _ st => Verified h purpose parts tag ∧ Seen f u S st)
      (fun _ => Fails f u R (¬ Accepted h purpose parts tag)) := by
  intro st hst
  have hworld := hw.verify purpose parts tag st.world hst.2
  unfold ask
  cases hv : h.verify purpose parts tag st.world with
  | mk answer world =>
    rw [hv] at hworld
    cases answer with
    | ok a => exact ⟨⟨st.world, by rw [hv]⟩, hst.1, hworld⟩
    | error e =>
      refine ⟨hst.1, .inr ?_⟩
      intro haccepted
      have := haccepted st.world
      rw [hv] at this
      cases this

theorem size_seen (hw : Watched h S R) {φ : Prop} :
    Triple (Seen f u S) (size h) (fun n st => n = f.length ∧ Seen f u S st)
      (fun _ => Fails f u R φ) := by
  apply Triple.bind (ask_seen hw.size)
  intro _
  apply Triple.get_bind
  intro st hst
  apply Triple.pure
  rintro _ rfl
  exact ⟨by rw [hst.1.1], hst⟩

theorem read_at_seen (hw : Watched h S R) (offset len : Nat) :
    Triple (Seen f u S) (read_at h offset len)
      (fun got st => (got = field f offset len ∧ got.length = len) ∧ Seen f u S st)
      (fun _ => Fails f u R (f.length < offset + len)) := by
  apply Triple.bind (ask_seen (hw.read_at offset len))
  intro _
  apply Triple.get_bind
  intro st hst
  split
  · rename_i hle
    apply Triple.pure
    rintro _ rfl
    exact ⟨⟨by rw [hst.1.1], length_field hle⟩, hst⟩
  · rename_i hlt
    apply Triple.stop
    rintro _ rfl
    refine ⟨hst.1, .inr ?_⟩
    rw [← hst.1.1]
    omega

theorem read_chunks_seen (hw : Watched h S R) (offset : Nat) (cs : List Bytes) :
    Triple (Seen f u S) (read_chunks h offset cs)
      (fun got st => (got = field f offset cs.flatten.length ∧ got.length = cs.flatten.length) ∧
        Seen f u S st)
      (fun _ => Fails f u R (f.length < offset + cs.flatten.length)) := by
  induction cs generalizing offset with
  | nil =>
    apply Triple.pure
    exact fun st hst => ⟨⟨by simp [field], rfl⟩, hst⟩
  | cons c cs ih =>
    have hlength : (c :: cs).flatten.length = c.length + cs.flatten.length := by simp
    apply Triple.bind (ask_seen hw.check)
    intro _
    apply Triple.bind ((read_at_seen hw offset c.length).conseq (fun _ h => h) (fun _ _ h => h)
      fun _ _ h => h.mono (by omega))
    intro got
    apply Triple.of_and
    rintro ⟨hgot, hlen⟩
    apply Triple.bind (ask_seen hw.check)
    intro _
    apply Triple.bind ((ih (offset + c.length)).conseq (fun _ h => h) (fun _ _ h => h)
      fun _ _ h => h.mono (by omega))
    intro more
    apply Triple.of_and
    rintro ⟨hmore, hlen'⟩
    apply Triple.pure
    intro st hst
    refine ⟨⟨?_, ?_⟩, hst⟩
    · rw [hgot, hmore, field_append, hlength]
    · rw [hlength, List.length_append, hlen, hlen']

theorem read_seen (hw : Watched h S R) (offset len : Nat) :
    Triple (Seen f u S) (read h offset len)
      (fun got st => (got = field f offset len ∧ got.length = len) ∧ Seen f u S st)
      (fun _ => Fails f u R (f.length < offset + len)) := by
  have hflat : (chunks CHUNK (List.replicate len (0 : UInt8))).flatten.length = len := by
    rw [chunks_flatten (by decide), List.length_replicate]
  have hspec := read_chunks_seen (f := f) (u := u) hw offset
    (chunks CHUNK (List.replicate len 0))
  rw [hflat] at hspec
  exact hspec

/-! ## One record -/

/-- The parts that a scan reads make up a record. -/
theorem record_of_parts {position count : Nat} {binding : ArtifactBinding} {jobs : List Bytes}
    {V : Accepts}
    (hmagic : (field f position RECORD_HEADER).take 8 = ascii "OMCPBK01")
    (hbinding : ArtifactBinding.decode (field (field f position RECORD_HEADER) 8 BINDING_BYTES) =
      .ok binding)
    (hcount : from_be_bytes ((field f position RECORD_HEADER).drop (8 + BINDING_BYTES)) = count)
    (hle : position + (count + (RECORD_HEADER + TAG)) ≤ f.length) (hpos : 1 ≤ count)
    (hmax : count ≤ MAX_CIPHERTEXT) (hstore : binding.store = store.1)
    (hfresh : binding.job ∉ jobs) (hroom : jobs.length < MAX_RECORDS)
    (htag : V .ArtifactRecord
      [field f position RECORD_HEADER, field f (position + RECORD_HEADER) count]
      (field f (position + RECORD_HEADER + count) TAG)) :
    ∃ r : Record, r.binding = binding ∧ r.ciphertext = field f (position + RECORD_HEADER) count ∧
      RecordAt V store f position jobs r := by
  have hlen : (field f position RECORD_HEADER).length = RECORD_HEADER := length_field (by omega)
  have hct : (field f (position + RECORD_HEADER) count).length = count := length_field (by omega)
  have htaglen : (field f (position + RECORD_HEADER + count) TAG).length = TAG :=
    length_field (by omega)
  have hheader : record_header binding count = field f position RECORD_HEADER := by
    have hbytes := to_from_be_bytes ((field f position RECORD_HEADER).drop (8 + BINDING_BYTES))
    rw [List.length_drop, hlen, hcount] at hbytes
    have hwidth : RECORD_HEADER - (8 + BINDING_BYTES) = 8 := rfl
    rw [hwidth] at hbytes
    unfold record_header
    rw [ArtifactBinding.encoded_decode hbinding, hbytes, ← hmagic]
    unfold field
    rw [List.append_assoc, ← List.drop_drop, List.take_append_drop, List.take_append_drop]
  let r : Record := ⟨binding, field f (position + RECORD_HEADER) count, ⟨_, htaglen⟩,
    by rwa [hct], by rwa [hct]⟩
  have hencode : r.encode = field f position (count + (RECORD_HEADER + TAG)) := by
    show record_header binding (field f (position + RECORD_HEADER) count).length ++
      field f (position + RECORD_HEADER) count ++ field f (position + RECORD_HEADER + count) TAG = _
    rw [hct, hheader, field_append, Nat.add_assoc, field_append]
    congr 1
    omega
  have hencode_len : r.encode.length = count + (RECORD_HEADER + TAG) := by
    rw [hencode, length_field (by omega)]
  refine ⟨r, rfl, rfl, ?_, ?_, hstore, hfresh, hroom, ?_⟩
  · rw [hencode_len, hencode]
  · rw [hencode_len]
    exact hle
  · show V _ [record_header binding (field f (position + RECORD_HEADER) count).length, _] _
    rw [hct, hheader]
    exact htag

/-- What the header of a record says of it. -/
theorem record_header_fields (binding : ArtifactBinding) {count : Nat} (hcount : count < 256 ^ 8) :
    (record_header binding count).take 8 = ascii "OMCPBK01" ∧
    field (record_header binding count) 8 BINDING_BYTES = binding.encoded ∧
    from_be_bytes ((record_header binding count).drop (8 + BINDING_BYTES)) = count := by
  have hmagic : (ascii "OMCPBK01").length = 8 := rfl
  have hfront : (ascii "OMCPBK01" ++ binding.encoded).length = 8 + BINDING_BYTES := by
    rw [List.length_append, binding.length_encoded, hmagic]
  unfold record_header
  refine ⟨?_, ?_, ?_⟩
  · rw [List.append_assoc, List.take_left' hmagic]
  · rw [List.append_assoc, field_skip hmagic, field_take binding.length_encoded]
  · rw [List.drop_left' hfront, from_to_be_bytes hcount]

theorem scan_record_seen (hw : Watched h S R) (position : Nat) (jobs : List Bytes) :
    Triple (Seen f u S) (scan_record h store f.length position jobs)
      (fun v st => (∃ r : Record, r.binding = v.1 ∧ r.ciphertext = v.2 ∧
        RecordAt (Verified h) store f position jobs r) ∧ Seen f u S st)
      (fun _ => Fails f u R (¬ ∃ r, RecordAt (Accepted h) store f position jobs r)) := by
  -- a test that does not pass is against every record
  have hstop : ∀ {e : BackupError} {Q : ArtifactBinding × Bytes → Store σ → Prop},
      (¬ ∃ r, RecordAt (Accepted h) store f position jobs r) →
      Triple (Seen f u S) (Prog.stop e : Act σ (ArtifactBinding × Bytes)) Q
        (fun _ => Fails f u R (¬ ∃ r, RecordAt (Accepted h) store f position jobs r)) :=
    fun hno => Triple.stop fun st hst => ⟨hst.1, .inr hno⟩
  unfold scan_record
  split
  · rename_i hroom
    apply hstop
    rintro ⟨r, hr⟩
    have := hr.le
    have := hr.room
    rw [r.length_encode] at *
    omega
  rename_i hroom
  simp only [not_or, Nat.not_lt, not_le] at hroom
  have hshort : f.length < position + RECORD_HEADER →
      ¬ ∃ r, RecordAt (Accepted h) store f position jobs r := by
    rintro hlt ⟨r, hr⟩
    have hle := hr.le
    rw [r.length_encode] at hle
    omega
  apply Triple.bind ((read_seen hw position RECORD_HEADER).conseq (fun _ h => h)
    (fun _ _ h => h) fun _ _ h => h.mono hshort)
  intro header
  apply Triple.of_and
  rintro ⟨rfl, -⟩
  split
  · rename_i hmagic
    apply hstop
    rintro ⟨r, hr⟩
    rw [hr.parts.1] at hmagic
    exact hmagic (record_header_fields r.binding r.count_lt).1
  rename_i hmagic
  split
  · rename_i error hbinding
    apply hstop
    rintro ⟨r, hr⟩
    rw [hr.parts.1, (record_header_fields r.binding r.count_lt).2.1,
      ArtifactBinding.decode_encoded] at hbinding
    cases hbinding
  rename_i binding hbinding
  simp only
  split
  · rename_i htests
    apply hstop
    rintro ⟨r, hr⟩
    rw [hr.parts.1, (record_header_fields r.binding r.count_lt).2.1,
      ArtifactBinding.decode_encoded] at hbinding
    cases hbinding
    rw [hr.parts.1, (record_header_fields r.binding r.count_lt).2.2] at htests
    have hle := hr.le
    rw [r.length_encode] at hle
    rcases htests with hstore | hjob | hcount | hend
    · exact hstore hr.same_store
    · exact hr.fresh hjob
    · exact hcount ⟨r.pos, r.le⟩
    · omega
  rename_i htests
  simp only [not_or, not_not, Nat.not_lt] at htests hmagic
  obtain ⟨hstore, hjob, ⟨hpos, hmax⟩, hle⟩ := htests
  apply Triple.bind ((read_seen hw _ _).conseq (fun _ h => h) (fun _ _ h => h)
    fun _ _ h => h.mono fun hlt => by omega)
  intro ciphertext
  apply Triple.of_and
  rintro ⟨rfl, -⟩
  apply Triple.bind ((read_seen hw _ _).conseq (fun _ h => h) (fun _ _ h => h)
    fun _ _ h => h.mono fun hlt => by omega)
  intro tag
  apply Triple.of_and
  rintro ⟨rfl, -⟩
  apply Triple.bind ((verify_seen hw _ _ _).conseq (fun _ h => h) (fun _ _ h => h) ?_)
  · intro _
    apply Triple.of_and
    intro hverified
    apply Triple.bind (ask_seen hw.check)
    intro _
    apply Triple.pure
    intro st hst
    obtain ⟨r, hr1, hr2, hr3⟩ := record_of_parts hmagic hbinding rfl (by omega)
      hpos hmax hstore hjob hroom.1 hverified
    exact ⟨⟨r, hr1, hr2, hr3⟩, hst⟩
  · refine fun _ st hst => hst.mono ?_
    rintro hno ⟨r, hr⟩
    apply hno
    have hcount := (record_header_fields r.binding r.count_lt).2.2
    rw [hr.parts.1, hcount, hr.parts.2.1, hr.parts.2.2]
    exact hr.tagged

/-! ## All records -/

/-- The matches over the records of a scan. -/
def matches_of (expected : Option ArtifactBinding) (matched : Option Bytes)
    (records : List Record) : Except BackupError (Option Bytes) :=
  records.foldlM (fun m r => next_match expected r.binding r.ciphertext m) matched

theorem matches_of_cons {expected : Option ArtifactBinding} {matched m : Option Bytes}
    {r : Record} {records : List Record} :
    matches_of expected matched (r :: records) = .ok m ↔ ∃ matched',
      next_match expected r.binding r.ciphertext matched = .ok matched' ∧
        matches_of expected matched' records = .ok m := by
  unfold matches_of
  rw [List.foldlM_cons, except_bind_ok]

/-- The records from `position` to the end of the file. -/
structure Scanned (V : Accepts) (store : Id) (expected : Option ArtifactBinding) (f : Bytes)
    (position : Nat) (jobs : List Bytes) (matched : Option Bytes) (v : Nat × Option Bytes)
    (records : List Record) : Prop where
  rest : f.drop position = encodes records
  same_store : ∀ r ∈ records, r.binding.store = store.1
  distinct : (records.map fun r => r.binding.job).Nodup
  fresh : ∀ r ∈ records, r.binding.job ∉ jobs
  count : v.1 = jobs.length + records.length
  count_le : records ≠ [] → v.1 ≤ MAX_RECORDS
  matched_eq : matches_of expected matched records = .ok v.2
  tags : ∀ r ∈ records, r.Tagged V

section
variable {V : Accepts} {expected : Option ArtifactBinding} {position : Nat} {jobs : List Bytes}
  {matched matched' : Option Bytes} {v : Nat × Option Bytes} {r : Record} {records : List Record}

theorem Scanned.nil (hend : f.length ≤ position) :
    Scanned V store expected f position jobs matched (jobs.length, matched) [] where
  rest := List.drop_of_length_le hend
  same_store := by simp
  distinct := by simp
  fresh := by simp
  count := rfl
  count_le := fun hne => absurd rfl hne
  matched_eq := rfl
  tags := by simp

theorem Scanned.cons (hr : RecordAt V store f position jobs r)
    (hmatch : next_match expected r.binding r.ciphertext matched = .ok matched')
    (hs : Scanned V store expected f (position + r.encode.length) (r.binding.job :: jobs) matched'
      v records) : Scanned V store expected f position jobs matched v (r :: records) where
  rest := by
    rw [hr.split, hs.rest]
    rfl
  same_store := List.forall_mem_cons.mpr ⟨hr.same_store, hs.same_store⟩
  distinct := by
    rw [List.map_cons, List.nodup_cons]
    refine ⟨?_, hs.distinct⟩
    intro hmem
    obtain ⟨r', hr', he⟩ := List.mem_map.mp hmem
    exact hs.fresh r' hr' (by rw [he]; exact List.mem_cons_self ..)
  fresh := by
    rw [List.forall_mem_cons]
    exact ⟨hr.fresh, fun r' hr' hm => hs.fresh r' hr' (List.mem_cons_of_mem _ hm)⟩
  count := by
    rw [hs.count, List.length_cons, List.length_cons]
    omega
  count_le := by
    intro _
    by_cases hnil : records = []
    · have := hr.room
      rw [hs.count, hnil, List.length_cons, List.length_nil]
      omega
    · exact hs.count_le hnil
  matched_eq := matches_of_cons.mpr ⟨matched', hmatch, hs.matched_eq⟩
  tags := List.forall_mem_cons.mpr ⟨hr.tagged, hs.tags⟩

theorem length_encode_pos (r : Record) : 0 < r.encode.length := by
  rw [r.length_encode]
  have := r.pos
  omega

/-- Before the end of the file there is a first record. -/
theorem Scanned.uncons (hs : Scanned V store expected f position jobs matched v records)
    (hlt : position < f.length) : ∃ r records' matched', records = r :: records' ∧
      RecordAt V store f position jobs r ∧
      next_match expected r.binding r.ciphertext matched = .ok matched' ∧
      Scanned V store expected f (position + r.encode.length) (r.binding.job :: jobs) matched' v
        records' := by
  have hlength : (encodes records).length = f.length - position := by
    rw [← hs.rest, List.length_drop]
  cases records with
  | nil =>
    simp [encodes] at hlength
    omega
  | cons r records' =>
    have hrest : f.drop position = r.encode ++ encodes records' := hs.rest
    have hsum : r.encode.length + (encodes records').length = f.length - position := by
      rw [← List.length_append]
      exact hlength
    have hcount := hs.count
    have hle := hs.count_le (by simp)
    rw [List.length_cons] at hcount
    obtain ⟨hjob, hdistinct⟩ := List.nodup_cons.mp hs.distinct
    obtain ⟨matched', hmatch, hmatches⟩ := matches_of_cons.mp hs.matched_eq
    refine ⟨r, records', matched', rfl, ⟨?_, by omega, hs.same_store r (by simp),
      hs.fresh r (by simp), by omega, hs.tags r (by simp)⟩, hmatch, ⟨?_, ?_, hdistinct, ?_, ?_,
      fun _ => hle, hmatches, ?_⟩⟩
    · unfold field
      rw [hrest, List.take_left' rfl]
    · rw [← List.drop_drop, hrest, List.drop_left' rfl]
    · exact fun r' hr' => hs.same_store r' (by simp [hr'])
    · intro r' hr' hmem
      rcases List.mem_cons.mp hmem with hsame | hold
      · exact hjob (List.mem_map.mpr ⟨r', hr', hsame⟩)
      · exact hs.fresh r' (by simp [hr']) hold
    · rw [hcount, List.length_cons]
      omega
    · exact fun r' hr' => hs.tags r' (by simp [hr'])

end

theorem scan_records_seen (hw : Watched h S R) (expected : Option ArtifactBinding)
    (turns position : Nat) (jobs : List Bytes) (matched : Option Bytes)
    (hturns : MAX_RECORDS < jobs.length + turns) :
    Triple (Seen f u S) (scan_records h store expected f.length turns position jobs matched)
      (fun v st => (∃ records, Scanned (Verified h) store expected f position jobs matched v
        records) ∧ Seen f u S st)
      (fun _ => Fails f u R (¬ ∃ v records, Scanned (Accepted h) store expected f position jobs
        matched v records)) := by
  induction turns generalizing position jobs matched with
  | zero =>
    unfold scan_records
    split
    · rename_i hlt
      apply Triple.stop
      refine fun st hst => ⟨hst.1, .inr ?_⟩
      rintro ⟨v, records, hs⟩
      obtain ⟨r, -, -, -, hr, -⟩ := hs.uncons hlt
      have := hr.room
      omega
    · rename_i hend
      apply Triple.pure
      exact fun st hst => ⟨⟨[], Scanned.nil (by omega)⟩, hst⟩
  | succ turns ih =>
    unfold scan_records
    split
    · rename_i hlt
      apply Triple.bind ((scan_record_seen hw position jobs).conseq (fun _ h => h)
        (fun _ _ h => h) ?_)
      · rintro ⟨binding, ciphertext⟩
        apply Triple.of_and
        rintro ⟨r, rfl, rfl, hr⟩
        simp only
        split
        · rename_i error hmatch
          apply Triple.stop
          refine fun st hst => ⟨hst.1, .inr ?_⟩
          rintro ⟨v, records, hs⟩
          obtain ⟨r', -, matched', -, hr', hmatch', -⟩ := hs.uncons hlt
          obtain rfl := hr.unique hr'
          rw [hmatch] at hmatch'
          cases hmatch'
        rename_i matched' hmatch
        have hnext : position + (RECORD_HEADER + TAG) + r.ciphertext.length =
            position + r.encode.length := by
          rw [r.length_encode]
          omega
        rw [hnext]
        refine (ih _ (r.binding.job :: jobs) matched' (by simp; omega)).conseq (fun _ h => h) ?_ ?_
        · rintro v st ⟨⟨records, hs⟩, hst⟩
          exact ⟨⟨r :: records, hs.cons hr hmatch⟩, hst⟩
        · refine fun _ st hst => hst.mono ?_
          rintro hno ⟨v, records, hs⟩
          obtain ⟨r', records', matched'', -, hr', hmatch', hs'⟩ := hs.uncons hlt
          obtain rfl := hr.unique hr'
          rw [hmatch] at hmatch'
          cases hmatch'
          exact hno ⟨v, records', hs'⟩
      · refine fun _ st hst => hst.mono ?_
        rintro hno ⟨v, records, hs⟩
        obtain ⟨r, -, -, -, hr, -⟩ := hs.uncons hlt
        exact hno ⟨r, hr⟩
    · rename_i hend
      apply Triple.pure
      exact fun st hst => ⟨⟨[], Scanned.nil (by omega)⟩, hst⟩

/-! ## The scan -/

theorem scan_header_seen (hw : Watched h S R) :
    Triple (Seen f u S) (scan_header h store)
      (fun _ st => HeaderOf (Verified h) store (f.take HEADER) ∧ Seen f u S st)
      (fun _ => Fails f u R (¬ (HEADER ≤ f.length ∧
        HeaderOf (Accepted h) store (f.take HEADER)))) := by
  have hfield : field f 0 HEADER = f.take HEADER := by simp [field]
  apply Triple.bind ((read_seen hw 0 HEADER).conseq (fun _ h => h) (fun _ _ h => h)
    fun _ _ h => h.mono (by omega))
  intro header
  rw [hfield]
  apply Triple.of_and
  rintro ⟨rfl, -⟩
  split
  · rename_i htests
    apply Triple.stop
    refine fun st hst => ⟨hst.1, .inr ?_⟩
    rintro ⟨-, hheader⟩
    rcases htests with hmagic | hstore | hversion | hzero
    · exact hmagic hheader.magic
    · exact hstore hheader.store_eq
    · exact hversion hheader.version
    · exact hheader.nonzero hzero
  · rename_i htests
    simp only [not_or, not_not] at htests
    obtain ⟨hmagic, hstore, hversion, hzero⟩ := htests
    apply Triple.bind ((verify_seen hw _ _ _).conseq (fun _ h => h) (fun _ _ h => h)
      fun _ _ h => h.mono fun hno hheader => hno hheader.2.tag)
    intro _
    apply Triple.of_and
    intro hverified
    refine (ask_seen hw.check).conseq (fun _ h => h) ?_ (fun _ _ h => h)
    exact fun _ st hst => ⟨⟨hmagic, hstore, hversion, hzero, hverified⟩, hst⟩

/-- The files on which a scan for `expected` passes. -/
def Scans (V : Accepts) (store : Id) (expected : Option ArtifactBinding) (f : Bytes)
    (records : List Record) (matched : Option Bytes) : Prop :=
  Sound V store f records ∧ matches_of expected none records = .ok matched ∧
    ∀ b ∈ expected, b.store = store.1

theorem Complete.header_le {f : Bytes} {records : List Record}
    (hc : Complete store f records) : HEADER ≤ f.length := by
  obtain ⟨header, hlen, rfl⟩ := hc.header
  rw [List.length_append]
  omega

theorem Complete.length_le {f : Bytes} {records : List Record}
    (hc : Complete store f records) : f.length ≤ MAX_STORE_BYTES := by
  obtain ⟨header, hlen, rfl⟩ := hc.header
  have hrecords := length_encodes_le records
  have hcount := hc.count
  rw [List.length_append, hlen]
  unfold MAX_RECORDS MAX_STORE_BYTES MAX_CIPHERTEXT HEADER RECORD_HEADER BINDING_BYTES TAG at *
  omega

theorem Scans.scanned {V : Accepts} {expected : Option ArtifactBinding} {records : List Record}
    {matched : Option Bytes} (hs : Scans V store expected f records matched) :
    Scanned V store expected f HEADER [] none (records.length, matched) records where
  rest := by
    obtain ⟨header, hlen, hf⟩ := hs.1.complete.header
    rw [hf, List.drop_left' hlen]
  same_store := hs.1.complete.store
  distinct := hs.1.complete.jobs
  fresh := by simp
  count := by simp
  count_le := fun _ => hs.1.complete.count
  matched_eq := hs.2.1
  tags := hs.1.tags

/-- A scan leaves the file as it is. It passes only on a file with accepted tags, and when no call
fails it passes on every one. -/
theorem scan_seen (hw : Watched h S R) (expected : Option ArtifactBinding) :
    Triple (Seen f u S) (scan h store expected)
      (fun v st => (∃ records, Scans (Verified h) store expected f records v.matched ∧
        v.size = f.length ∧ v.count = records.length) ∧ Seen f u S st)
      (fun _ => Fails f u R (¬ ∃ records matched,
        Scans (Accepted h) store expected f records matched)) := by
  unfold scan
  apply Triple.bind (ask_seen hw.check)
  intro _
  apply Triple.bind (size_seen hw)
  intro size
  apply Triple.of_and
  rintro rfl
  split
  · rename_i hsize
    apply Triple.stop
    refine fun st hst => ⟨hst.1, .inr ?_⟩
    rintro ⟨records, matched, hs⟩
    exact hsize ⟨hs.1.complete.header_le, hs.1.complete.length_le⟩
  rename_i hsize
  simp only [not_not] at hsize
  split
  · rename_i hstore
    apply Triple.stop
    refine fun st hst => ⟨hst.1, .inr ?_⟩
    rintro ⟨records, matched, hs⟩
    cases expected with
    | none => cases hstore
    | some b => simp [hs.2.2 b rfl] at hstore
  rename_i hstore
  apply Triple.bind ((scan_header_seen hw).conseq (fun _ h => h) (fun _ _ h => h)
    fun _ _ h => h.mono ?_)
  · intro _
    apply Triple.of_and
    intro hheader
    apply Triple.bind ((scan_records_seen hw expected _ HEADER [] none (by simp)).conseq
      (fun _ h => h) (fun _ _ h => h) fun _ _ h => h.mono ?_)
    · rintro ⟨count, matched⟩
      apply Triple.of_and
      rintro ⟨records, hs⟩
      apply Triple.bind (size_seen hw)
      intro again
      apply Triple.of_and
      rintro rfl
      rw [if_neg (by simp)]
      apply Triple.bind (ask_seen hw.check)
      intro _
      apply Triple.pure
      intro st hst
      have hcount : count = records.length := by simpa using hs.count
      have hmax : records.length ≤ MAX_RECORDS := by
        by_cases hnil : records = []
        · rw [hnil]
          exact Nat.zero_le _
        · rw [← hcount]
          exact hs.count_le hnil
      refine ⟨⟨records, ⟨⟨⟨⟨f.take HEADER, ?_, ?_⟩, hs.same_store, hs.distinct, hmax⟩, hheader,
        hs.tags⟩, hs.matched_eq, ?_⟩, rfl, hcount⟩, hst⟩
      · rw [List.length_take]
        omega
      · rw [← hs.rest, List.take_append_drop]
      · rintro b ⟨⟩
        simpa using hstore
    · rintro hno ⟨records, matched, hs⟩
      exact hno ⟨_, records, hs.scanned⟩
  · rintro hno ⟨records, matched, hs⟩
    exact hno ⟨hsize.1, hs.1.header⟩

/-- The scan of a host that is not watched. -/
theorem scan_spec (expected : Option ArtifactBinding) :
    Triple (Same f u) (scan h store expected)
      (fun v st => (∃ records, Scans (Verified h) store expected f records v.matched ∧
        v.size = f.length ∧ v.count = records.length) ∧ Same f u st)
      (fun _ => Same f u) :=
  (scan_seen (watched_true h) expected).conseq (fun _ hst => ⟨hst, trivial⟩)
    (fun _ _ hst => ⟨hst.1, hst.2.1⟩) fun _ _ hst => hst.1

/-- With no match, no record has the job of the binding. -/
theorem no_job_of_no_match {binding : ArtifactBinding} {records : List Record}
    {matched : Option Bytes} (hm : matches_of (some binding) matched records = .ok none) :
    matched = none ∧ ∀ r ∈ records, binding.job ≠ r.binding.job := by
  induction records generalizing matched with
  | nil =>
    cases hm
    exact ⟨rfl, by simp⟩
  | cons r records ih =>
    obtain ⟨m, hm1, hm2⟩ := matches_of_cons.mp hm
    obtain ⟨rfl, hrest⟩ := ih hm2
    unfold next_match at hm1
    simp only at hm1
    split at hm1
    · split at hm1
      · cases hm1
      · cases hm1
    · rename_i hjob
      cases hm1
      exact ⟨rfl, List.forall_mem_cons.mpr ⟨hjob, hrest⟩⟩

/-- With a new job, there is no match. -/
theorem matches_of_fresh {binding : ArtifactBinding} {records : List Record}
    (matched : Option Bytes) (hjobs : ∀ r ∈ records, binding.job ≠ r.binding.job) :
    matches_of (some binding) matched records = .ok matched := by
  induction records with
  | nil => rfl
  | cons r records ih =>
    obtain ⟨hjob, hrest⟩ := List.forall_mem_cons.mp hjobs
    rw [matches_of_cons]
    exact ⟨matched, by simp [next_match, hjob], ih hrest⟩

end

end openwrt_mcp_adapters.backups
