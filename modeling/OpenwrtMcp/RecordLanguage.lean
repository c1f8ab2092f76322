-- The files that a scan of the record store accepts: when no call of the host fails, these are
-- the files of one format and no others. A file that is cut inside of a record is not one of them.
import OpenwrtMcp.RecordRetrieval

open big_endian programs text openwrt_mcp_runtime.backups

namespace openwrt_mcp_adapters.backups

/-- The host answers every call, and accepts the tags of `V`. The scan does not write. -/
structure FaithfulIo {σ : Type} (h : Host σ) (V : Accepts) : Prop where
  check : ∀ world, (h.check world).1 = .ok ()
  size : ∀ world, (h.size world).1 = .ok ()
  read_at : ∀ offset len world, (h.read_at offset len world).1 = .ok ()
  verify : ∀ purpose parts tag world, (h.verify purpose parts tag world).1 = .ok () ↔
    V purpose parts tag

/-- The format of a file that is scanned for `expected`: a header of 64 bytes and then the
records, up to the end. -/
structure FileOf (V : Accepts) (store : Id) (expected : Option ArtifactBinding) (f : Bytes)
    (records : List Record) : Prop where
  nonzero : store ≠ Id.zero
  size : HEADER ≤ f.length ∧ f.length ≤ MAX_STORE_BYTES
  layout : ∃ tag : Tag,
    f = ascii "OMCPST01" ++ store.1 ++ ascii "recd0001" ++ tag.1 ++ encodes records ∧
    V .StoreHeader [ascii "OMCPST01" ++ store.1 ++ ascii "recd0001"] tag.1
  count : records.length ≤ MAX_RECORDS
  bindings : ∀ r ∈ records, ArtifactBinding.decode r.binding.encoded = .ok r.binding ∧
    r.binding.store = store.1
  tags : ∀ r ∈ records, r.Tagged V
  jobs : (records.map fun r => r.binding.job).Nodup
  expected_fits : ∀ b ∈ expected, b.store = store.1 ∧
    ∀ r ∈ records, r.binding.job = b.job → r.binding = b

/-- What a scan for `expected` finds: the ciphertext of the only record with this binding, or
nothing when no record has its job. -/
def Matched (expected : Option ArtifactBinding) (records : List Record) : Option Bytes → Prop
  | some ciphertext => ∃ r ∈ records, expected = some r.binding ∧ r.ciphertext = ciphertext ∧
      ∀ r' ∈ records, r'.binding = r.binding → r' = r
  | none => ∀ b ∈ expected, ∀ r ∈ records, r.binding.job ≠ b.job

section
variable {σ : Type} {h : Host σ} {V : Accepts} {store : Id} {expected : Option ArtifactBinding}
  {f : Bytes} {records : List Record} {matched : Option Bytes}

/-! ## The match -/

/-- A scan that passes has seen no other binding with the job. -/
theorem binding_of_matches_of {binding : ArtifactBinding} {start : Option Bytes}
    (hm : matches_of (some binding) start records = .ok matched) :
    ∀ r ∈ records, r.binding.job = binding.job → r.binding = binding := by
  induction records generalizing start with
  | nil => simp
  | cons first records ih =>
    obtain ⟨m, hfirst, hrest⟩ := matches_of_cons.mp hm
    rw [List.forall_mem_cons]
    refine ⟨?_, ih hrest⟩
    intro hjob
    unfold next_match at hfirst
    simp only [hjob] at hfirst
    by_cases hne : binding = first.binding
    · exact hne.symm
    · simp [hne] at hfirst

theorem same_record_of_job {r r' : Record} (hjobs : (records.map fun r => r.binding.job).Nodup)
    (hr : r ∈ records) (hr' : r' ∈ records) (hjob : r'.binding.job = r.binding.job) : r' = r :=
  List.inj_on_of_nodup_map hjobs hr' hr hjob

theorem matches_of_iff (hjobs : (records.map fun r => r.binding.job).Nodup) :
    matches_of expected none records = .ok matched ↔
      (∀ b ∈ expected, ∀ r ∈ records, r.binding.job = b.job → r.binding = b) ∧
        Matched expected records matched := by
  cases expected with
  | none =>
    have hnone : matches_of none none records = .ok none := by
      clear hjobs
      induction records with
      | nil => rfl
      | cons r records ih => exact matches_of_cons.mpr ⟨none, rfl, ih⟩
    rw [hnone]
    cases matched with
    | none => simp [Matched]
    | some c => simp [Matched]
  | some b =>
    by_cases hex : ∃ r ∈ records, r.binding.job = b.job
    · obtain ⟨r, hr, hjob⟩ := hex
      constructor
      · intro hm
        have hall := binding_of_matches_of hm
        obtain rfl := hall r hr hjob
        have hsome := matches_of_mem hjobs hr none
        rw [hm] at hsome
        cases hsome
        refine ⟨by simpa using hall, r, hr, rfl, rfl, ?_⟩
        intro r' hr' hsame
        exact same_record_of_job hjobs hr hr' (by rw [hsame])
      · rintro ⟨hall, hmatched⟩
        obtain rfl := hall b rfl r hr hjob
        have hsome := matches_of_mem hjobs hr none
        cases matched with
        | none => exact absurd rfl (hmatched r.binding rfl r hr)
        | some c =>
          obtain ⟨r', hr', hb, rfl, -⟩ := hmatched
          obtain rfl := same_record_of_job hjobs hr' hr (by rw [Option.some.inj hb])
          exact hsome
    · have hfresh : ∀ r ∈ records, b.job ≠ r.binding.job :=
        fun r hr hjob => hex ⟨r, hr, hjob.symm⟩
      have hnone := matches_of_fresh none hfresh
      rw [hnone]
      constructor
      · intro hm
        cases hm
        refine ⟨?_, ?_⟩
        · intro b' hb' r hr hjob
          cases hb'
          exact absurd hjob.symm (hfresh r hr)
        · intro b' hb' r hr hjob
          cases hb'
          exact hfresh r hr hjob.symm
      · rintro ⟨-, hmatched⟩
        cases matched with
        | none => rfl
        | some c =>
          obtain ⟨r, hr, hb, -, -⟩ := hmatched
          exact absurd (by rw [Option.some.inj hb]) (hfresh r hr)

/-! ## The format -/

theorem Scans.layout (hs : Sound V store f records) : ∃ tag : Tag,
    f = ascii "OMCPST01" ++ store.1 ++ ascii "recd0001" ++ tag.1 ++ encodes records ∧
    V .StoreHeader [ascii "OMCPST01" ++ store.1 ++ ascii "recd0001"] tag.1 := by
  obtain ⟨header, hlen, rfl⟩ := hs.complete.header
  have hheader := hs.header
  rw [List.take_left' hlen] at hheader
  have hfront : header.take 32 = ascii "OMCPST01" ++ store.1 ++ ascii "recd0001" := by
    have h8 : header.take 32 = header.take 8 ++ (field header 8 16 ++ field header 24 8) := by
      rw [field_append header 8 16 8]
      unfold field
      rw [← List.take_add]
    rw [h8, hheader.magic, hheader.store_eq, hheader.version, List.append_assoc]
  have htag : (header.drop 32).length = TAG := by
    rw [List.length_drop, hlen]
    rfl
  refine ⟨⟨header.drop 32, htag⟩, ?_, ?_⟩
  · rw [← hfront, List.take_append_drop]
  · rw [← hfront]
    exact hheader.tag

theorem FileOf.sound (hf : FileOf V store expected f records) : Sound V store f records := by
  obtain ⟨tag, rfl, htag⟩ := hf.layout
  have hfront : (ascii "OMCPST01" ++ store.1 ++ ascii "recd0001").length = 32 := by
    simp only [List.length_append, store.2]
    decide
  have hlen : (ascii "OMCPST01" ++ store.1 ++ ascii "recd0001" ++ tag.1).length = HEADER := by
    rw [List.length_append, hfront, tag.2]
    rfl
  refine ⟨⟨⟨_, hlen, rfl⟩, fun r hr => (hf.bindings r hr).2, hf.jobs, hf.count⟩, ?_, hf.tags⟩
  rw [List.take_left' hlen]
  have hmagic : (ascii "OMCPST01").length = 8 := by decide
  refine ⟨?_, ?_, ?_, hf.nonzero, ?_⟩
  · rw [List.append_assoc, List.append_assoc, List.take_left' hmagic]
  · simp only [List.append_assoc]
    rw [field_skip hmagic, field_take store.2]
  · simp only [List.append_assoc]
    rw [show 24 = 8 + (16 + 0) from rfl, field_drop hmagic, field_drop store.2]
    exact field_take (by decide)
  · rw [List.take_left' hfront, List.drop_left' hfront]
    exact htag

theorem scans_iff_file_of : Scans V store expected f records matched ↔
    FileOf V store expected f records ∧ Matched expected records matched := by
  constructor
  · rintro ⟨hsound, hmatches, hstore⟩
    obtain ⟨hfits, hmatched⟩ := (matches_of_iff hsound.complete.jobs).mp hmatches
    refine ⟨⟨hsound.header.nonzero, ⟨hsound.complete.header_le, hsound.complete.length_le⟩,
      Scans.layout hsound, hsound.complete.count, ?_, hsound.tags, hsound.complete.jobs, ?_⟩,
      hmatched⟩
    · exact fun r hr => ⟨r.binding.decode_encoded, hsound.complete.store r hr⟩
    · exact fun b hb => ⟨hstore b hb, hfits b hb⟩
  · rintro ⟨hf, hmatched⟩
    refine ⟨hf.sound, (matches_of_iff hf.jobs).mpr ⟨?_, hmatched⟩, ?_⟩
    · exact fun b hb => (hf.expected_fits b hb).2
    · exact fun b hb => (hf.expected_fits b hb).1

/-- One of the two ends of a match is always reached. -/
theorem FileOf.has_match (hf : FileOf V store expected f records) :
    ∃ matched, Matched expected records matched := by
  by_cases hex : ∃ r ∈ records, expected = some r.binding
  · obtain ⟨r, hr, hb⟩ := hex
    refine ⟨some r.ciphertext, r, hr, hb, rfl, ?_⟩
    intro r' hr' hsame
    exact same_record_of_job hf.jobs hr hr' (by rw [hsame])
  · refine ⟨none, ?_⟩
    intro b hb r hr hjob
    have hsame := (hf.expected_fits b hb).2 r hr hjob
    exact hex ⟨r, hr, by rw [hsame]; exact hb⟩

/-! ## The scan of a faithful host -/

/-- The host, with the calls that only write left out. -/
def Host.reading (h : Host σ) : Host σ := { h with
  append := fun _ _ world => (.ok (), world)
  synchronize := fun world => (.ok (), world)
  tag := fun _ _ world => (.ok ⟨List.replicate TAG 0, rfl⟩, world) }

theorem read_reading (h : Host σ) (offset len : Nat) :
    read h.reading offset len = read h offset len := by
  have hchunks : ∀ cs offset, read_chunks h.reading offset cs = read_chunks h offset cs := by
    intro cs
    induction cs with
    | nil => exact fun _ => rfl
    | cons c cs ih =>
      intro offset
      unfold read_chunks
      simp only [ih]
      rfl
  exact hchunks _ _

theorem scan_records_reading (h : Host σ) (size turns position : Nat) (jobs : List Bytes)
    (start : Option Bytes) : scan_records h.reading store expected size turns position jobs start =
      scan_records h store expected size turns position jobs start := by
  have hrecord : ∀ position jobs, scan_record h.reading store size position jobs =
      scan_record h store size position jobs := by
    intro position jobs
    unfold scan_record
    simp only [read_reading]
    rfl
  induction turns generalizing position jobs start with
  | zero => rfl
  | succ turns ih =>
    unfold scan_records
    simp only [hrecord, ih]

theorem scan_reading (h : Host σ) : scan h.reading store expected = scan h store expected := by
  unfold scan scan_header
  simp only [read_reading, scan_records_reading]
  rfl

theorem kept_of_ok {α ε : Type} {r : Except ε α × σ} {a : α} (hr : r.1 = .ok a) :
    Kept (fun _ => True) (fun _ => False) r := by
  obtain ⟨answer, world⟩ := r
  obtain rfl := hr
  trivial

theorem FaithfulIo.watched (hh : FaithfulIo h V) :
    Watched h.reading (fun _ => True) (fun _ => False) where
  check := fun world _ => kept_of_ok (hh.check world)
  size := fun world _ => kept_of_ok (hh.size world)
  read_at := fun offset len world _ => kept_of_ok (hh.read_at offset len world)
  append := fun _ _ _ _ => trivial
  synchronize := fun _ _ => trivial
  tag := fun _ _ _ _ => trivial
  verify := fun _ _ _ _ _ => trivial

theorem FaithfulIo.verified (hh : FaithfulIo h V) : Verified h.reading ≤ V := by
  rintro purpose parts tag ⟨world, hok⟩
  exact (hh.verify purpose parts tag world).mp hok

theorem FaithfulIo.accepted (hh : FaithfulIo h V) : V ≤ Accepted h.reading := by
  intro purpose parts tag hv world
  exact (hh.verify purpose parts tag world).mpr hv

theorem Sound.mono {V' : Accepts} (hle : V ≤ V') (hs : Sound V store f records) :
    Sound V' store f records where
  complete := hs.complete
  header := { hs.header with tag := hle _ _ _ hs.header.tag }
  tags := fun r hr => hle _ _ _ (hs.tags r hr)

theorem Scans.mono {V' : Accepts} (hle : V ≤ V') (hs : Scans V store expected f records matched) :
    Scans V' store expected f records matched := ⟨hs.1.mono hle, hs.2⟩

theorem scan_ok_iff (hh : FaithfulIo h V) (world : σ) (u : Bool) (v : Scan) :
    (scan h store expected ⟨f, world, u⟩).1 = .ok v ↔ ∃ records,
      FileOf V store expected f records ∧ v.size = f.length ∧ v.count = records.length ∧
        Matched expected records v.matched := by
  have hrun := @scan_seen σ h.reading _ _ store f u hh.watched expected ⟨f, world, u⟩
    ⟨⟨rfl, rfl⟩, trivial⟩
  rw [scan_reading] at hrun
  cases hs : scan h store expected ⟨f, world, u⟩ with
  | mk out st =>
    rw [hs] at hrun
    cases out with
    | ok w =>
      obtain ⟨⟨records, hscans, hsize, hcount⟩, -⟩ := hrun
      obtain ⟨hf, hmatched⟩ := scans_iff_file_of.mp (hscans.mono hh.verified)
      constructor
      · intro hv
        cases hv
        exact ⟨records, hf, hsize, hcount, hmatched⟩
      · rintro ⟨records', hf', hsize', hcount', hmatched'⟩
        obtain rfl := hf.sound.complete.unique hf'.sound.complete
        have hm : w.matched = v.matched := by
          have h1 := (matches_of_iff hf.jobs).mpr
            ⟨fun b hb => (hf.expected_fits b hb).2, hmatched⟩
          have h2 := (matches_of_iff hf.jobs).mpr
            ⟨fun b hb => (hf.expected_fits b hb).2, hmatched'⟩
          rw [h1] at h2
          exact Except.ok.inj h2
        obtain ⟨size, count, m⟩ := v
        obtain ⟨size', count', m'⟩ := w
        simp_all
    | error e =>
      obtain ⟨-, hfails⟩ := hrun
      simp only [false_or] at hfails
      constructor
      · intro hv
        cases hv
      · rintro ⟨records, hf, -, -, hmatched⟩
        exact absurd ⟨records, _, (scans_iff_file_of.mpr ⟨hf, hmatched⟩).mono hh.accepted⟩ hfails

/-! ## Cut files -/

/-- Records at the front of a file are its first ones. -/
theorem prefix_of_encodes {records' : List Record} {rest : Bytes}
    (h : encodes records' ++ rest = encodes records) : records' = records.take records'.length := by
  induction records' generalizing records with
  | nil => simp
  | cons r' records' ih =>
    cases records with
    | nil =>
      have hnil := (List.append_eq_nil_iff.mp (List.append_eq_nil_iff.mp h).1).1
      have := length_encode_pos r'
      rw [hnil, List.length_nil] at this
      omega
    | cons r records =>
      have hcons : r'.encode ++ (encodes records' ++ rest) = r.encode ++ encodes records := by
        simpa [encodes] using h
      obtain ⟨hfirst, hrest⟩ := List.append_inj hcons (Record.length_unique hcons)
      rw [List.length_cons, List.take_succ_cons, ← Record.encode_injective hfirst, ← ih hrest]

/-- A cut that leaves a file of the format is behind the header or behind a record. -/
theorem FileOf.cut {expected' : Option ArtifactBinding} {records' : List Record} {n : Nat}
    (hf : FileOf V store expected f records) (hn : n ≤ f.length)
    (hcut : FileOf V store expected' (f.take n) records') :
    n = HEADER + (encodes (records.take records'.length)).length := by
  obtain ⟨header, hlen, hfile⟩ := hf.sound.complete.header
  obtain ⟨header', hlen', hfile'⟩ := hcut.sound.complete.header
  have hsplit : header' ++ (encodes records' ++ f.drop n) = header ++ encodes records := by
    rw [← List.append_assoc, ← hfile', List.take_append_drop, hfile]
  obtain ⟨-, hrest⟩ := List.append_inj hsplit (hlen'.trans hlen.symm)
  have htake := congrArg List.length hfile'
  rw [List.length_take, List.length_append, hlen', prefix_of_encodes hrest] at htake
  omega

end

/-- A scan of a faithful host passes exactly on the files of the format, with the count and the
match of the format, and never on a file that is cut inside of a record. -/
theorem a_scan_passes_exactly_on_the_files_of_the_format {σ : Type} (h : Host σ) (V : Accepts)
    (hh : FaithfulIo h V) (store : Id) (expected : Option ArtifactBinding) (f : Bytes) (world : σ)
    (u : Bool) :
    (∀ v, (scan h store expected ⟨f, world, u⟩).1 = .ok v ↔ ∃ records,
      FileOf V store expected f records ∧ v.size = f.length ∧ v.count = records.length ∧
        Matched expected records v.matched) ∧
    ((∃ v, (scan h store expected ⟨f, world, u⟩).1 = .ok v) ↔
      ∃ records, FileOf V store expected f records) ∧
    ∀ records, FileOf V store expected f records → ∀ n ≤ f.length,
      (∀ k, n ≠ HEADER + (encodes (records.take k)).length) →
      ∀ (expected' : Option ArtifactBinding) (world' : σ) (u' : Bool) (v : Scan),
        (scan h store expected' ⟨f.take n, world', u'⟩).1 ≠ .ok v := by
  refine ⟨fun v => scan_ok_iff hh world u v, ⟨?_, ?_⟩, ?_⟩
  · rintro ⟨v, hv⟩
    obtain ⟨records, hf, -⟩ := (scan_ok_iff hh world u v).mp hv
    exact ⟨records, hf⟩
  · rintro ⟨records, hf⟩
    obtain ⟨matched, hmatched⟩ := hf.has_match
    exact ⟨⟨f.length, records.length, matched⟩,
      (scan_ok_iff hh world u _).mpr ⟨records, hf, rfl, rfl, hmatched⟩⟩
  · intro records hf n hn hboundary expected' world' u' v hv
    obtain ⟨records', hcut, -⟩ := (scan_ok_iff hh world' u' v).mp hv
    exact hboundary _ (hf.cut hn hcut)

theorem zero_host_faithful : FaithfulIo zero_host fun _ _ tag => tag = List.replicate 32 0 where
  check := fun _ => rfl
  size := fun _ => rfl
  read_at := fun _ _ _ => rfl
  verify := by
    intro purpose parts tag world
    unfold zero_host
    by_cases htag : tag = List.replicate 32 0
    · simp [htag]
    · simp only [htag, if_false]
      simp

/-- A store with one record. -/
def one_record_store : Bytes :=
  (after_calls zero_host ones [.Publish ones_binding age_magic]
    (from_io zero_host ones empty_store ()).2).file

/-- Its record is found, and the store is not scanned any more when its last byte is cut off. -/
theorem a_store_of_one_record_is_scanned :
    (∃ v, (scan zero_host ones (some ones_binding) ⟨one_record_store, (), false⟩).1 = .ok v ∧
      v.count = 1 ∧ v.matched = some age_magic) ∧
    (∃ r, FileOf (fun _ _ tag => tag = List.replicate 32 0) ones (some ones_binding)
      one_record_store [r] ∧ r.binding = ones_binding ∧ r.ciphertext = age_magic) ∧
    ∀ v, (scan zero_host ones none ⟨one_record_store.dropLast, (), false⟩).1 ≠ .ok v := by
  have hlaw := a_scan_passes_exactly_on_the_files_of_the_format zero_host _ zero_host_faithful ones
    (some ones_binding) one_record_store () false
  have hscan : ((scan zero_host ones (some ones_binding) ⟨one_record_store, (), false⟩).1).map
      (fun v => (v.count, v.matched)) = .ok (1, some age_magic) := by
    decide +kernel
  cases hs : (scan zero_host ones (some ones_binding) ⟨one_record_store, (), false⟩).1 with
  | error e =>
    rw [hs] at hscan
    cases hscan
  | ok v =>
    rw [hs] at hscan
    obtain ⟨hcount, hmatched⟩ := Prod.mk.inj (Except.ok.inj hscan)
    obtain ⟨records, hf, -, hlength, hmatch⟩ := (hlaw.1 v).mp hs
    rw [show v.count = 1 from hcount] at hlength
    obtain ⟨r, rfl⟩ := List.length_eq_one_iff.1 hlength.symm
    rw [show v.matched = some age_magic from hmatched] at hmatch
    obtain ⟨r', hr', hbinding, hciphertext, -⟩ := hmatch
    rw [List.mem_singleton.1 hr'] at hbinding hciphertext
    refine ⟨⟨v, rfl, hcount, hmatched⟩, ⟨r, hf, (Option.some.inj hbinding).symm, hciphertext⟩, ?_⟩
    have hcut := hlaw.2.2 [r] hf (one_record_store.length - 1) (Nat.sub_le _ _) ?_ none () false
    · rw [← List.dropLast_eq_take] at hcut
      exact hcut
    · obtain ⟨header, hheader, hwhole⟩ := hf.sound.complete.header
      have hwhole := congrArg List.length hwhole
      rw [List.length_append, hheader] at hwhole
      intro k hk
      cases k with
      | zero =>
        have hshort : one_record_store.length - 1 ≠ HEADER + 0 := by decide +kernel
        exact absurd hk hshort
      | succ k =>
        have hpos : 0 < one_record_store.length := by decide +kernel
        rw [List.take_of_length_le (by simp)] at hk
        omega

end openwrt_mcp_adapters.backups
