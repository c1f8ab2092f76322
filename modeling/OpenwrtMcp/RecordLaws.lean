-- The laws of the record store: in any run of calls with any failures the file is whole records
-- and at most one torn record.
import OpenwrtMcp.RecordScan

open big_endian programs slices text openwrt_mcp_runtime.backups

namespace openwrt_mcp_adapters.backups

section
variable {σ α : Type} {h : Host σ} {S D R : σ → Prop} {store : Id} {f : Bytes} {u : Bool}

theorem ask_spec (call : σ → Except BackupError α × σ) :
    Triple (Same f u) (ask call) (fun _ => Same f u) (fun _ => Same f u) := by
  intro st hst
  unfold ask
  cases (call st.world).1 with
  | ok a => exact hst
  | error e => exact hst

/-! ## The calls -/

/-- What only reads, whatever the flag is. -/
theorem file_of_same {x : Act σ α} (hx : ∀ u, Triple (Same f u) x (fun _ => Same f u)
    (fun _ => Same f u)) :
    Triple (fun st => st.file = f) x (fun _ st => st.file = f) (fun _ st => st.file = f) := by
  intro st hst
  exact (hx st.uncertain).conseq (fun _ h => h) (fun _ _ h => h.1) (fun _ _ h => h.1) st ⟨hst, rfl⟩

theorem ask_file (call : σ → Except BackupError α × σ) (f : Bytes) :
    Triple (fun st => st.file = f) (ask call) (fun _ st => st.file = f) (fun _ st => st.file = f) :=
  file_of_same fun _ => ask_spec call

theorem check_file (f : Bytes) :
    Triple (fun st => st.file = f) (check h) (fun _ st => st.file = f) (fun _ st => st.file = f) :=
  ask_file h.check f

theorem scan_file (expected : Option ArtifactBinding) (f : Bytes) :
    Triple (fun st => st.file = f) (scan h store expected) (fun _ st => st.file = f)
      (fun _ st => st.file = f) :=
  file_of_same fun _ => (scan_spec expected).conseq (fun _ h => h) (fun _ _ h => h.2) fun _ _ h => h

theorem attempt_spec {x : Act σ α} {P : Store σ → Prop} {Q : α → Store σ → Prop}
    {E : BackupError → Store σ → Prop} (hx : Triple P x Q E) {E' : BackupError → Store σ → Prop} :
    Triple P (attempt x) (fun r st =>
      match r with
      | .ok v => Q v st
      | .error e => E e st) E' := by
  apply Triple.attempt
  exact hx

/-- Whatever fails, a part of the chunks from their start is in the file. -/
theorem append_chunks_seen (hw : Watched h S R) (position : Nat) (cs : List Bytes) (f : Bytes) :
    Triple (Seen f u S) (append_chunks h position cs)
      (fun final st => final = position + cs.flatten.length ∧ Seen (f ++ cs.flatten) u S st)
      (fun _ st => ∃ part, part <+: cs.flatten ∧ Seen (f ++ part) u R st) := by
  induction cs generalizing position f with
  | nil =>
    apply Triple.pure
    intro st hst
    simpa using hst
  | cons c cs ih =>
    have hcheck : ∀ f part, part <+: (c :: cs).flatten →
        Triple (Seen (f ++ part) u S) (check h) (fun _ => Seen (f ++ part) u S)
          (fun _ st => ∃ part, part <+: (c :: cs).flatten ∧ Seen (f ++ part) u R st) := by
      intro f part hpart
      refine (ask_seen hw.check (φ := False)).conseq (fun _ hst => hst) (fun _ _ hst => hst) ?_
      exact fun _ st hst => ⟨part, hpart, hst.1, hst.2.resolve_right id⟩
    apply Triple.bind ((hcheck f [] List.nil_prefix).conseq (fun _ hst => by simpa using hst)
      (fun _ _ hst => hst) fun _ _ hst => hst)
    intro _
    apply Triple.bind (Q := fun _ => Seen (f ++ c) u S)
    · intro st hst
      rw [List.append_nil] at hst
      have hkept := hw.append position c st.world hst.2
      unfold append
      unfold Kept at hkept
      cases happend : h.append position c st.world with
      | mk reply world =>
        rw [happend] at hkept
        cases reply with
        | ok v => exact ⟨⟨by rw [hst.1.1], hst.1.2⟩, hkept⟩
        | error e =>
          obtain ⟨e, written⟩ := e
          refine ⟨c.take written, ?_, ⟨by rw [hst.1.1], hst.1.2⟩, hkept⟩
          rw [List.flatten_cons]
          exact (List.take_prefix _ _).trans (List.prefix_append _ _)
    intro _
    apply Triple.bind (hcheck f c (by simp))
    intro _
    refine (ih (position + c.length) (f ++ c)).conseq (fun _ h => h) ?_ ?_
    · rintro final st ⟨hfinal, hst⟩
      simpa [Nat.add_assoc] using And.intro hfinal hst
    · rintro e st ⟨part, hpart, hst⟩
      refine ⟨c ++ part, ?_, by rwa [List.append_assoc] at hst⟩
      rw [List.flatten_cons]
      exact List.prefix_append_right_inj c |>.mpr hpart

/-- The record that a call of `publish` writes, with the tag that it got. -/
def Writes (h : Host σ) (binding : ArtifactBinding) (ciphertext : Bytes) (r : Record) : Prop :=
  r.binding = binding ∧ r.ciphertext = ciphertext ∧ ∃ world,
    (h.tag .ArtifactRecord [record_header binding ciphertext.length, ciphertext] world).1 =
      .ok r.tag

/-- A call that writes: the file is sound and has room, and the record has a new job. -/
structure Appends (h : Host σ) (store : Id) (binding : ArtifactBinding) (ciphertext : Bytes)
    (f : Bytes) (records : List Record) (r : Record) : Prop where
  sound : Sound (Verified h) store f records
  room : records.length < MAX_RECORDS
  writes : Writes h binding ciphertext r
  store : r.binding.store = store.1
  job : ∀ r' ∈ records, r.binding.job ≠ r'.binding.job

/-- The file has now a part of the record behind it. -/
structure Appended (h : Host σ) (store : Id) (binding : ArtifactBinding) (ciphertext : Bytes)
    (f f' : Bytes) (records : List Record) (r : Record) : Prop
    extends Appends h store binding ciphertext f records r where
  part : ∃ part, part <+: r.encode ∧ f' = f ++ part

/-- What the last tests of `publish` do to the world. -/
def Confirming (h : Host σ) (S D R : σ → Prop) : Prop :=
  ∀ f u position, Triple (Seen f u S) (confirm h position) (fun _ => Seen f u D)
    (fun _ => Fails f u R (f.length ≠ position))

theorem confirm_seen (hw : Watched h S R) : Confirming h S S R := by
  intro f u position
  unfold confirm
  apply Triple.bind (size_seen hw)
  intro size
  apply Triple.of_and
  rintro rfl
  split
  · rename_i hne
    apply Triple.stop
    exact fun st hst => ⟨hst.1, .inr hne⟩
  · apply Triple.bind (ask_seen hw.synchronize)
    intro _
    exact ask_seen hw.check

theorem write_record_seen (hw : Watched h S R) (hconfirm : Confirming h S D R)
    (header ciphertext : Bytes) (tag : Tag) (f : Bytes) :
    Triple (Seen f u S) (write_record h f.length header ciphertext tag)
      (fun out st =>
        (out = .Durable ∧ Seen (f ++ (header ++ ciphertext ++ tag.1)) false D st) ∨
        (out = .Unknown ∧ R st.world ∧
          ∃ part, part <+: header ++ ciphertext ++ tag.1 ∧ st.file = f ++ part))
      (fun _ _ => False) := by
  have hflat : ([header, ciphertext, tag.1].flatMap (chunks CHUNK)).flatten =
      header ++ ciphertext ++ tag.1 := by
    have hchunk : 0 < CHUNK := by decide
    simp [chunks_flatten hchunk]
  have hspec := append_chunks_seen (u := true) hw f.length
    ([header, ciphertext, tag.1].flatMap (chunks CHUNK)) f
  rw [hflat] at hspec
  unfold write_record
  apply Triple.modify_bind (M := Seen f true S)
  · exact fun st hst => ⟨⟨hst.1.1, rfl⟩, hst.2⟩
  apply Triple.bind (attempt_spec hspec)
  intro r
  cases r with
  | error e =>
    apply Triple.pure
    rintro st ⟨part, hpart, hst⟩
    exact .inr ⟨rfl, hst.2, part, hpart, hst.1.1⟩
  | ok position =>
    apply Triple.of_and
    rintro rfl
    apply Triple.bind (attempt_spec (hconfirm _ true _))
    intro r
    cases r with
    | error e =>
      apply Triple.pure
      intro st hst
      refine .inr ⟨rfl, hst.2.resolve_right ?_, _, List.prefix_refl _, hst.1.1⟩
      simp
    | ok _ =>
      apply Triple.modify_bind (M := Seen (f ++ (header ++ ciphertext ++ tag.1)) false D)
      · exact fun st hst => ⟨⟨hst.1.1, rfl⟩, hst.2⟩
      · apply Triple.pure
        exact fun st hst => .inl ⟨rfl, hst⟩

theorem tag_seen (hw : Watched h S R) (parts : List Bytes) {φ : Prop} :
    Triple (Seen f u S) (ask (h.tag .ArtifactRecord parts))
      (fun tag st => (∃ world, (h.tag .ArtifactRecord parts world).1 = .ok tag) ∧ Seen f u S st)
      (fun _ => Fails f u R φ) := by
  intro st hst
  have hkept := hw.tag .ArtifactRecord parts st.world hst.2
  unfold ask
  unfold Kept at hkept
  cases htag : h.tag .ArtifactRecord parts st.world with
  | mk answer world =>
    rw [htag] at hkept
    cases answer with
    | ok tag => exact ⟨⟨st.world, by rw [htag]⟩, hst.1, hkept⟩
    | error e => exact ⟨hst.1, .inl hkept⟩

/-- The store takes this record: the tags of the file are accepted in every world, there is room,
and the job is new. -/
structure Publishable (h : Host σ) (store : Id) (binding : ArtifactBinding) (ciphertext : Bytes)
    (f : Bytes) (records : List Record) : Prop where
  sound : Sound (Accepted h) store f records
  room : records.length < MAX_RECORDS
  store : binding.store = store.1
  job : ∀ r ∈ records, binding.job ≠ r.binding.job
  pos : 1 ≤ ciphertext.length
  le : ciphertext.length ≤ MAX_CIPHERTEXT
  magic : age_magic <+: ciphertext

/-- What the three answers of `publish` say. -/
def Answer (h : Host σ) (D R : σ → Prop) (store : Id) (binding : ArtifactBinding)
    (ciphertext f : Bytes) (u : Bool) (st : Store σ) : RecordPublication → Prop
  | .Durable => (∃ records r, Appends h store binding ciphertext f records r ∧
      st.file = f ++ r.encode) ∧ st.uncertain = false ∧ D st.world
  | .NotPublished => Fails f u R (¬ ∃ records, Publishable h store binding ciphertext f records) st
  | .Unknown =>
    (st.file = f ∨ ∃ records r, Appended h store binding ciphertext f st.file records r) ∧
      (u = true ∨ R st.world ∨
        ¬ ∃ records matched, Scans (Accepted h) store (some binding) f records matched)

theorem publish_seen (hw : Watched h S R) (hconfirm : Confirming h S D R)
    (binding : ArtifactBinding) (ciphertext : Bytes) (f : Bytes) :
    Triple (Seen f u S) (publish h store binding ciphertext)
      (fun out st => Answer h D R store binding ciphertext f u st out) (fun _ _ => False) := by
  unfold publish
  apply Triple.get_bind
  intro st0 hst0
  split
  · rename_i hflag
    apply Triple.pure
    rintro _ rfl
    exact ⟨.inl hst0.1.1, .inl (hst0.1.2.symm.trans hflag)⟩
  apply Triple.bind ((attempt_spec (scan_seen hw (some binding))).conseq (fun _ h => h ▸ hst0)
    (fun _ _ h => h) fun _ _ h => h)
  intro r
  cases r with
  | error e =>
    apply Triple.modify_bind (M := fun st => st.file = f ∧ (R st.world ∨
      ¬ ∃ records matched, Scans (Accepted h) store (some binding) f records matched))
    · exact fun st hst => ⟨hst.1.1, hst.2⟩
    · apply Triple.pure
      exact fun st hst => ⟨.inl hst.1, .inr hst.2⟩
  | ok scan =>
    apply Triple.of_and
    rintro ⟨records, hscans, hsize, hcount⟩
    simp only
    split
    · rename_i htests
      apply Triple.pure
      intro st hst
      refine ⟨hst.1, .inr ?_⟩
      rintro ⟨records', hp⟩
      obtain rfl := hscans.1.complete.unique hp.sound.complete
      rcases htests with hmatched | hfull | hempty | hlong | hmagic
      · have hnone := matches_of_fresh none hp.job
        rw [hscans.2.1] at hnone
        rw [Except.ok.inj hnone] at hmatched
        cases hmatched
      · have := hp.room
        omega
      · have := hp.pos
        simp [List.isEmpty_iff.mp hempty] at this
      · have := hp.le
        omega
      · exact hmagic hp.magic
    rename_i htests
    simp only [not_or, not_le, Bool.not_eq_true, List.isEmpty_eq_false_iff, not_not,
      Option.isSome_eq_false_iff, Option.isNone_iff_eq_none] at htests
    obtain ⟨hmatched, hroom, hne, hmax, hmagic⟩ := htests
    have hmatch := hscans.2.1
    rw [hmatched] at hmatch
    obtain ⟨-, hjobs⟩ := no_job_of_no_match hmatch
    have hpos : 1 ≤ ciphertext.length := List.length_pos_iff.mpr hne
    apply Triple.bind (attempt_spec (tag_seen hw _ (φ := False)))
    intro r
    cases r with
    | error e =>
      apply Triple.pure
      exact fun st hst => hst.mono False.elim
    | ok tag =>
      apply Triple.of_and
      intro htag
      apply Triple.bind (attempt_spec (ask_seen hw.check (φ := False)))
      intro r
      cases r with
      | error e =>
        apply Triple.pure
        exact fun st hst => hst.mono False.elim
      | ok _ =>
        let r : Record := ⟨binding, ciphertext, tag, hpos, by omega⟩
        have happends : Appends h store binding ciphertext f records r :=
          ⟨hscans.1, by omega, ⟨rfl, rfl, htag⟩, hscans.2.2 binding rfl, hjobs⟩
        rw [hsize]
        refine (write_record_seen hw hconfirm _ ciphertext tag f).conseq (fun _ h => h) ?_
          (fun _ _ h => h)
        rintro out st (⟨rfl, hst⟩ | ⟨rfl, hrough, part, hpart, hfile⟩)
        · exact ⟨⟨records, r, happends, hst.1.1⟩, hst.1.2, hst.2⟩
        · exact ⟨.inr ⟨records, r, { happends with part := ⟨part, hpart, hfile⟩ }⟩,
            .inr (.inl hrough)⟩

/-- `publish` always answers. -/
theorem publish_answers (hw : Watched h S R) (hconfirm : Confirming h S D R) (store : Id)
    (binding : ArtifactBinding) (ciphertext : Bytes) (st : Store σ) (hst : S st.world) :
    ∃ out st', publish h store binding ciphertext st = (.ok out, st') ∧
      Answer h D R store binding ciphertext st.file st.uncertain st' out := by
  have hspec : Triple (Seen st.file st.uncertain S) (publish h store binding ciphertext)
      (fun out st' => Answer h D R store binding ciphertext st.file st.uncertain st' out)
      (fun _ _ => False) := publish_seen hw hconfirm binding ciphertext st.file
  have hend := hspec st ⟨⟨rfl, rfl⟩, hst⟩
  cases hx : publish h store binding ciphertext st with
  | mk answer st' =>
    rw [hx] at hend
    cases answer with
    | ok out => exact ⟨out, st', rfl, hend⟩
    | error e => exact hend.elim

theorem publish_spec (h : Host σ) (store : Id) (binding : ArtifactBinding) (ciphertext : Bytes)
    (st : Store σ) : (publish h store binding ciphertext st).2.file = st.file ∨ ∃ records r,
      Appended h store binding ciphertext st.file (publish h store binding ciphertext st).2.file
        records r := by
  have hw := watched_true h
  obtain ⟨out, st', hrun, hout⟩ :=
    publish_answers hw (confirm_seen hw) store binding ciphertext st trivial
  rw [hrun]
  cases out with
  | Durable =>
    obtain ⟨⟨records, r, happends, hfile⟩, -⟩ := hout
    exact .inr ⟨records, r, { happends with part := ⟨_, List.prefix_refl _, hfile⟩ }⟩
  | NotPublished => exact .inl hout.1.1
  | Unknown => exact hout.1

/-- The other calls only read. -/
theorem reconcile_spec (binding : ArtifactBinding) (f : Bytes)
    {E : BackupError → Store σ → Prop} :
    Triple (fun st => st.file = f) (reconcile h store binding) (fun _ st => st.file = f) E := by
  unfold reconcile
  apply Triple.bind (attempt_spec (scan_file (some binding) f))
  intro r
  cases r with
  | error e =>
    apply Triple.pure
    exact fun st hst => hst
  | ok scan =>
    simp only
    split
    · apply Triple.pure
      exact fun st hst => hst
    apply Triple.bind
      (attempt_spec (Q := fun _ st => st.file = f) (E := fun _ st => st.file = f) ?_)
    · intro r
      cases r with
      | error e =>
        apply Triple.pure
        exact fun st hst => hst
      | ok _ =>
        apply Triple.modify_bind (M := fun st => st.file = f)
        · exact fun st hst => hst
        · apply Triple.pure
          exact fun st hst => hst
    · apply Triple.bind (check_file f)
      intro _
      apply Triple.bind (ask_file _ f)
      intro _
      exact check_file f

theorem authenticated_bytes_spec (binding : ArtifactBinding) (f : Bytes) :
    Triple (fun st => st.file = f) (authenticated_bytes h store binding) (fun _ st => st.file = f)
      (fun _ st => st.file = f) := by
  unfold authenticated_bytes
  apply Triple.bind (scan_file (some binding) f)
  intro scan
  split
  · exact Triple.stop fun st hst => hst
  · exact Triple.pure fun st hst => hst

/-! ## Any run of calls -/

/-- A record that one of the calls publishes. -/
def PublishedBy (h : Host σ) (calls : List Call) (r : Record) : Prop :=
  ∃ binding ciphertext, .Publish binding ciphertext ∈ calls ∧ Writes h binding ciphertext r

/-- What the calls have made of the file that was opened: the bytes it had, whole records of
published bindings, and a part of one more. -/
structure Extends (h : Host σ) (store : Id) (original : Bytes) (calls : List Call) (file : Bytes)
    (old added : List Record) (tail : Bytes) : Prop where
  file_eq : file = original ++ encodes added ++ tail
  original_complete : Complete store original old
  complete : Complete store (original ++ encodes added) (old ++ added)
  published : ∀ r ∈ added, PublishedBy h calls r
  tail_part : tail = [] ∨ (old ++ added).length < MAX_RECORDS ∧
    ∃ r, PublishedBy h calls r ∧ tail <+: Record.encode r ∧ tail ≠ r.encode

theorem PublishedBy.mono {calls more : List Call} {r : Record} (hr : PublishedBy h calls r) :
    PublishedBy h (calls ++ more) r := by
  obtain ⟨binding, ciphertext, hmem, hw⟩ := hr
  exact ⟨binding, ciphertext, List.mem_append_left _ hmem, hw⟩

section
variable {original file : Bytes} {calls : List Call} {old added : List Record} {tail : Bytes}

theorem Extends.mono (hx : Extends h store original calls file old added tail)
    (more : List Call) : Extends h store original (calls ++ more) file old added tail where
  file_eq := hx.file_eq
  original_complete := hx.original_complete
  complete := hx.complete
  published := fun r hr => (hx.published r hr).mono
  tail_part := by
    rcases hx.tail_part with hnil | ⟨hroom, r, hr, hpre, hlt⟩
    · exact .inl hnil
    · exact .inr ⟨hroom, r, hr.mono, hpre, hlt⟩

theorem Extends.torn (hx : Extends h store original calls file old added tail)
    (hne : tail ≠ []) : Torn store file := by
  rcases hx.tail_part with hnil | ⟨-, r, -, hpre, hlt⟩
  · exact absurd hnil hne
  · exact ⟨_, _, tail, r, hx.complete, hx.file_eq, hne, hpre, hlt⟩

/-- The limit on the file holds with the torn record, too. -/
theorem Extends.length_le (hx : Extends h store original calls file old added tail) :
    file.length ≤ MAX_STORE_BYTES := by
  obtain ⟨header, hlen, hf⟩ := hx.complete.header
  have hrecords := length_encodes_le (old ++ added)
  have hcount := hx.complete.count
  rw [hx.file_eq, hf, List.length_append, List.length_append, hlen]
  rcases hx.tail_part with rfl | ⟨hroom, r, -, hpre, -⟩
  · rw [List.length_nil]
    unfold MAX_RECORDS MAX_STORE_BYTES MAX_CIPHERTEXT HEADER RECORD_HEADER BINDING_BYTES TAG at *
    omega
  · have hle := hpre.length_le
    have hr := r.le
    rw [r.length_encode] at hle
    unfold MAX_RECORDS MAX_STORE_BYTES MAX_CIPHERTEXT HEADER RECORD_HEADER BINDING_BYTES TAG at *
    omega

theorem snoc_complete {whole : Bytes} {records : List Record} {r : Record}
    (hc : Complete store whole records) (hroom : records.length < MAX_RECORDS)
    (hstore : r.binding.store = store.1)
    (hjob : ∀ r' ∈ records, r.binding.job ≠ r'.binding.job) :
    Complete store (whole ++ r.encode) (records ++ [r]) where
  header := by
    obtain ⟨header, hlen, hf⟩ := hc.header
    refine ⟨header, hlen, ?_⟩
    rw [hf, encodes_append, List.append_assoc]
    simp [encodes]
  store := by
    intro r' hr'
    rcases List.mem_append.mp hr' with h1 | h1
    · exact hc.store r' h1
    · rw [List.mem_singleton.mp h1]
      exact hstore
  jobs := by
    rw [List.map_append, List.nodup_append]
    refine ⟨hc.jobs, List.nodup_singleton _, ?_⟩
    intro a ha b hb
    obtain ⟨r', hr', rfl⟩ := List.mem_map.mp ha
    rw [List.map_singleton, List.mem_singleton] at hb
    rw [hb]
    exact (hjob r' hr').symm
  count := by
    rw [List.length_append, List.length_singleton]
    exact hroom

/-- A file that a call appends to was not torn. -/
theorem Appended.not_torn {binding : ArtifactBinding} {ciphertext : Bytes} {f f' : Bytes}
    {records : List Record} {r : Record} (ha : Appended h store binding ciphertext f f' records r) :
    ¬ Torn store f := fun ht => ht.not_complete records ha.sound.complete

theorem Extends.append {binding : ArtifactBinding} {ciphertext : Bytes} {file' : Bytes}
    {records : List Record} {r : Record}
    (hx : Extends h store original calls file old added tail)
    (ha : Appended h store binding ciphertext file file' records r) :
    ∃ added' tail', Extends h store original (calls ++ [.Publish binding ciphertext]) file' old
      added' tail' := by
  have hnil : tail = [] := by
    by_contra hne
    exact ha.not_torn (hx.torn hne)
  subst hnil
  have hfile : file = original ++ encodes added := by simpa using hx.file_eq
  obtain rfl : records = old ++ added := ha.sound.complete.unique (hfile ▸ hx.complete)
  have hr : PublishedBy h (calls ++ [.Publish binding ciphertext]) r :=
    ⟨binding, ciphertext, by simp, ha.writes⟩
  obtain ⟨part, hpart, rfl⟩ := ha.part
  by_cases hwhole : part = r.encode
  · refine ⟨added ++ [r], [], ?_, hx.original_complete, ?_, ?_, .inl rfl⟩
    · rw [hfile, hwhole, encodes_append]
      simp [encodes]
    · have hsnoc := snoc_complete hx.complete ha.room ha.store ha.job
      rw [encodes_append, ← List.append_assoc, ← List.append_assoc]
      simpa [encodes] using hsnoc
    · intro r' hr'
      rcases List.mem_append.mp hr' with h1 | h1
      · exact (hx.published r' h1).mono
      · rw [List.mem_singleton.mp h1]
        exact hr
  · refine ⟨added, part, by rw [hfile], hx.original_complete, hx.complete, ?_,
      .inr ⟨ha.room, r, hr, hpart, hwhole⟩⟩
    exact fun r' hr' => (hx.published r' hr').mono

end

/-- What one call does to the file. -/
theorem call_spec (h : Host σ) (store : Id) (call : Call) (st : Store σ) :
    (call.after h store st).file = st.file ∨ ∃ binding ciphertext records r,
      call = .Publish binding ciphertext ∧
        Appended h store binding ciphertext st.file (call.after h store st).file records r := by
  cases call with
  | Publish binding ciphertext =>
    rcases publish_spec h store binding ciphertext st with h1 | ⟨records, r, h1⟩
    · exact .inl h1
    · exact .inr ⟨binding, ciphertext, records, r, rfl, h1⟩
  | Reconcile binding => exact .inl ((reconcile_spec binding st.file).after rfl)
  | AuthenticatedBytes binding => exact .inl ((authenticated_bytes_spec binding st.file).after rfl)

theorem after_calls_snoc (calls : List Call) (call : Call) (st : Store σ) :
    after_calls h store (calls ++ [call]) st = call.after h store
      (after_calls h store calls st) := by
  simp [after_calls]

/-- A torn file stays as it is. -/
theorem after_calls_torn (calls : List Call) {st : Store σ} (ht : Torn store st.file) :
    (after_calls h store calls st).file = st.file := by
  induction calls using List.reverseRecOn with
  | nil => rfl
  | append_singleton calls call ih =>
    rw [after_calls_snoc]
    rcases call_spec h store call (after_calls h store calls st) with h1 | h1
    · rw [h1, ih]
    · obtain ⟨binding, ciphertext, records, r, -, ha⟩ := h1
      rw [ih] at ha
      exact absurd ht ha.not_torn

theorem after_calls_extends {original : Bytes} {old : List Record}
    (ho : Complete store original old) (calls : List Call) {st : Store σ}
    (hst : st.file = original) :
    ∃ added tail, Extends h store original calls (after_calls h store calls st).file old added
      tail := by
  induction calls using List.reverseRecOn with
  | nil =>
    refine ⟨[], [], ?_, ho, by simpa [encodes] using ho, by simp, .inl rfl⟩
    simp [after_calls, hst, encodes]
  | append_singleton calls call ih =>
    obtain ⟨added, tail, hx⟩ := ih
    rw [after_calls_snoc]
    rcases call_spec h store call (after_calls h store calls st) with h1 | h1
    · rw [h1]
      exact ⟨added, tail, hx.mono [call]⟩
    · obtain ⟨binding, ciphertext, records, r, rfl, ha⟩ := h1
      exact hx.append ha

/-- A file that is opened is sound. -/
theorem from_io_ok {original : Bytes} {world : σ} {st : Store σ}
    (hopen : from_io h store original world = (.ok (), st)) :
    ∃ old, Sound (Verified h) store original old ∧ st.file = original := by
  have hscan : Triple (Same original false) (scan h store none) _ _ := scan_spec none
  have hend := hscan ⟨original, world, false⟩ ⟨rfl, rfl⟩
  unfold from_io at hopen
  split at hopen
  · rename_i heq
    rw [heq] at hend
    cases hopen
    obtain ⟨⟨old, hscans, -⟩, hfile, -⟩ := hend
    exact ⟨old, hscans.1, hfile⟩
  · cases hopen

end

/-- The law of the file: after any calls with any failures it holds what was opened, whole
records with different jobs, and at most a part of one more; and a torn file stays. -/
theorem the_file_is_whole_records_and_at_most_a_part_of_one_more {σ : Type} (h : Host σ)
    (store : Id) (original : Bytes) (world : σ) {st : Store σ}
    (hopen : from_io h store original world = (.ok (), st)) (calls : List Call) :
    (∃ old added tail,
      Extends h store original calls (after_calls h store calls st).file old added tail ∧
      (after_calls h store calls st).file.length ≤ MAX_STORE_BYTES) ∧
    ∀ old added tail,
      Extends h store original calls (after_calls h store calls st).file old added tail →
      tail ≠ [] → ∀ more, (after_calls h store (calls ++ more) st).file =
        (after_calls h store calls st).file := by
  obtain ⟨old, hs, hfile⟩ := from_io_ok hopen
  refine ⟨?_, ?_⟩
  · obtain ⟨added, tail, hx⟩ := after_calls_extends (h := h) hs.complete calls hfile
    exact ⟨old, added, tail, hx, hx.length_le⟩
  · intro old added tail hx hne more
    have happend : after_calls h store (calls ++ more) st =
        after_calls h store more (after_calls h store calls st) := by simp [after_calls]
    rw [happend]
    exact after_calls_torn more (hx.torn hne)

def ones : Id := ⟨List.replicate 16 1, rfl⟩

def empty_store : Bytes := ascii "OMCPST01" ++ ones.1 ++ ascii "recd0001" ++ List.replicate 32 0

/-- A host on which only the second append fails, after five bytes. The world counts the
appends. -/
def torn_host : Host Nat where
  check w := (.ok (), w)
  size w := (.ok (), w)
  read_at _ _ w := (.ok (), w)
  append _ _ w := (if w = 1 then .error (.Unknown, 5) else .ok (), w + 1)
  synchronize w := (.ok (), w)
  tag _ _ w := (.ok zero_tag, w)
  verify _ _ _ w := (.ok (), w)

def ones_binding : ArtifactBinding :=
  ⟨_, ⟨ones, ones, ones, ones, 1, 1, .Tar⟩, by decide, rfl⟩

/-- The append is cut, and the law holds of the torn file. -/
theorem a_cut_append_leaves_a_part_of_one_record :
    (from_io torn_host ones empty_store 0).1 = .ok () ∧ ∃ old added tail,
      Extends torn_host ones empty_store [.Publish ones_binding age_magic]
        (after_calls torn_host ones [.Publish ones_binding age_magic]
          (from_io torn_host ones empty_store 0).2).file old added tail := by
  have hopen : (from_io torn_host ones empty_store 0).1 = .ok () := by decide +kernel
  obtain ⟨⟨old, added, tail, hx, -⟩, -⟩ :=
    the_file_is_whole_records_and_at_most_a_part_of_one_more torn_host ones empty_store 0
      (Prod.ext hopen rfl) [.Publish ones_binding age_magic]
  exact ⟨hopen, old, added, tail, hx⟩

end openwrt_mcp_adapters.backups
