-- The outcome of `seal_capture` is the truth: whatever the cipher, the budget and the file do, it
-- says what is behind the bytes that were in the file before.
import OpenwrtMcp.CaptureSteps

open programs slices text openwrt_mcp_runtime.backups openwrt_mcp_runtime.sealing
open openwrt_mcp_device_codec.archive openwrt_mcp_device_codec.gzip

namespace openwrt_mcp_adapters.backups

/-! ## The trace -/

theorem split_of_sublist {t : Trace} {e e' : Event} (h : [e, e'].Sublist t) :
    ∃ early between late, t = early ++ e :: (between ++ e' :: late) := by
  obtain ⟨first, second, rfl, hfirst, hsecond⟩ := List.cons_sublist_iff.mp h
  obtain ⟨early, between, rfl⟩ := List.append_of_mem hfirst
  obtain ⟨between', late, rfl⟩ := List.append_of_mem (List.singleton_sublist.mp hsecond)
  exact ⟨early, between ++ between', late, by simp⟩

/-- A call that moves bytes. -/
def streams : Event → Bool
  | .Read .. => true
  | .Feed .. => true
  | .Write .. => true
  | _ => false

def encrypted : Event → Bool
  | .Encrypted _ => true
  | _ => false

/-- No bytes move when the cipher has returned. -/
def Still (t : Trace) : Prop :=
  ∀ before result after, t = before ++ .Encrypted result :: after → ∀ e ∈ after, streams e = false

/-- The cipher has not returned. -/
def Streams (t : Trace) : Prop := ∀ e ∈ t, encrypted e = false

theorem Still.snoc {t : Trace} {e : Event} (h : Still t) (he : streams e = false ∨ Streams t) :
    Still (t ++ [e]) := by
  intro before result after heq
  rcases split_snoc heq with ⟨-, -, rfl⟩ | ⟨rest, rfl, rfl⟩
  · simp
  · intro e' he'
    rcases List.mem_append.mp he' with hold | hnew
    · exact h before result rest rfl e' hold
    · rw [List.mem_singleton.mp hnew]
      rcases he with he | he
      · exact he
      · have := he (.Encrypted result) (by simp)
        cases this

theorem Streams.snoc {t : Trace} {e : Event} (h : Streams t) (he : encrypted e = false) :
    Streams (t ++ [e]) := by
  intro e' he'
  rcases List.mem_append.mp he' with hold | hnew
  · exact h e' hold
  · rw [List.mem_singleton.mp hnew]
    exact he

/-- Events that move no bytes. -/
theorem accepted_of_still {t : Trace} (h : ∀ e ∈ t, streams e = false) : Trace.accepted t = [] := by
  refine List.flatMap_eq_nil_iff.mpr ?_
  intro e he
  have hno := h e he
  cases e with
  | Feed bytes reply => cases hno
  | _ => rfl

theorem stored_of_still {t : Trace} (h : ∀ e ∈ t, streams e = false) : Trace.stored t = [] := by
  refine List.flatMap_eq_nil_iff.mpr ?_
  intro e he
  have hno := h e he
  cases e with
  | Write input reply => cases hno
  | _ => rfl

theorem fed_flatten (t : Trace) : (t.flatMap fed).flatten = Trace.accepted t := by
  induction t with
  | nil => rfl
  | cons e t ih =>
    have hone : (fed e).flatten = e.accepted := by
      cases e with
      | Feed bytes reply =>
        cases reply with
        | unwind => rfl
        | ret result =>
          cases result with
          | error failure => rfl
          | ok _ => simp [fed, Event.accepted]
      | _ => rfl
    simp only [List.flatMap_cons, List.flatten_append, ih, hone, Trace.accepted]

/-! ## The check of a whole archive -/

section
variable {δ : Type} (d : Decoder δ)

/-- The checker takes the chunks, one after the other. -/
def Validator.feeds : Validator δ → List Bytes → Option (Validator δ)
  | v, [] => some v
  | v, chunk :: rest =>
    match v.feed d chunk with
    | (v, .ok ()) => v.feeds rest
    | (_, .error _) => none

/-- The archive passes the check in these chunks. -/
def Validator.passes (v : Validator δ) (chunks : List Bytes) (counts : CheckCounts) : Prop :=
  ∃ last, v.feeds d chunks = some last ∧ last.finish = .ok counts

variable {d}

theorem Validator.feeds_snoc {v mid last : Validator δ} {chunks : List Bytes} {chunk : Bytes}
    (h : v.feeds d chunks = some mid) (hfeed : mid.feed d chunk = (last, .ok ())) :
    v.feeds d (chunks ++ [chunk]) = some last := by
  induction chunks generalizing v with
  | nil =>
    cases h
    simp [Validator.feeds, hfeed]
  | cons first rest ih =>
    simp only [Validator.feeds, List.cons_append] at h ⊢
    split at h
    · exact ih h
    · cases h

end

/-! ## What the file has -/

section
variable {σ δ : Type}

/-- The whole record is behind the bytes, and the file was synchronized after the last append. -/
def Recorded (h : Host σ) (store : Id) (binding : ArtifactBinding) (ciphertext : Bytes)
    (st st' : Store (σ × List Io)) : Prop :=
  (∃ records r, Appends h.logged store binding ciphertext st.file records r ∧
      st'.file = st.file ++ r.encode) ∧
    ∃ io rest, st'.world.2 = st.world.2 ++ io ++ .Synchronize true :: rest ∧
      ∀ e ∈ rest, e.is_append = false

/-- Some part of the one record is behind the bytes, from its start. -/
def PartlyRecorded (h : Host σ) (binding : ArtifactBinding) (ciphertext : Bytes)
    (st st' : Store (σ × List Io)) : Prop :=
  ∃ part, st'.file = st.file ++ part ∧
    (part = [] ∨ ∃ r, Writes h binding ciphertext r ∧ part <+: r.encode)

/-- What each answer says of the file. -/
def Told (h : Host σ) (store : Id) (binding : ArtifactBinding) (ciphertext : Bytes)
    (st st' : Store (σ × List Io)) : RecordPublication → Prop
  | .Durable => Recorded h store binding ciphertext st st'
  | .NotPublished => st'.file = st.file
  | .Unknown => PartlyRecorded h binding ciphertext st st'

/-- The file is the same, and nothing was appended. -/
def SameFile (st st' : Store (σ × List Io)) : Prop :=
  st'.file = st.file ∧
    ∃ more, st'.world.2 = st.world.2 ++ more ∧ ∀ e ∈ more, e.is_append = false

theorem SameFile.refl (st : Store (σ × List Io)) : SameFile st st := ⟨rfl, [], by simp, by simp⟩

theorem Idle.sameFile {w w' : Work (σ × List Io) δ} (h : Idle w w') : SameFile w.st w'.st :=
  ⟨h.file, h.log⟩

/-- Nothing is appended after the answer. -/
theorem Told.after {h : Host σ} {store : Id} {binding : ArtifactBinding} {ciphertext : Bytes}
    {st mid st' : Store (σ × List Io)} {publication : RecordPublication}
    (htold : Told h store binding ciphertext st mid publication) (hsame : SameFile mid st') :
    Told h store binding ciphertext st st' publication := by
  obtain ⟨hfile, more, hlog, hno⟩ := hsame
  cases publication with
  | Durable =>
    obtain ⟨⟨records, r, happends, hr⟩, io, rest, hio, hrest⟩ := htold
    refine ⟨⟨records, r, happends, by rw [hfile, hr]⟩, io, rest ++ more, by simp [hlog, hio], ?_⟩
    intro e he
    rcases List.mem_append.mp he with hold | hnew
    · exact hrest e hold
    · exact hno e hnew
  | NotPublished => exact hfile.trans htold
  | Unknown =>
    obtain ⟨part, hpart, hof⟩ := htold
    exact ⟨part, by rw [hfile, hpart], hof⟩

/-- Nothing is appended before the first state that the answer is about. -/
theorem Told.before {h : Host σ} {store : Id} {binding : ArtifactBinding} {ciphertext : Bytes}
    {st mid st' : Store (σ × List Io)} {publication : RecordPublication}
    (hsame : SameFile st mid) (htold : Told h store binding ciphertext mid st' publication) :
    Told h store binding ciphertext st st' publication := by
  obtain ⟨hfile, more, hlog, -⟩ := hsame
  cases publication with
  | Durable =>
    obtain ⟨⟨records, r, happends, hr⟩, io, rest, hio, hrest⟩ := htold
    exact ⟨⟨records, r, hfile ▸ happends, by rw [hr, hfile]⟩, more ++ io, rest, by simp [hio, hlog],
      hrest⟩
  | NotPublished => exact htold.trans hfile
  | Unknown =>
    obtain ⟨part, hpart, hof⟩ := htold
    exact ⟨part, by rw [hpart, hfile], hof⟩

/-- The answer of the record store is true. -/
theorem publish_told {h : Host σ} {store : Id} {binding : ArtifactBinding} {ciphertext : Bytes}
    {st st' : Store (σ × List Io)} {publication : RecordPublication}
    (hrun : publish h.logged store binding ciphertext st = (.ok publication, st')) :
    Told h store binding ciphertext st st' publication := by
  obtain ⟨out, final, hrun', hanswer⟩ := publish_logged h store binding ciphertext st
  cases hrun.symm.trans hrun'
  cases publication with
  | Durable =>
    obtain ⟨⟨records, r, happends, hfile⟩, -, more, -, hlog⟩ := hanswer
    refine ⟨⟨records, r, happends, hfile⟩, more ++ [.Size true], [.Check true], ?_, ?_⟩
    · simp [hlog]
    · simp [Io.is_append]
  | NotPublished => exact hanswer.1.1
  | Unknown =>
    rcases hanswer.1 with hfile | ⟨records, r, happended⟩
    · exact ⟨[], by simp [hfile], .inl rfl⟩
    · obtain ⟨part, hpart, hfile⟩ := happended.part
      exact ⟨part, hfile, .inr ⟨r, happended.writes.of_logged, hpart⟩⟩

end

/-! ## The invariant of a run -/

section
variable {σ δ : Type} {o : Outside σ} {d : Decoder δ} {store : Id} {binding : ArtifactBinding}
  {data : Bytes} {start : Validator δ} {st : Store (σ × List Io)} {w w' : Work (σ × List Io) δ}
  {t : Trace} {e : Event}

/-- The parts of the workflow agree with the trace. -/
structure Agrees (d : Decoder δ) (data : Bytes) (start : Validator δ)
    (w : Work (σ × List Io) δ) (t : Trace) : Prop where
  memory : w.memory = Trace.stored t
  archive : w.data = data
  position : w.position ≤ data.length
  source : Trace.source_bytes t = data.take w.position
  checker : (∀ e ∈ t, e.failed = false) → start.feeds d (t.flatMap fed) = some w.validator

/-- What the events say of the archive and the file, for good. -/
structure Settled (o : Outside σ) (d : Decoder δ) (store : Id) (binding : ArtifactBinding)
    (data : Bytes) (start : Validator δ) (st : Store (σ × List Io)) (w : Work (σ × List Io) δ)
    (t : Trace) :
    Prop where
  still : Still t
  ended : ∀ before size buffer after, t = before ++ .Read size buffer (.ret (.ok 0)) :: after →
    0 < size → Trace.source_bytes before = data
  finished : ∀ before counts after, t = before ++ .Finish (.ret (.ok counts)) :: after →
    (∀ e ∈ before, e.failed = false) → start.passes d (before.flatMap fed) counts
  unpublished : Trace.publishes t = [] → SameFile st w.st
  published : ∀ before counts reply after, t = before ++ .Publish counts reply :: after →
    Trace.publishes before = [] → Trace.publishes after = [] →
    ∃ publication, reply = .ret (RecordPublication.outcome publication) ∧
      Told o.host store binding (Trace.stored before) st w.st publication ∧
      (publication = .Durable → counts.source_bytes = binding.source_bytes ∧
        counts.payload_bytes = binding.file_bytes ∧ counts.files = 1)

theorem SameFile.trans {st mid st' : Store (σ × List Io)} (h : SameFile st mid)
    (h' : SameFile mid st') : SameFile st st' := by
  obtain ⟨hfile, more, hlog, hno⟩ := h
  obtain ⟨hfile', more', hlog', hno'⟩ := h'
  refine ⟨hfile'.trans hfile, more ++ more', by rw [hlog', hlog, List.append_assoc], ?_⟩
  intro e he
  rcases List.mem_append.mp he with hold | hnew
  · exact hno e hold
  · exact hno' e hnew

/-- The file stays as it is. -/
theorem Settled.same (h : Settled o d store binding data start st w t)
    (hsame : SameFile w.st w'.st) :
    Settled o d store binding data start st w' t where
  still := h.still
  ended := h.ended
  finished := h.finished
  unpublished := fun hnone => (h.unpublished hnone).trans hsame
  published := by
    intro before counts reply after ht hbefore hafter
    obtain ⟨publication, hreply, htold, hcounts⟩ := h.published before counts reply after ht hbefore
      hafter
    exact ⟨publication, hreply, htold.after hsame, hcounts⟩

/-- One event more, that is no call of `publish`. -/
theorem Settled.snoc (h : Settled o d store binding data start st w t)
    (hstill : streams e = false ∨ Streams t) (hno : e.publish = [])
    (hended : ∀ size buffer, e = .Read size buffer (.ret (.ok 0)) → 0 < size →
      Trace.source_bytes t = data)
    (hfinished : ∀ counts, e = .Finish (.ret (.ok counts)) → (∀ e ∈ t, e.failed = false) →
      start.passes d (t.flatMap fed) counts)
    (hsame : SameFile w.st w'.st) : Settled o d store binding data start st w' (t ++ [e]) where
  still := h.still.snoc hstill
  ended := by
    intro before size buffer after ht hsize
    rcases split_snoc ht with ⟨rfl, he, -⟩ | ⟨rest, -, ht⟩
    · exact hended size buffer he.symm hsize
    · exact h.ended before size buffer rest ht hsize
  finished := by
    intro before counts after ht hfine
    rcases split_snoc ht with ⟨rfl, he, -⟩ | ⟨rest, -, ht⟩
    · exact hfinished counts he.symm hfine
    · exact h.finished before counts rest ht hfine
  unpublished := by
    intro hnone
    rw [Trace.publishes_snoc, hno, List.append_nil] at hnone
    exact (h.unpublished hnone).trans hsame
  published := by
    intro before counts reply after ht hbefore hafter
    rcases split_snoc ht with ⟨-, he, -⟩ | ⟨rest, rfl, hrest⟩
    · rw [← he] at hno
      cases hno
    · rw [Trace.publishes_snoc, hno, List.append_nil] at hafter
      exact (h.same hsame).published before counts reply rest hrest hbefore hafter

/-- The first call of `publish`. -/
theorem Settled.publish {counts : SealedCounts} (publication : RecordPublication)
    (h : Settled o d store binding data start st w t)
    (htold : SameFile st w.st → Told o.host store binding (Trace.stored t) st w'.st publication)
    (hcounts : publication = .Durable → counts.source_bytes = binding.source_bytes ∧
        counts.payload_bytes = binding.file_bytes ∧ counts.files = 1) :
    Settled o d store binding data start st w'
      (t ++ [.Publish counts (.ret (RecordPublication.outcome publication))]) where
  still := h.still.snoc (.inl rfl)
  ended := by
    intro before size buffer after ht hsize
    rcases split_snoc ht with ⟨-, he, -⟩ | ⟨rest, -, ht⟩
    · cases he
    · exact h.ended before size buffer rest ht hsize
  finished := by
    intro before counts after ht hfine
    rcases split_snoc ht with ⟨-, he, -⟩ | ⟨rest, -, ht⟩
    · cases he
    · exact h.finished before counts rest ht hfine
  unpublished := by
    intro hnone
    simp [Event.publish] at hnone
  published := by
    intro before counts' reply after ht hbefore hafter
    rcases split_snoc ht with ⟨rfl, he, -⟩ | ⟨rest, rfl, ht⟩
    · cases he
      exact ⟨publication, rfl, htold (h.unpublished hbefore), hcounts⟩
    · simp [Event.publish] at hafter

theorem Agrees.idle (h : Agrees d data start w t) (hw : Idle w w')
    (hv : w'.validator = w.validator) : Agrees d data start w' t where
  memory := hw.memory.trans h.memory
  archive := hw.data.trans h.archive
  position := hw.position ▸ h.position
  source := hw.position ▸ h.source
  checker := fun hfine => hv ▸ h.checker hfine

theorem no_failure_of_snoc {P : Event → Prop} (h : ∀ e' ∈ t ++ [e], P e') :
    (∀ e' ∈ t, P e') ∧ P e :=
  ⟨fun e' he' => h e' (List.mem_append_left _ he'), h e (by simp)⟩

/-- A call keeps both, before the guard cleans up. -/
theorem Effect.agrees (he : Effect o d store binding w w' e) (h : Agrees d data start w t)
    (hcancel : e.cancel = []) (habort : e.abort = []) : Agrees d data start w' (t ++ [e]) := by
  cases he with
  | idle hneutral hw hv =>
    refine ⟨?_, hw.data.trans h.archive, hw.position ▸ h.position, ?_, ?_⟩
    · simp [hneutral.no_stored, hw.memory, h.memory]
    · simp [hneutral.no_source, hw.position, h.source]
    · intro hfine
      obtain ⟨hold, hnew⟩ := no_failure_of_snoc hfine
      rcases hv with hv | hfailed
      · simpa [hneutral.no_fed, hv] using h.checker hold
      · simp [hfailed] at hnew
  | read mid hw hv hbuffer hafter =>
    rename_i size buffer
    have hmid := h.idle hw hv
    have hpiece : (mid.piece size).length ≤ data.length - mid.position := by
      rw [Work.piece, hmid.archive]
      simp only [List.length_take, List.length_drop]
      omega
    have hposition := hmid.position
    subst hafter
    refine ⟨?_, hmid.archive, ?_, ?_, ?_⟩
    · simp [Event.stored, hmid.memory]
    · simp only
      omega
    · have hdrop : mid.piece size = (data.drop mid.position).take (mid.piece size).length := by
        conv_lhs => rw [Work.piece, hmid.archive]
        rw [Work.piece, hmid.archive, List.length_take, List.take_eq_take_min]
      simp only [Trace.source_bytes_snoc, Event.source_bytes, hbuffer, hmid.source]
      conv_lhs => rw [hdrop]
      rw [← List.take_add]
    · intro hfine
      obtain ⟨hold, -⟩ := no_failure_of_snoc hfine
      simpa [backups.fed] using hmid.checker hold
  | fed hw hfeed =>
    refine ⟨?_, hw.data.trans h.archive, hw.position ▸ h.position, ?_, ?_⟩
    · simp [Event.stored, hw.memory, h.memory]
    · simp [Event.source_bytes, hw.position, h.source]
    · intro hfine
      obtain ⟨hold, -⟩ := no_failure_of_snoc hfine
      simpa [backups.fed] using Validator.feeds_snoc (h.checker hold) hfeed
  | finished hw hv hfinish =>
    refine ⟨?_, hw.data.trans h.archive, hw.position ▸ h.position, ?_, ?_⟩
    · simp [Event.stored, hw.memory, h.memory]
    · simp [Event.source_bytes, hw.position, h.source]
    · intro hfine
      obtain ⟨hold, -⟩ := no_failure_of_snoc hfine
      simpa [backups.fed, hv] using h.checker hold
  | written mid hw hv hafter =>
    have hmid := h.idle hw hv
    subst hafter
    refine ⟨?_, hmid.archive, hmid.position, ?_, ?_⟩
    · simp [Event.stored, hmid.memory]
    · simp [Event.source_bytes, hmid.source]
    · intro hfine
      obtain ⟨hold, -⟩ := no_failure_of_snoc hfine
      simpa [backups.fed] using hmid.checker hold
  | cancelled hafter => cases hcancel
  | aborted hafter => cases habort
  | refused hafter =>
    subst hafter
    exact ⟨by simpa [Event.stored] using h.memory, h.archive, h.position,
      by simpa [Event.source_bytes] using h.source, fun hfine => by
        simpa [backups.fed] using h.checker (no_failure_of_snoc hfine).1⟩
  | published hsource hpayload hfiles hrun hafter =>
    subst hafter
    exact ⟨by simpa [Event.stored] using h.memory, h.archive, h.position,
      by simpa [Event.source_bytes] using h.source, fun hfine => by
        simpa [backups.fed] using h.checker (no_failure_of_snoc hfine).1⟩

/-- A read that ends the archive has all of it before. -/
theorem source_of_end {size : Nat} (h : Agrees d data start w t) (hsize : 0 < size)
    (hpiece : (w.piece size).length = 0) : Trace.source_bytes t = data := by
  have hposition := h.position
  rw [Work.piece, h.archive, List.length_take, List.length_drop] at hpiece
  rw [h.source, List.take_of_length_le (by omega)]

theorem Effect.settled (he : Effect o d store binding w w' e) (h : Agrees d data start w t)
    (hs : Settled o d store binding data start st w t) (hstill : streams e = false ∨ Streams t) :
    Settled o d store binding data start st w' (t ++ [e]) := by
  cases he with
  | idle hneutral hw hv =>
    apply hs.snoc hstill hneutral.no_publish _ _ hw.sameFile
    · exact fun size buffer heq hsize => absurd heq (hneutral.no_end size buffer hsize)
    · exact fun counts heq => absurd heq (hneutral.no_finish counts)
  | read mid hw hv hbuffer hafter =>
    apply hs.snoc hstill rfl
    · intro size' buffer' heq hsize
      simp only [Event.Read.injEq, Reply.ret.injEq, Except.ok.injEq] at heq
      obtain ⟨rfl, -, hzero⟩ := heq
      exact source_of_end (h.idle hw hv) hsize hzero
    · intro counts heq
      cases heq
    · exact hw.sameFile.trans (hafter ▸ SameFile.refl _)
  | fed hw hfeed =>
    apply hs.snoc hstill rfl _ _ hw.sameFile
    · rintro size buffer ⟨⟩
    · rintro counts ⟨⟩
  | finished hw hv hfinish =>
    apply hs.snoc hstill rfl _ _ hw.sameFile
    · rintro size buffer ⟨⟩
    · rintro counts ⟨⟩ hfine
      exact ⟨_, h.checker hfine, hfinish⟩
  | written mid hw hv hafter =>
    apply hs.snoc hstill rfl
    · rintro size buffer ⟨⟩
    · rintro counts ⟨⟩
    · exact hw.sameFile.trans (hafter ▸ SameFile.refl _)
  | cancelled hafter =>
    apply hs.snoc hstill rfl
    · rintro size buffer ⟨⟩
    · rintro counts ⟨⟩
    · exact hafter ▸ SameFile.refl _
  | aborted hafter =>
    apply hs.snoc hstill rfl
    · rintro size buffer ⟨⟩
    · rintro counts ⟨⟩
    · exact hafter ▸ SameFile.refl _
  | refused hafter =>
    subst hafter
    apply hs.publish .NotPublished
    · exact fun hsame => hsame.1
    · rintro ⟨⟩
  | published hsource hpayload hfiles hrun hafter =>
    subst hafter
    apply hs.publish _
    · intro hsame
      rw [← h.memory]
      exact (publish_told hrun).before hsame
    · exact fun _ => ⟨hsource, hpayload, hfiles⟩

/-! ## The phases of a run -/

/-- An event that is only noted, or a call that only asks. -/
theorem neutral_of_quiet (he : e.source_bytes = [] ∧ e.stored = [] ∧ fed e = [] ∧ e.publish = [] ∧
      e.cancel = [] ∧ e.abort = []) (hread : e.is_read = false)
    (hfinish : ∀ counts, e ≠ .Finish (.ret (.ok counts))) : Neutral e where
  no_source := he.1
  no_stored := he.2.1
  no_fed := he.2.2.1
  no_publish := he.2.2.2.1
  no_cancel := he.2.2.2.2.1
  no_abort := he.2.2.2.2.2
  no_end := by
    rintro size buffer - rfl
    cases hread
  no_finish := hfinish

theorem noted_effect (he : Neutral e) (w : Work (σ × List Io) δ) :
    Effect o d store binding w w e :=
  .idle he (Idle.refl w) (.inl rfl)

/-- The cipher is at work. -/
structure Sealing (o : Outside σ) (d : Decoder δ) (store : Id) (binding : ArtifactBinding)
    (data : Bytes)
    (start : Validator δ) (st : Store (σ × List Io)) (w : Work (σ × List Io) δ) (t : Trace) :
    Prop where
  streams : Streams t
  agrees : Agrees d data start w t
  settled : Settled o d store binding data start st w t

/-- The cipher has returned. -/
structure Publishing (o : Outside σ) (d : Decoder δ) (store : Id) (binding : ArtifactBinding)
    (data : Bytes)
    (start : Validator δ) (st : Store (σ × List Io)) (w : Work (σ × List Io) δ) (t : Trace) :
    Prop where
  agrees : Agrees d data start w t
  settled : Settled o d store binding data start st w t

theorem Sealing.step (h : Sealing o d store binding data start st w t)
    (he : Effect o d store binding w w' e) (hencrypted : encrypted e = false)
    (hcancel : e.cancel = []) (habort : e.abort = []) :
    Sealing o d store binding data start st w' (t ++ [e]) where
  streams := h.streams.snoc hencrypted
  agrees := he.agrees h.agrees hcancel habort
  settled := he.settled h.agrees h.settled (.inr h.streams)

theorem Sealing.idle (h : Sealing o d store binding data start st w t) (hw : Idle w w')
    (hv : w'.validator = w.validator) : Sealing o d store binding data start st w' t where
  streams := h.streams
  agrees := h.agrees.idle hw hv
  settled := h.settled.same hw.sameFile

theorem Publishing.step (h : Publishing o d store binding data start st w t)
    (he : Effect o d store binding w w' e) (hstreams : streams e = false)
    (hcancel : e.cancel = []) (habort : e.abort = []) :
    Publishing o d store binding data start st w' (t ++ [e]) where
  agrees := he.agrees h.agrees hcancel habort
  settled := he.settled h.agrees h.settled (.inl hstreams)

theorem now_effect (w : Work (σ × List Io) δ) (now : Nat) :
    Effect o d store binding w (w.outside o.logged.now_ms).2 (.Now (.ret now)) :=
  .idle (neutral_of_quiet ⟨rfl, rfl, rfl, rfl, rfl, rfl⟩ rfl (by rintro counts ⟨⟩))
    (outside_idle o.now_ms w) (.inl rfl)

theorem recorded_effect (failure : SealFailure) (w : Work (σ × List Io) δ) :
    Effect o d store binding w w (.Recorded failure) :=
  noted_effect (neutral_of_quiet ⟨rfl, rfl, rfl, rfl, rfl, rfl⟩ rfl (by rintro counts ⟨⟩)) w

theorem read_event_plain (output : Bytes) (reply : Reply (ReadReply output.length)) :
    encrypted (read_event output reply) = false ∧ (read_event output reply).cancel = [] ∧
      (read_event output reply).abort = [] := by
  cases reply with
  | ret reply => exact ⟨rfl, rfl, rfl⟩
  | unwind => exact ⟨rfl, rfl, rfl⟩

theorem sealing_streaming :
    Streaming (work_ports o.logged d store binding) (Sealing o d store binding data start st) where
  now_ms := fun w _ h => h.step (now_effect w _) rfl rfl rfl
  recorded := fun failure w _ h => h.step (recorded_effect failure w) rfl rfl rfl
  capabilities := by
    intro w t h
    refine h.step (noted_effect ?_ w) rfl rfl rfl
    exact neutral_of_quiet ⟨rfl, rfl, rfl, rfl, rfl, rfl⟩ rfl (by rintro counts ⟨⟩)
  read := by
    intro output w t h
    obtain ⟨hencrypted, hcancel, habort⟩ := read_event_plain output (Work.read o.logged output w).1
    exact h.step (read_effect output) hencrypted hcancel habort
  feed := fun bytes _ _ h => h.step (feed_effect bytes) rfl rfl rfl
  write := fun input _ _ h => h.step (write_effect input) rfl rfl rfl
  flush := fun _ _ h => h.step (flush_effect) rfl rfl rfl
  cipher_step := fun w _ h => h.idle (outside_idle o.cipher_step w) rfl
  cipher_told := fun _ _ _ h => h.idle ⟨rfl, rfl, rfl, rfl, [], by
    simp [work_ports, Outside.logged], by simp⟩ rfl
  asked := by
    intro input w t h
    refine h.step (noted_effect ?_ w) rfl rfl rfl
    exact neutral_of_quiet ⟨rfl, rfl, rfl, rfl, rfl, rfl⟩ rfl (by rintro counts ⟨⟩)
  returned := by
    intro bytes w t h
    refine h.step (noted_effect ?_ w) rfl rfl rfl
    exact neutral_of_quiet ⟨rfl, rfl, rfl, rfl, rfl, rfl⟩ rfl (by rintro counts ⟨⟩)

theorem publishing_closing :
    Closing (work_ports o.logged d store binding) (Publishing o d store binding data start st) where
  now_ms := fun w _ h => h.step (now_effect w _) rfl rfl rfl
  recorded := fun failure w _ h => h.step (recorded_effect failure w) rfl rfl rfl
  finish := fun _ _ h => h.step (finish_effect) rfl rfl rfl
  complete := fun _ _ h => h.step (complete_effect) rfl rfl rfl
  flush := fun _ _ h => h.step (flush_effect) rfl rfl rfl
  publish := fun counts _ _ h => h.step (publish_effect counts) rfl rfl rfl

/-- What the guard does to the archive and the ciphertext is not seen in the file. -/
theorem settled_cleaning :
    Cleaning (work_ports o.logged d store binding) (Settled o d store binding data start st) where
  cancel := by
    intro w t h
    apply h.snoc (.inl rfl) rfl
    · rintro size buffer ⟨⟩
    · rintro counts ⟨⟩
    · exact SameFile.refl w.st
  abort := by
    intro w t h
    apply h.snoc (.inl rfl) rfl
    · rintro size buffer ⟨⟩
    · rintro counts ⟨⟩
    · exact SameFile.refl w.st

theorem capture_phases : Phases (work_ports o.logged d store binding)
    (Sealing o d store binding data start st) (Publishing o d store binding data start st)
    (Settled o d store binding data start st) where
  streaming := sealing_streaming
  closing := publishing_closing
  cleaning := settled_cleaning
  encrypted := by
    intro result w t h
    have he : Effect o d store binding w w (.Encrypted result) :=
      noted_effect (neutral_of_quiet ⟨rfl, rfl, rfl, rfl, rfl, rfl⟩ rfl (by rintro counts ⟨⟩)) w
    exact ⟨he.agrees h.agrees rfl rfl, he.settled h.agrees h.settled (.inl rfl)⟩
  unwound := by
    intro w t h
    have he : Effect o d store binding w w .EncryptUnwound :=
      noted_effect (neutral_of_quiet ⟨rfl, rfl, rfl, rfl, rfl, rfl⟩ rfl (by rintro counts ⟨⟩)) w
    exact he.settled h.agrees h.settled (.inl rfl)
  stopped := fun _ _ h => h.settled
  closed := fun _ _ h => h.settled

/-- Before the first call. -/
theorem sealing_start (o : Outside σ) (d : Decoder δ) (store : Id) (binding : ArtifactBinding)
    (data : Bytes)
    (start : Validator δ) (st : Store (σ × List Io)) :
    Sealing o d store binding data start st
      { st := st, data := data, position := 0, memory := [], validator := start } [] where
  streams := by simp [Streams]
  agrees := ⟨rfl, rfl, by simp, by simp [Trace.source_bytes], fun _ => rfl⟩
  settled := by
    refine ⟨?_, ?_, ?_, fun _ => SameFile.refl _, ?_⟩
    · simp [Still]
    · simp
    · simp
    · simp

end

/-! ## The outcome -/

section
variable {σ δ : Type}

/-- The bytes that the stage took from the cipher. -/
def cipher_wrote (o : Outside σ) (d : Decoder δ) (store : Id) (capture : CapturedArchive)
    (steps : Nat) (st : Store σ) : Bytes :=
  match seal_start o δ capture st with
  | (.ok validator, st) => Trace.stored (seal_run o d store capture validator steps st).2.trace
  | (.error _, _) => []

/-- The whole capture passed the check, in some chunks, with the counts of its binding. -/
def Checked (d : Decoder δ) (capture : CapturedArchive) (inspection : BackupInspection) : Prop :=
  ∃ validator chunks summary, Validator.new δ capture.binding = .ok validator ∧
    chunks.flatten = capture.bytes ∧ validator.passes d chunks summary ∧
    summary.source_bytes = capture.binding.source_bytes ∧
    summary.payload_bytes = capture.binding.file_bytes ∧ summary.files = 1 ∧
    inspection = ⟨capture.binding.source_bytes, capture.binding.file_bytes, 1⟩

/-- What an outcome of `seal_capture` says of the file and of the archive. -/
def Truthful (h : Host σ) (d : Decoder δ) (store : Id) (capture : CapturedArchive)
    (ciphertext : Bytes)
    (st st' : Store (σ × List Io)) : Option (Except BackupFailure BackupInspection) → Prop
  | none => True
  | some (.ok inspection) => Told h store capture.binding ciphertext st st' .Durable ∧
      Checked d capture inspection
  | some (.error failure) => Told h store capture.binding ciphertext st st' failure.publication

variable {o : Outside σ} {d : Decoder δ} {store : Id} {binding : ArtifactBinding}
  {data : Bytes} {start : Validator δ} {st : Store (σ × List Io)} {w : Work (σ × List Io) δ}
  {t : Trace} {limits : SealLimits}

/-- The summary of the check is about all that the source returned. -/
theorem checked_of_ready {counts : SealedCounts} {before after : Trace} {e : Event}
    (hs : Settled o d store binding data start st w (before ++ e :: after))
    (hready : Ready limits counts before) :
    ∃ chunks summary, chunks.flatten = data ∧ start.passes d chunks summary ∧
      counts.source_bytes = summary.source_bytes ∧ counts.payload_bytes = summary.payload_bytes ∧
      counts.files = summary.files := by
  obtain ⟨caps, summary, -, -, -, hsource, hsteps, hcounts⟩ := hready.steps
  obtain ⟨first, size, buffer, last, hbefore, hsize, hreturned, -⟩ := hready.complete
  have hwhole : Trace.accepted before = data := by
    rw [← hready.checked, ← hreturned]
    exact hs.ended first size buffer (last ++ e :: after) (by simp [hbefore]) hsize
  -- the cipher has returned before the check ends, and nothing is fed after that
  obtain ⟨result, htwo⟩ : ∃ result,
      [.Encrypted result, .Finish (.ret (.ok summary))].Sublist before :=
    ⟨_, (List.Sublist.cons _ (.cons_cons _ (.cons_cons _ (List.nil_sublist _)))).trans hsteps⟩
  obtain ⟨early, between, late, hsplit⟩ := split_of_sublist htwo
  have hstill :=
    hs.still early result (between ++ .Finish (.ret (.ok summary)) :: (late ++ e :: after))
    (by rw [hsplit]; simp)
  have hbetween : Trace.accepted between = [] :=
    accepted_of_still fun e' he' => hstill e' (by simp [he'])
  have hlate : Trace.accepted late = [] :=
    accepted_of_still fun e' he' => hstill e' (by simp [he'])
  refine ⟨_, summary, ?_, hs.finished (early ++ .Encrypted result :: between) summary
    (late ++ e :: after) (by rw [hsplit]; simp) ?_, by rw [hcounts, hsource], by rw [hcounts],
    by rw [hcounts]⟩
  · rw [fed_flatten, ← hwhole, hsplit]
    simp only [Trace.accepted] at hbetween hlate
    simp [Trace.accepted, Event.accepted, hbetween, hlate]
  · intro e' he'
    refine hready.no_failure e' ?_
    rw [hsplit]
    simp only [List.mem_append, List.mem_cons] at he' ⊢
    tauto

/-- The bytes that were stored before the publication are all. -/
theorem stored_of_ready {counts : SealedCounts} {before after : Trace} {e : Event}
    (hs : Settled o d store binding data start st w (before ++ e :: after)) (he : e.stored = [])
    (hready : Ready limits counts before) :
    Trace.stored (before ++ e :: after) = Trace.stored before := by
  obtain ⟨caps, summary, -, -, -, -, hsteps, -⟩ := hready.steps
  obtain ⟨result, hone⟩ : ∃ result, .Encrypted result ∈ before :=
    ⟨_, hsteps.subset (List.mem_cons_of_mem _ List.mem_cons_self)⟩
  obtain ⟨early, late, hsplit⟩ := List.append_of_mem hone
  have hstill := hs.still early result (late ++ e :: after) (by rw [hsplit]; simp)
  have hafter : Trace.stored after = [] :=
    stored_of_still fun e' he' => hstill e' (by simp [he'])
  simp only [Trace.stored] at hafter ⊢
  simp [he, hafter]

/-- What the call of `publish` says, of the file and of the archive. -/
theorem Settled.outcome (hs : Settled o d store binding data start st w t) (hp : Published limits t)
    {before after : Trace} {counts : SealedCounts} {reply : Reply PublishOutcome}
    (ht : t = before ++ .Publish counts reply :: after) :
    ∃ publication, reply = .ret (RecordPublication.outcome publication) ∧
      Told o.host store binding (Trace.stored t) st w.st publication ∧
      (publication = .Durable → ∃ chunks summary, chunks.flatten = data ∧
        start.passes d chunks summary ∧ summary.source_bytes = binding.source_bytes ∧
        summary.payload_bytes = binding.file_bytes ∧ summary.files = 1 ∧
        counts.source_bytes = binding.source_bytes ∧ counts.payload_bytes = binding.file_bytes ∧
        counts.files = 1) := by
  obtain ⟨hbefore, hafter, hready⟩ := hp before counts reply after ht
  subst ht
  obtain ⟨publication, hreply, htold, hcounts⟩ := hs.published before counts reply after rfl
    (Trace.publishes_of_unpublished hbefore) (Trace.publishes_of_unpublished hafter)
  refine ⟨publication, hreply, ?_, ?_⟩
  · rw [stored_of_ready hs rfl hready]
    exact htold
  · intro hdurable
    obtain ⟨hsource, hpayload, hfiles⟩ := hcounts hdurable
    obtain ⟨chunks, summary, hchunks, hpasses, h1, h2, h3⟩ := checked_of_ready hs hready
    exact ⟨chunks, summary, hchunks, hpasses, h1 ▸ hsource, h2 ▸ hpayload, h3 ▸ hfiles, hsource,
      hpayload, hfiles⟩

theorem check_same (st : Store (σ × List Io)) : SameFile st (check o.logged.host st).2 :=
  ⟨rfl, [_], rfl, by simp [Io.is_append]⟩

theorem seal_start_same {capture : CapturedArchive} {result : Except BackupError (Validator δ)}
    {st' : Store (σ × List Io)} (h : seal_start o.logged δ capture st = (result, st')) :
    SameFile st st' ∧ ∀ validator, result = .ok validator →
      Validator.new δ capture.binding = .ok validator := by
  have hfirst := check_same (o := o) st
  unfold seal_start at h
  change Prog.bind (check o.logged.host) _ st = _ at h
  unfold Prog.bind at h
  cases hc : check o.logged.host st with
  | mk answer mid =>
    rw [hc] at h hfirst
    cases answer with
    | error e =>
      cases h
      exact ⟨hfirst, by simp⟩
    | ok _ =>
      have hsecond := check_same (o := o) mid
      change Prog.bind (check o.logged.host) _ mid = _ at h
      unfold Prog.bind at h
      cases hc' : check o.logged.host mid with
      | mk answer' last =>
        rw [hc'] at h hsecond
        cases answer' with
        | error e =>
          cases h
          exact ⟨hfirst.trans hsecond, by simp⟩
        | ok _ =>
          change Prog.lift (Validator.new δ capture.binding) last = _ at h
          unfold Prog.lift at h
          refine ⟨?_, ?_⟩
          · cases hv : Validator.new δ capture.binding with
            | error e =>
              rw [hv] at h
              cases h
              exact hfirst.trans hsecond
            | ok validator =>
              rw [hv] at h
              cases h
              exact hfirst.trans hsecond
          · rintro validator rfl
            cases hv : Validator.new δ capture.binding with
            | error e =>
              rw [hv] at h
              cases h
            | ok validator =>
              rw [hv] at h
              cases h
              rfl

/-- A run of the sealer that returns says the truth. -/
theorem seal_run_truthful {capture : CapturedArchive} {steps : Nat}
    {result : Except SealFailureReport SealedCounts} {run : Run (Work (σ × List Io) δ)}
    (hnew : Validator.new δ capture.binding = .ok start)
    (hrun : seal_run o.logged d store capture start steps st = (.returned result, run)) :
    match result with
    | .ok counts =>
      Told o.host store capture.binding (Trace.stored run.trace) st run.world.st .Durable ∧
        Checked d capture ⟨counts.source_bytes, counts.payload_bytes, counts.files⟩
    | .error report => Told o.host store capture.binding (Trace.stored run.trace) st run.world.st
        (Publication.record report.publication) := by
  have hs : Settled o d store capture.binding capture.bytes start st run.world run.trace := by
    have hend := capture_phases.holds capture_sealer steps
      (sealing_start o d store capture.binding capture.bytes start st)
    unfold seal_run at hrun
    rw [hrun] at hend
    exact hend
  have hp : Published capture_sealer.limits run.trace := by
    have hkept := seal_kept capture_sealer (work_ports o.logged d store capture.binding) steps
      { st := st, data := capture.bytes, position := 0, memory := [], validator := start }
    unfold seal_run at hrun
    rw [hrun] at hkept
    exact hkept
  have hanswers : Answers capture_sealer.limits run result := seal_answers hrun
  cases result with
  | ok counts =>
    obtain ⟨before, now, after, htrace, -⟩ := (hanswers.1.confirms counts).mpr rfl
    obtain ⟨publication, hreply, htold, hchecked⟩ := hs.outcome hp htrace
    cases publication with
    | Durable =>
      obtain ⟨chunks, summary, hchunks, hpasses, h1, h2, h3, h4, h5, h6⟩ := hchecked rfl
      refine ⟨htold, start, chunks, summary, hnew, hchunks, hpasses, h1, h2, h3, ?_⟩
      rw [h4, h5, h6]
    | NotPublished => cases hreply
    | Unknown => cases hreply
  | error report =>
    obtain ⟨hheld, -, -, hpublication, -⟩ := hanswers
    simp only [hpublication, hheld.tracked.publication]
    cases hlast : Trace.publishes run.trace with
    | nil =>
      have hfile := hs.unpublished hlast
      simp only [Trace.publication, hlast, List.getLast?_nil, Option.elim_none]
      exact hfile.1
    | cons reply rest =>
      have hone : rest = [] := by
        have := hheld.tracked.publish_once
        simpa [hlast] using this
      subst hone
      obtain ⟨e, he, hreply⟩ := List.mem_flatMap.mp (hlast ▸ List.mem_singleton_self reply :
        reply ∈ Trace.publishes run.trace)
      obtain ⟨before, after, htrace⟩ := List.append_of_mem he
      cases e with
      | Publish counts reply' =>
        obtain rfl : reply = reply' := by simpa [Event.publish] using hreply
        obtain ⟨publication, rfl, htold, -⟩ := hs.outcome hp htrace
        simp only [Trace.publication, hlast, List.getLast?_singleton, Option.elim_some,
          Reply.publication]
        cases publication with
        | Durable => exact htold
        | NotPublished => exact htold
        | Unknown => exact htold
      | _ => cases hreply

theorem seal_capture_truthful (o : Outside σ) (d : Decoder δ) (store : Id)
    (capture : CapturedArchive) (steps : Nat) (st : Store (σ × List Io)) :
    Truthful o.host d store capture (cipher_wrote o.logged d store capture steps st) st
      (seal_capture o.logged d store capture steps st).2
      (seal_capture o.logged d store capture steps st).1 := by
  unfold seal_capture cipher_wrote
  cases hstart : seal_start o.logged δ capture st with
  | mk result mid =>
    obtain ⟨hsame, hnew⟩ := seal_start_same hstart
    cases result with
    | error cause => exact hsame.1
    | ok validator =>
      simp only
      cases hrun : seal_run o.logged d store capture validator steps mid with
      | mk ended run =>
        cases ended with
        | returned result =>
          have htruth := seal_run_truthful (hnew validator rfl) hrun
          cases result with
          | ok counts => exact ⟨htruth.1.before hsame, htruth.2⟩
          | error report =>
            have hlast := check_same (o := o) run.world.st
            simp only
            cases hc : check o.logged.host run.world.st with
            | mk answer last =>
              rw [hc] at hlast
              cases answer with
              | error cause => exact (htruth.before hsame).after hlast
              | ok _ => exact (htruth.before hsame).after hlast
        | unwound => trivial
        | aborted => trivial
        | running => trivial

end

/-- The law of `seal_capture`. -/
theorem the_outcome_of_seal_capture_is_the_truth {σ δ : Type} (o : Outside σ) (d : Decoder δ)
    (store : Id) (capture : CapturedArchive) (steps : Nat) (st : Store (σ × List Io)) :
    Truthful o.host d store capture (cipher_wrote o.logged d store capture steps st) st
      (seal_capture o.logged d store capture steps st).2
      (seal_capture o.logged d store capture steps st).1 :=
  seal_capture_truthful o d store capture steps st

end openwrt_mcp_adapters.backups
