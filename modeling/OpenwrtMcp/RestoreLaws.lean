-- What was sealed comes back: a capture that was sealed is inspected again from its record, with
-- the same result, from then on and after any further captures.
import Mathlib
import OpenwrtMcp.GzipMember
import OpenwrtMcp.Restore

open programs slices text openwrt_mcp_runtime.backups openwrt_mcp_runtime.sealing
open openwrt_mcp_device_codec.archive openwrt_mcp_device_codec.gzip

namespace openwrt_mcp_adapters.backups

/-! ## The check in other chunks -/

section
variable {δ : Type} {d : Decoder δ} {F : Format} {At : δ → Bytes → Bytes → Prop}
  {expected : ExpectedArchive} {bytes : Bytes} {pieces pieces' : List Bytes}

/-- The bytes pass the check, in whatever chunks. -/
def Passes (F : Format) (expected : ExpectedArchive) (format : ArchiveFormat) (bytes : Bytes)
    (counts : CheckCounts) : Prop :=
  match format with
  | .Tar => ∃ v summary, archive_after expected bytes = some v ∧ v.finish = .ok summary ∧
      counts = ⟨summary.archive_bytes, summary.archive_bytes, summary.payload_bytes, summary.files⟩
  | .Gzip => ∃ summary, Takes F expected bytes summary ∧
      counts = ⟨summary.compressed_bytes, summary.archive_bytes, summary.payload_bytes,
        summary.files⟩

theorem port_result_ok {ε α : Type} {x : Except ε α} {a : α} : port_result x = .ok a ↔
    x = .ok a := by
  cases x with
  | error e => simp [port_result]
  | ok b => simp [port_result]

/-- A chunk that is taken is not too long. -/
theorem feed_chunk_le {v : Validator δ} {chunk : Bytes} (hok : (v.feed d chunk).2 = .ok ()) :
    chunk.length ≤ 65536 := by
  cases v with
  | Tar v =>
    have hfeed : (v.feed chunk).2 = .ok () := port_result_ok.mp hok
    unfold ArchiveValidator.feed at hfeed
    cases hf : v.failure with
    | some e => simp [hf] at hfeed
    | none =>
      simp only [hf] at hfeed
      unfold feed_inner at hfeed
      by_contra hlong
      rw [if_pos (by unfold openwrt_mcp_device_codec.archive.MAX_CHUNK_BYTES; omega)] at hfeed
      cases hfeed
  | Gzip v =>
    have hfeed : (v.feed d chunk).2 = .ok () := port_result_ok.mp hok
    unfold GzipArchiveValidator.feed at hfeed
    cases hf : v.failure with
    | some e => simp [hf] at hfeed
    | none =>
      simp only [hf] at hfeed
      by_contra hlong
      have hstop : gzip_feed_inner d chunk v = (.error .LimitExceeded, v) := by
        unfold gzip_feed_inner
        rw [if_pos (by unfold openwrt_mcp_device_codec.gzip.MAX_CHUNK_BYTES; omega)]
        rfl
      rw [hstop] at hfeed
      cases hfeed

theorem feeds_chunks_le {v last : Validator δ} (h : v.feeds d pieces = some last) :
    ∀ piece ∈ pieces, piece.length ≤ 65536 := by
  induction pieces generalizing v with
  | nil => simp
  | cons piece rest ih =>
    unfold Validator.feeds at h
    split at h
    · rename_i v' hfeed
      intro p hp
      rcases List.mem_cons.mp hp with rfl | hp
      · exact feed_chunk_le (by rw [hfeed])
      · exact ih h p hp
    · cases h

theorem tar_feeds {v : ArchiveValidator} (hv : archive_after expected bytes = some v)
    (hc : ∀ piece ∈ pieces, piece.length ≤ 65536) :
    (Validator.Tar v).feeds d pieces =
      (archive_after expected (bytes ++ pieces.flatten)).map .Tar := by
  induction pieces generalizing v bytes with
  | nil => simp [Validator.feeds, hv]
  | cons piece rest ih =>
    obtain ⟨hpiece, hrest⟩ := List.forall_mem_cons.mp hc
    rw [List.flatten_cons, ← List.append_assoc]
    unfold Validator.feeds
    rcases archive_after_feed hv hpiece with ⟨v', hv', hfeed⟩ | ⟨hnone, e, he⟩
    · simp only [Validator.feed, hfeed, port_result]
      exact ih hv' hrest
    · have hwhole : archive_after expected (bytes ++ piece ++ rest.flatten) = none := by
        by_contra hsome
        exact archive_after_prefix (List.prefix_append _ _) hsome hnone
      rw [hwhole]
      simp [Validator.feed, he, port_result]

theorem gzip_feeds (hd : Faithful d F At) {v : GzipArchiveValidator δ}
    (hv : Reads F At expected bytes v) (hc : ∀ piece ∈ pieces, piece.length ≤ 65536) :
    (∃ v', (Validator.Gzip v).feeds d pieces = some (.Gzip v') ∧
      Reads F At expected (bytes ++ pieces.flatten) v') ∨
    ((Validator.Gzip v).feeds d pieces = none ∧ Refused F expected (bytes ++ pieces.flatten)) := by
  induction pieces generalizing v bytes with
  | nil => exact .inl ⟨v, rfl, by simpa using hv⟩
  | cons piece rest ih =>
    obtain ⟨hpiece, hrest⟩ := List.forall_mem_cons.mp hc
    rw [List.flatten_cons, ← List.append_assoc]
    unfold Validator.feeds
    rcases feed_reads hd hv hpiece with ⟨v', hfeed, hv'⟩ | ⟨⟨v', e, hfeed, -⟩, hrefused⟩
    · simp only [Validator.feed, hfeed, port_result]
      exact ih hv' hrest
    · refine .inr ⟨by simp [Validator.feed, hfeed, port_result], ?_⟩
      exact fun whole summary hw => hrefused whole summary ((List.prefix_append _ _).trans hw)

/-- Whether the check passes does not depend on the chunks. -/
theorem passes_iff (hd : Faithful d F At) {binding : ArtifactBinding} {v : Validator δ}
    (hexpected : expected_archive binding = .ok expected)
    (hnew : Validator.new δ binding = .ok v) (hc : ∀ piece ∈ pieces, piece.length ≤ 65536)
    (counts : CheckCounts) :
    v.passes d pieces counts ↔ Passes F expected binding.format pieces.flatten counts := by
  unfold Validator.new at hnew
  rw [hexpected] at hnew
  unfold Validator.passes Passes
  cases hformat : binding.format with
  | Tar =>
    simp only [hformat] at hnew ⊢
    cases hnew
    rw [tar_feeds (archive_after_nil expected) hc, List.nil_append]
    constructor
    · rintro ⟨last, hlast, hfinish⟩
      obtain ⟨w, hw, rfl⟩ := Option.map_eq_some_iff.mp hlast
      cases hf : w.finish with
      | error e => simp [Validator.finish, hf, port_result, Except.map] at hfinish
      | ok summary =>
        simp only [Validator.finish, hf, port_result, Except.map, Except.ok.injEq] at hfinish
        exact ⟨w, summary, hw, hf, hfinish.symm⟩
    · rintro ⟨w, summary, hw, hf, rfl⟩
      exact ⟨.Tar w, by rw [hw]; rfl, by simp [Validator.finish, hf, port_result, Except.map]⟩
  | Gzip =>
    simp only [hformat] at hnew ⊢
    cases hnew
    have hfeeds := gzip_feeds hd (reads_new F At expected) hc
    rw [List.nil_append] at hfeeds
    constructor
    · rintro ⟨last, hlast, hfinish⟩
      rcases hfeeds with ⟨w, hw, hreads⟩ | ⟨hnone, -⟩
      · rw [hw] at hlast
        cases hlast
        cases hf : w.finish with
        | error e => simp [Validator.finish, hf, port_result, Except.map] at hfinish
        | ok summary =>
          simp only [Validator.finish, hf, port_result, Except.map, Except.ok.injEq] at hfinish
          exact ⟨summary, (finish_reads hreads summary).mp hf, hfinish.symm⟩
      · rw [hnone] at hlast
        cases hlast
    · rintro ⟨summary, htakes, rfl⟩
      rcases hfeeds with ⟨w, hw, hreads⟩ | ⟨-, hrefused⟩
      · have hf := (finish_reads hreads summary).mpr htakes
        exact ⟨.Gzip w, hw, by simp [Validator.finish, hf, port_result, Except.map]⟩
      · exact absurd htakes (hrefused _ summary (List.prefix_refl _))

/-- The same bytes pass in other chunks. -/
theorem passes_again (hd : Faithful d F At) {binding : ArtifactBinding} {v : Validator δ}
    (hnew : Validator.new δ binding = .ok v) {counts : CheckCounts}
    (hpasses : v.passes d pieces counts) (hflat : pieces'.flatten = pieces.flatten)
    (hc : ∀ piece ∈ pieces', piece.length ≤ 65536) : v.passes d pieces' counts := by
  have hle : ∀ piece ∈ pieces, piece.length ≤ 65536 := by
    obtain ⟨last, hlast, -⟩ := hpasses
    exact feeds_chunks_le hlast
  cases hexpected : expected_archive binding with
  | error e =>
    unfold Validator.new at hnew
    rw [hexpected] at hnew
    cases hnew
  | ok expected =>
    rw [passes_iff hd hexpected hnew hc, hflat]
    exact (passes_iff hd hexpected hnew hle counts).mp hpasses

end

/-! ## The decryption -/

section
variable {σ τ : Type} {h : Host σ} {dec : Decryptor τ} {maximum : Nat} {before : List Io}

/-- A log with a failure has it for good. -/
theorem logged_rough {ε α : Type} (before : List Io) (event : Bool → Io)
    (call : σ → Except ε α × σ) (world : σ × List Io) (hr : Rough before world) :
    Rough before (logged event call world).2 := by
  obtain ⟨more, hlog, e, he, hfailed⟩ := hr
  exact ⟨more ++ [_], by
    show world.2 ++ [_] = _
    rw [hlog, List.append_assoc], e, by simp [he], hfailed⟩

theorem kept_rough {ε α : Type} (before : List Io) (event : Bool → Io)
    (call : σ → Except ε α × σ) (world : σ × List Io) (hr : Rough before world) :
    Kept (Rough before) (Rough before) (logged event call world) := by
  have hafter := logged_rough before event call world hr
  unfold Kept
  cases hc : logged event call world with
  | mk answer w =>
    rw [hc] at hafter
    cases answer with
    | ok a => exact hafter
    | error e => exact hafter

theorem rough_watched (h : Host σ) (before : List Io) :
    Watched h.logged (Rough before) (Rough before) where
  check := kept_rough before _ _
  size := kept_rough before _ _
  read_at _ _ := kept_rough before _ _
  append _ _ := kept_rough before _ _
  synchronize := kept_rough before _ _
  tag _ _ := kept_rough before _ _
  verify _ _ _ := logged_rough before _ _

theorem check_rough {st : Store (σ × List Io)} (hr : Rough before st.world) :
    Rough before (check h.logged st).2.world :=
  logged_rough before .Check h.check st.world hr

theorem check_outcome {st : Store (σ × List Io)} (hs : Smooth before st.world) :
    (∃ st', check h.logged st = (.ok (), st') ∧ Smooth before st'.world ∧ st'.file = st.file ∧
      st'.uncertain = st.uncertain) ∨
    ∃ e st', check h.logged st = (.error e, st') ∧ Rough before st'.world := by
  have hend := ask_seen (logged_watched h before).check (φ := False) (f := st.file)
    (u := st.uncertain) st ⟨⟨rfl, rfl⟩, hs⟩
  cases hc : check h.logged st with
  | mk answer st' =>
    unfold check at hc
    rw [hc] at hend
    cases answer with
    | ok _ => exact .inl ⟨st', rfl, hend.2, hend.1.1, hend.1.2⟩
    | error e => exact .inr ⟨e, st', rfl, hend.2.resolve_right id⟩

theorem write_rough {s : Staging (σ × List Io) τ} (hr : Rough before s.st.world) (bytes : Bytes)
    (session : τ) : Rough before (s.write h.logged dec maximum bytes session).st.world := by
  have hafter : Rough before (check h.logged s.st).2.world := check_rough hr
  unfold Staging.write
  cases hc : check h.logged s.st with
  | mk answer st =>
    rw [hc] at hafter
    cases answer with
    | error e => exact hafter
    | ok _ =>
      simp only
      split
      · exact hafter
      · exact hafter

theorem flush_rough {s : Staging (σ × List Io) τ} (hr : Rough before s.st.world) (session : τ) :
    Rough before (s.flush h.logged dec session).st.world := by
  have hafter : Rough before (check h.logged s.st).2.world := check_rough hr
  unfold Staging.flush
  cases hc : check h.logged s.st with
  | mk answer st =>
    rw [hc] at hafter
    cases answer with
    | error e => exact hafter
    | ok _ => exact hafter

theorem decrypt_rough (steps : Nat) {s : Staging (σ × List Io) τ} (hr : Rough before s.st.world) :
    Rough before (decrypt_to_staging h.logged dec maximum steps s).2.st.world := by
  induction steps generalizing s with
  | zero => exact hr
  | succ steps ih =>
    unfold decrypt_to_staging
    cases hstep : dec.step s.session with
    | mk step session =>
      cases step with
      | Read output => exact ih hr
      | Write bytes => exact ih (write_rough hr bytes session)
      | Flush => exact ih (flush_rough hr session)
      | Return result => exact hr
      | Unwind => exact hr

/-- The session does what it does when all goes well, or a test of the budget failed. -/
theorem decrypt_follows (steps : Nat) {s : Staging (σ × List Io) τ} (hs : Smooth before s.st.world)
    {result : Except SealPortError CipherCounts} {position : Nat} {pieces : List Bytes}
    (hrun : decryption dec s.input steps s.session s.position = some (result, position, pieces))
    (hle : ∀ piece ∈ pieces, piece.length ≤ 65536)
    (hmax : (s.bytes ++ pieces.flatten).length ≤ maximum) :
    Rough before (decrypt_to_staging h.logged dec maximum steps s).2.st.world ∨
    ∃ s', decrypt_to_staging h.logged dec maximum steps s = (some result, s') ∧
      s'.position = position ∧ s'.bytes = s.bytes ++ pieces.flatten ∧
      Seen s.st.file s.st.uncertain (Smooth before) s'.st := by
  induction steps generalizing s pieces with
  | zero => cases hrun
  | succ steps ih =>
    unfold decryption at hrun
    unfold decrypt_to_staging
    cases hstep : dec.step s.session with
    | mk step session =>
      rw [hstep] at hrun
      cases step with
      | Read output =>
        exact ih (s := { s with
          session := dec.told (cursor_answer s.input s.position output) session
          position := s.position + (cursor_piece s.input s.position output.length).length })
          hs hrun hle hmax
      | Write bytes =>
        obtain ⟨⟨result', position', rest⟩, hrest, hr⟩ := Option.map_eq_some_iff.mp hrun
        cases hr
        obtain ⟨hbytes, hpieces⟩ := List.forall_mem_cons.mp hle
        rw [List.flatten_cons, ← List.append_assoc] at hmax
        simp only
        rcases check_outcome (h := h) hs with ⟨st, hc, hsmooth, hfile, hflag⟩ | ⟨e, st, hc, hrough⟩
        · have hwrite : s.write h.logged dec maximum bytes session = { s with
              st := st
              session := dec.told (.Write (.ok bytes.length)) session
              bytes := s.bytes ++ bytes } := by
            unfold Staging.write
            rw [hc]
            simp only
            rw [if_neg]
            simp only [List.length_append] at hmax
            omega
          rw [hwrite]
          have hnext := ih (s := { s with
              st := st
              session := dec.told (.Write (.ok bytes.length)) session
              bytes := s.bytes ++ bytes }) hsmooth hrest hpieces hmax
          simp only [hfile, hflag] at hnext
          rw [List.flatten_cons, ← List.append_assoc]
          exact hnext
        · refine .inl (decrypt_rough steps ?_)
          unfold Staging.write
          rw [hc]
          exact hrough
      | Flush =>
        simp only
        rcases check_outcome (h := h) hs with ⟨st, hc, hsmooth, hfile, hflag⟩ | ⟨e, st, hc, hrough⟩
        · have hflush : s.flush h.logged dec session = { s with
              st := st
              session := dec.told (.Flush (.ok ())) session } := by
            unfold Staging.flush
            rw [hc]
          rw [hflush]
          have hnext := ih (s := { s with
              st := st
              session := dec.told (.Flush (.ok ())) session }) hsmooth hrun hle hmax
          simp only [hfile, hflag] at hnext
          exact hnext
        · refine .inl (decrypt_rough steps ?_)
          unfold Staging.flush
          rw [hc]
          exact hrough
      | Return result' =>
        cases hrun
        exact .inr ⟨_, rfl, rfl, by simp, ⟨rfl, rfl⟩, hs⟩
      | Unwind => cases hrun

end

/-! ## The inspection -/

section
variable {σ δ : Type} {h : Host σ} {d : Decoder δ} {S R : σ → Prop} {f : Bytes} {u : Bool}

theorem to_integrity_spec {α : Type} {x : Act σ α} {P E : Store σ → Prop}
    {Q : α → Store σ → Prop} (hx : Triple P x Q fun _ => E) :
    Triple P (to_integrity x) Q fun _ => E := by
  intro st hst
  have hend := hx st hst
  unfold to_integrity
  cases hr : x st with
  | mk answer st' =>
    rw [hr] at hend
    cases answer with
    | ok a => exact hend
    | error e => exact hend

theorem check_seen (hw : Watched h S R) :
    Triple (Seen f u S) (check h) (fun _ => Seen f u S) (fun _ => Fails f u R False) :=
  ask_seen hw.check

theorem feed_chunks_seen (hw : Watched h S R) {v last : Validator δ} {pieces : List Bytes}
    (hfeeds : v.feeds d pieces = some last) :
    Triple (Seen f u S) (feed_chunks h d v pieces) (fun v' st => v' = last ∧ Seen f u S st)
      (fun _ => Fails f u R False) := by
  induction pieces generalizing v with
  | nil =>
    cases hfeeds
    exact Triple.pure fun st hst => ⟨rfl, hst⟩
  | cons piece rest ih =>
    unfold Validator.feeds at hfeeds
    split at hfeeds
    · rename_i next hfeed
      unfold feed_chunks
      apply Triple.bind (Q := fun v' st => v' = next ∧ Seen f u S st)
      · apply to_integrity_spec
        apply Triple.bind (check_seen hw)
        intro _
        rw [hfeed]
        apply Triple.bind (check_seen hw)
        intro _
        exact Triple.pure fun st hst => ⟨rfl, hst⟩
      · intro v'
        apply Triple.of_and
        rintro rfl
        exact ih hfeeds
    · cases hfeeds

theorem inspect_staging_seen (hw : Watched h S R) {binding : ArtifactBinding} (size : Nat)
    {bytes : Bytes} {v : Validator δ} {counts : CheckCounts}
    (hlength : bytes.length = binding.source_bytes) (hnew : Validator.new δ binding = .ok v)
    (hpasses : v.passes d (chunks 65536 bytes) counts) :
    Triple (Seen f u S)
      (inspect_staging h d binding size ⟨size, binding.source_bytes⟩ size bytes)
      (fun i _ => i = ⟨counts.source_bytes, counts.payload_bytes, counts.files⟩)
      (fun _ => Fails f u R False) := by
  obtain ⟨last, hfeeds, hfinish⟩ := hpasses
  unfold inspect_staging
  apply Triple.bind (check_seen hw)
  intro _
  rw [if_neg (by simp [hlength])]
  apply Triple.bind (check_seen hw)
  intro _
  rw [hnew, Prog.lift_ok_bind]
  apply Triple.bind (feed_chunks_seen hw hfeeds)
  intro v'
  apply Triple.of_and
  rintro rfl
  apply Triple.bind (Q := fun c st => c = counts ∧ Seen f u S st)
  · apply to_integrity_spec
    apply Triple.bind (check_seen hw)
    intro _
    rw [hfinish]
    apply Triple.bind (check_seen hw)
    intro _
    exact Triple.pure fun st hst => ⟨rfl, hst⟩
  intro c
  apply Triple.of_and
  rintro rfl
  apply Triple.bind (check_seen hw)
  intro _
  exact Triple.pure fun _ _ => rfl

end

section
variable {σ δ : Type} {h : Host σ} {d : Decoder δ} {S : σ → Prop} {f : Bytes} {u : Bool}

/-- What every call of the host keeps is kept. -/
theorem check_keeps (hw : Watched h S S) :
    Triple (Seen f u S) (check h) (fun _ => Seen f u S) (fun _ => Seen f u S) :=
  (check_seen hw).conseq (fun _ h => h) (fun _ _ h => h)
    fun _ _ hst => ⟨hst.1, hst.2.resolve_right id⟩

theorem feed_chunks_keeps (hw : Watched h S S) (v : Validator δ) (pieces : List Bytes) :
    Triple (Seen f u S) (feed_chunks h d v pieces) (fun _ => Seen f u S) (fun _ => Seen f u S) := by
  induction pieces generalizing v with
  | nil => exact Triple.pure fun st hst => hst
  | cons piece rest ih =>
    unfold feed_chunks
    apply Triple.bind (Q := fun _ => Seen f u S)
    · apply to_integrity_spec
      apply Triple.bind (check_keeps hw)
      intro _
      split
      · exact Triple.stop fun st hst => hst
      · apply Triple.bind (check_keeps hw)
        intro _
        exact Triple.pure fun st hst => hst
    · exact fun v' => ih v'

theorem inspect_staging_keeps (hw : Watched h S S) (binding : ArtifactBinding) (size : Nat)
    (report : CipherCounts) (position : Nat) (bytes : Bytes) :
    Triple (Seen f u S) (inspect_staging h d binding size report position bytes)
      (fun _ => Seen f u S) (fun _ => Seen f u S) := by
  unfold inspect_staging
  apply Triple.bind (check_keeps hw)
  intro _
  split
  · exact Triple.stop fun st hst => hst
  apply Triple.bind (check_keeps hw)
  intro _
  apply Triple.bind (Q := fun _ => Seen f u S)
  · cases Validator.new δ binding with
    | error e => exact Triple.stop fun st hst => hst
    | ok v => exact Triple.pure fun st hst => hst
  intro v
  apply Triple.bind (feed_chunks_keeps hw v _)
  intro v'
  apply Triple.bind (Q := fun _ => Seen f u S)
  · apply to_integrity_spec
    apply Triple.bind (check_keeps hw)
    intro _
    split
    · exact Triple.stop fun st hst => hst
    · apply Triple.bind (check_keeps hw)
      intro _
      exact Triple.pure fun st hst => hst
  intro counts
  apply Triple.bind (check_keeps hw)
  intro _
  exact Triple.pure fun st hst => hst

theorem inspect_staging_rough {h : Host σ} {before : List Io} {binding : ArtifactBinding}
    {size position : Nat} {report : CipherCounts} {bytes : Bytes} {st : Store (σ × List Io)}
    (hr : Rough before st.world) : Rough before
      (inspect_staging h.logged d binding size report position bytes st).2.world := by
  have hkeeps : Triple (Seen st.file st.uncertain (Rough before))
      (inspect_staging h.logged d binding size report position bytes) _ _ :=
    inspect_staging_keeps (rough_watched h before) binding size report position bytes
  exact (hkeeps.after ⟨⟨rfl, rfl⟩, hr⟩).2

end

/-- A record of the file whose ciphertext the session gets the plaintext back from. -/
theorem restore_inspect_ok {σ δ τ : Type} {h : Host σ} {d : Decoder δ} {F : Format}
    {At : δ → Bytes → Bytes → Prop} (hd : Faithful d F At) {store : Id} {records : List Record}
    {r : Record} {dec : Decryptor τ} {steps : Nat} {session : τ} {plaintext : Bytes}
    {pieces : List Bytes} {v : Validator δ} {counts : CheckCounts} {st : Store (σ × List Io)}
    (hsound : Sound (Accepted h.logged) store st.file records) (hr : r ∈ records)
    (hinverts : Inverts dec steps session r.ciphertext plaintext)
    (hlength : plaintext.length = r.binding.source_bytes)
    (hnew : Validator.new δ r.binding = .ok v) (hpasses : v.passes d pieces counts)
    (hflat : pieces.flatten = plaintext)
    (ht : Untroubled st (restore_inspect h.logged dec d store r.binding steps session st).2) :
    (restore_inspect h.logged dec d store r.binding steps session st).1 =
      some (.ok ⟨counts.source_bytes, counts.payload_bytes, counts.files⟩) := by
  have hw := logged_watched h st.world.2
  have hchunks : v.passes d (chunks 65536 plaintext) counts := by
    apply passes_again hd hnew hpasses
    · rw [chunks_flatten (by decide), hflat]
    · exact fun piece hp => chunks_length_le hp
  suffices hend : Rough st.world.2
      (restore_inspect h.logged dec d store r.binding steps session st).2.world ∨
      (restore_inspect h.logged dec d store r.binding steps session st).1 =
        some (.ok ⟨counts.source_bytes, counts.payload_bytes, counts.files⟩) from
    hend.resolve_left ht.not_rough
  have hread : Triple (Seen st.file st.uncertain (Smooth st.world.2))
      (do check h.logged; authenticated_bytes h.logged store r.binding)
      (fun bytes st' => bytes = r.ciphertext ∧ Seen st.file st.uncertain (Smooth st.world.2) st')
      (fun _ => Fails st.file st.uncertain (Rough st.world.2) False) := by
    apply Triple.bind (check_seen hw)
    intro _
    exact authenticated_bytes_seen hw hsound hr
  have hfirst := hread st (smooth_start st)
  unfold restore_inspect
  cases hx : (do check h.logged; authenticated_bytes h.logged store r.binding :
      Act (σ × List Io) Bytes) st with
  | mk answer mid =>
    rw [hx] at hfirst
    cases answer with
    | error e => exact .inl (hfirst.2.resolve_right id)
    | ok ciphertext =>
      obtain ⟨rfl, hsame, hsmooth⟩ := hfirst
      obtain ⟨parts, hrun, hparts, hle⟩ := hinverts
      simp only
      rcases decrypt_follows (h := h) steps
        (s := { st := mid, session := session, input := r.ciphertext, position := 0, bytes := [] })
        hsmooth hrun hle (by rw [List.nil_append, hparts, hlength]) with hrough | hfollows
      · apply Or.inl
        cases hrun' : decrypt_to_staging h.logged dec r.binding.source_bytes steps
            { st := mid, session := session, input := r.ciphertext, position := 0,
              bytes := [] } with
        | mk answer s =>
          rw [hrun'] at hrough
          cases answer with
          | none => exact hrough
          | some result =>
            cases result with
            | error e => exact hrough
            | ok report => exact inspect_staging_rough hrough
      · obtain ⟨s, hs, hposition, hbytes, hseen⟩ := hfollows
        rw [hs]
        simp only
        rw [List.nil_append, hparts] at hbytes
        rw [hposition, hbytes, hlength]
        have hinspect := inspect_staging_seen hw r.ciphertext.length hlength hnew hchunks s.st
          hseen
        cases hi : inspect_staging h.logged d r.binding r.ciphertext.length
            ⟨r.ciphertext.length, r.binding.source_bytes⟩ r.ciphertext.length plaintext s.st with
        | mk result last =>
          rw [hi] at hinspect
          cases result with
          | ok i =>
            rw [show i = _ from hinspect]
            exact .inr rfl
          | error e => exact .inl (hinspect.2.resolve_right id)

/-! ## The law -/

/-- A capture is sealed, by any cipher. -/
def Seals {σ δ : Type} (h : Host σ) (d : Decoder δ) (store : Id) (st st' : Store (σ × List Io)) :
    Prop :=
  ∃ (o : Outside σ) (capture : CapturedArchive) (steps : Nat) (inspection : BackupInspection),
    o.host = h ∧ seal_capture o.logged d store capture steps st = (some (.ok inspection), st')

section
variable {σ δ : Type} {h : Host σ} {d : Decoder δ} {store : Id} {st st' : Store (σ × List Io)}
  {records : List Record}

/-- The record of a capture that was sealed, and the check of its archive. -/
theorem sealed_record {o : Outside σ} {capture : CapturedArchive} {steps : Nat}
    {inspection : BackupInspection}
    (hseal : seal_capture o.logged d store capture steps st = (some (.ok inspection), st')) :
    (∃ records r, Appends o.host.logged store capture.binding
        (cipher_wrote o.logged d store capture steps st) st.file records r ∧
      st'.file = st.file ++ r.encode) ∧ Checked d capture inspection := by
  have htruth := seal_capture_truthful o d store capture steps st
  rw [hseal] at htruth
  exact ⟨htruth.1.1, htruth.2⟩

/-- The records that are there stay. -/
theorem Seals.sound (ha : Authentic h) (hseals : Seals h d store st st')
    (hs : Sound (Accepted h.logged) store st.file records) :
    ∃ more, Sound (Accepted h.logged) store st'.file (records ++ more) := by
  obtain ⟨o, capture, steps, inspection, rfl, hseal⟩ := hseals
  obtain ⟨⟨records', r, happends, hfile⟩, -⟩ := sealed_record hseal
  obtain rfl := happends.sound.complete.unique hs.complete
  refine ⟨[r], ?_⟩
  rw [hfile]
  exact happends.snoc ha.logged

theorem seals_sound (ha : Authentic h)
    (hseals : Relation.ReflTransGen (Seals h d store) st st')
    (hs : Sound (Accepted h.logged) store st.file records) :
    ∃ more, Sound (Accepted h.logged) store st'.file (records ++ more) := by
  induction hseals with
  | refl => exact ⟨[], by simpa using hs⟩
  | tail _ hnext ih =>
    obtain ⟨more, hmore⟩ := ih
    obtain ⟨rest, hrest⟩ := hnext.sound ha hmore
    exact ⟨more ++ rest, by simpa using hrest⟩

end

/-- A capture that was sealed is restored, as long as no call of the host fails. -/
theorem a_sealed_capture_is_restored {σ δ τ : Type} (o : Outside σ) (d : Decoder δ)
    (F : Format) (At : δ → Bytes → Bytes → Prop) (hd : Faithful d F At) (ha : Authentic o.host)
    (store : Id) (capture : CapturedArchive) (steps : Nat) (st st' : Store (σ × List Io))
    (inspection : BackupInspection)
    (hseal : seal_capture o.logged d store capture steps st = (some (.ok inspection), st'))
    (dec : Decryptor τ) (dec_steps : Nat) (session : τ)
    (hinverts : Inverts dec dec_steps session (cipher_wrote o.logged d store capture steps st)
      capture.bytes)
    (last : Store (σ × List Io)) (hmore : Relation.ReflTransGen (Seals o.host d store) st' last)
    (ht : Untroubled last
      (restore_inspect o.host.logged dec d store capture.binding dec_steps session last).2) :
    (restore_inspect o.host.logged dec d store capture.binding dec_steps session last).1 =
      some (.ok inspection) ∧
    inspection = ⟨capture.binding.source_bytes, capture.binding.file_bytes, 1⟩ := by
  obtain ⟨⟨records, r, happends, hfile⟩, v, pieces, counts, hnew, hflat, hpasses, h1, h2, h3, h4⟩ :=
    sealed_record hseal
  have hsound := happends.snoc ha.logged
  rw [← hfile] at hsound
  obtain ⟨rest, hlast⟩ := seals_sound ha hmore hsound
  obtain ⟨hbinding, hbytes, -⟩ := happends.writes
  rw [← hbinding] at hnew ht ⊢
  rw [← hbytes] at hinverts
  have hr : r ∈ records ++ [r] ++ rest := by simp
  have hok := restore_inspect_ok hd hlast hr hinverts (by rw [hbinding]; exact capture.length_eq)
    hnew hpasses hflat ht
  rw [hok, h1, h2, h3, hbinding]
  exact ⟨by rw [h4], h4⟩

/-! ## A capture of one byte -/

/-- The header of the file of one byte that a binding expects. -/
def system_header : Bytes :=
  ascii "etc/config/system" ++ List.replicate 83 0 ++ ascii "0000600" ++ [0] ++
    ascii "0000000" ++ [0] ++ ascii "0000000" ++ [0] ++ ascii "00000000001" ++ [0] ++
    ascii "00000002322" ++ [0] ++ ascii "0013034" ++ [0] ++ ascii "0" ++ List.replicate 100 0 ++
    posix_magic ++ ascii "root" ++ List.replicate 28 0 ++ ascii "root" ++ List.replicate 211 0

def system_archive : Bytes :=
  system_header ++ [7] ++ List.replicate 511 0 ++ List.replicate 1024 0

/-- The archive in one stored block, with its checksum and its length behind it. -/
def system_member_head : Bytes := [0x1f, 0x8b, 8, 0, 0, 0, 0, 0, 0, 255] ++ [1, 0, 8, 255, 247]

def system_member_trailer : Bytes := [95, 3, 198, 236, 0, 8, 0, 0]

def system_binding : ArtifactBinding :=
  ⟨_, ⟨ones, ones, ones, ones, 1, 2071, .Gzip⟩, by decide, rfl⟩

def system_capture : CapturedArchive :=
  ⟨system_binding, system_member_head ++ system_archive ++ system_member_trailer,
    by decide +kernel, by decide +kernel⟩

/-- Nothing fails, and the tag of everything is zero. The cipher reads the archive, writes it
behind the magic bytes, reads its end and returns. -/
def magic_outside : Outside (Nat × Bytes) where
  host := {
    check := fun w => (.ok (), w)
    size := fun w => (.ok (), w)
    read_at := fun _ _ w => (.ok (), w)
    append := fun _ _ w => (.ok (), w)
    synchronize := fun w => (.ok (), w)
    tag := fun _ _ w => (.ok zero_tag, w)
    verify := fun _ _ tag w =>
      (if tag = List.replicate 32 0 then .ok () else .error .Integrity, w) }
  now_ms w := (0, w)
  cipher_step w :=
    ([.Read (List.replicate 4096 0), .Write (age_magic ++ w.2), .Read (List.replicate 4096 0)].getD
      w.1 (.Return (.ok ⟨2071, 2093⟩)), (w.1 + 1, w.2))
  cipher_told answer w :=
    match answer with
    | .Read output (.ok count) => (w.1, w.2 ++ output.take count)
    | _ => w

theorem magic_outside_authentic : Authentic magic_outside.host where
  stable := by
    rintro purpose parts tag ⟨world, hok⟩ world'
    exact hok
  own := by
    intro purpose parts tag world hok world'
    cases hok
    rfl

/-- The session reads the ciphertext and writes what is behind the magic bytes. -/
def magic_decryptor : Decryptor (Nat × Bytes) where
  step w :=
    ([.Read (List.replicate 4096 0), .Write (w.2.drop 22)].getD w.1 (.Return (.ok ⟨2093, 2071⟩)),
      (w.1 + 1, w.2))
  told answer w :=
    match answer with
    | .Read output (.ok count) => (w.1, w.2 ++ output.take count)
    | _ => w

/-- The decoder of the capture. -/
def system_decoder : Decoder (Bytes × Nat) :=
  stored_decoder system_member_head system_archive system_member_trailer

def system_store : Store ((Nat × Bytes) × List Io) := ⟨empty_store, ((0, []), []), false⟩

/-- The compressed capture is sealed and comes back. -/
theorem a_capture_of_one_byte_is_restored :
    (seal_capture magic_outside.logged system_decoder ones system_capture 10 system_store).1 =
      some (.ok ⟨2071, 1, 1⟩) ∧
    (restore_inspect magic_outside.host.logged magic_decryptor system_decoder ones
      system_capture.binding 10 (0, []) (seal_capture magic_outside.logged system_decoder ones
        system_capture 10 system_store).2).1 = some (.ok ⟨2071, 1, 1⟩) := by
  have hseal : (seal_capture magic_outside.logged system_decoder ones system_capture 10
      system_store).1 = some (.ok ⟨2071, 1, 1⟩) := by decide +kernel
  have hinverts : Inverts magic_decryptor 10 (0, [])
      (cipher_wrote magic_outside.logged system_decoder ones system_capture 10 system_store)
      system_capture.bytes :=
    ⟨[system_capture.bytes], by decide +kernel, by simp, by decide +kernel⟩
  have ht : Untroubled (seal_capture magic_outside.logged system_decoder ones system_capture 10
        system_store).2
      (restore_inspect magic_outside.host.logged magic_decryptor system_decoder ones
        system_capture.binding 10 (0, []) (seal_capture magic_outside.logged system_decoder ones
          system_capture 10 system_store).2).2 := by
    unfold Untroubled
    decide +kernel
  generalize hrun : seal_capture magic_outside.logged system_decoder ones system_capture 10
    system_store = result at hseal ht ⊢
  obtain ⟨answer, last⟩ := result
  cases hseal
  refine ⟨rfl, ?_⟩
  exact (a_sealed_capture_is_restored magic_outside system_decoder _ _
    (stored_decoder_faithful _ _ _) magic_outside_authentic ones system_capture 10 system_store last
    ⟨2071, 1, 1⟩ hrun magic_decryptor 10 (0, []) hinverts last .refl ht).1

end openwrt_mcp_adapters.backups
