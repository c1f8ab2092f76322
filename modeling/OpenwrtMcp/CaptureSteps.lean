-- What one call of a port of the backup workflow does: to the archive that is read, to the
-- ciphertext in memory, to the validator and to the record store.
import OpenwrtMcp.RecordRetrieval
import OpenwrtMcp.SealCapture
import OpenwrtMcp.SealGuard
import OpenwrtMcp.SealInvariant

open programs slices text openwrt_mcp_runtime.backups openwrt_mcp_runtime.sealing
open openwrt_mcp_device_codec.archive openwrt_mcp_device_codec.gzip

namespace openwrt_mcp_adapters.backups

/-- What is outside, with a log of the calls of the host. -/
def Outside.logged {σ : Type} (o : Outside σ) : Outside (σ × List Io) where
  host := o.host.logged
  now_ms w := ((o.now_ms w.1).1, ((o.now_ms w.1).2, w.2))
  cipher_step w := ((o.cipher_step w.1).1, ((o.cipher_step w.1).2, w.2))
  cipher_told answer w := (o.cipher_told answer w.1, w.2)

def Io.is_append : Io → Bool
  | .Append .. => true
  | _ => false

/-- The chunks that the checker took. -/
def fed : Event → List Bytes
  | .Feed bytes (.ret (.ok ())) => [bytes]
  | _ => []

section
variable {σ δ : Type}

/-- Only the world outside has changed, and nothing was appended to the file. -/
structure Idle (w w' : Work (σ × List Io) δ) : Prop where
  data : w'.data = w.data
  position : w'.position = w.position
  memory : w'.memory = w.memory
  file : w'.st.file = w.st.file
  log : ∃ more, w'.st.world.2 = w.st.world.2 ++ more ∧ ∀ e ∈ more, e.is_append = false

theorem Idle.refl (w : Work (σ × List Io) δ) : Idle w w where
  data := rfl
  position := rfl
  memory := rfl
  file := rfl
  log := ⟨[], by simp, by simp⟩

theorem Idle.trans {w w' w'' : Work (σ × List Io) δ} (h : Idle w w') (h' : Idle w' w'') :
    Idle w w'' where
  data := h'.data.trans h.data
  position := h'.position.trans h.position
  memory := h'.memory.trans h.memory
  file := h'.file.trans h.file
  log := by
    obtain ⟨more, hmore, hfirst⟩ := h.log
    obtain ⟨more', hmore', hnext⟩ := h'.log
    refine ⟨more ++ more', by rw [hmore', hmore, List.append_assoc], ?_⟩
    intro e he
    rcases List.mem_append.mp he with he | he
    · exact hfirst e he
    · exact hnext e he

/-- An event that moves no bytes. -/
structure Neutral (e : Event) : Prop where
  no_source : e.source_bytes = []
  no_stored : e.stored = []
  no_fed : fed e = []
  no_publish : e.publish = []
  no_cancel : e.cancel = []
  no_abort : e.abort = []
  no_end : ∀ size buffer, 0 < size → e ≠ .Read size buffer (.ret (.ok 0))
  no_finish : ∀ counts, e ≠ .Finish (.ret (.ok counts))

/-- What a call does, by its event. -/
inductive Effect (o : Outside σ) (d : Decoder δ) (store : Id) (binding : ArtifactBinding)
    (w w' : Work (σ × List Io) δ) : Event → Prop
  | idle {e : Event} (he : Neutral e) (hw : Idle w w')
      (hv : w'.validator = w.validator ∨ e.failed = true) : Effect o d store binding w w' e
  | read {size : Nat} {buffer : Bytes} (mid : Work (σ × List Io) δ) (hw : Idle w mid)
      (hv : mid.validator = w.validator)
      (hbuffer : buffer.take (mid.piece size).length = mid.piece size)
      (hafter : w' = { mid with position := mid.position + (mid.piece size).length }) :
      Effect o d store binding w w' (.Read size buffer (.ret (.ok (mid.piece size).length)))
  | fed {bytes : Bytes} (hw : Idle w w')
      (hfeed : w.validator.feed d bytes = (w'.validator, .ok ())) :
      Effect o d store binding w w' (.Feed bytes (.ret (.ok ())))
  | finished {counts : CheckCounts} (hw : Idle w w') (hv : w'.validator = w.validator)
      (hfinish : w.validator.finish = .ok counts) :
      Effect o d store binding w w' (.Finish (.ret (.ok counts)))
  | written {input : Bytes} (mid : Work (σ × List Io) δ) (hw : Idle w mid)
      (hv : mid.validator = w.validator)
      (hafter : w' = { mid with memory := mid.memory ++ input }) :
      Effect o d store binding w w' (.Write input (.ret (.ok input.length)))
  | cancelled {reply : Reply CleanupOutcome} (hafter : w' = { w with data := [] }) :
      Effect o d store binding w w' (.Cancel reply)
  | aborted {reply : Reply CleanupOutcome} (hafter : w' = { w with memory := [] }) :
      Effect o d store binding w w' (.Abort reply)
  | refused {counts : SealedCounts} (hafter : w' = w) :
      Effect o d store binding w w' (.Publish counts (.ret .NotPublished))
  | published {counts : SealedCounts} {publication : RecordPublication}
      {st : Store (σ × List Io)}
      (hsource : counts.source_bytes = binding.source_bytes)
      (hpayload : counts.payload_bytes = binding.file_bytes) (hfiles : counts.files = 1)
      (hrun : publish o.logged.host store binding w.memory w.st = (.ok publication, st))
      (hafter : w' = { w with st := st }) :
      Effect o d store binding w w' (.Publish counts (.ret publication.outcome))

/-! ## The calls -/

section
variable {o : Outside σ} {d : Decoder δ} {store : Id} {binding : ArtifactBinding}
  {w : Work (σ × List Io) δ}

theorem check_idle (w : Work (σ × List Io) δ) :
    Idle w (w.check o.logged).2 ∧ (w.check o.logged).2.validator = w.validator :=
  ⟨⟨rfl, rfl, rfl, rfl, [_], rfl, by simp [Io.is_append]⟩, rfl⟩

/-- A call behind a test of the budget. -/
theorem checked_effect {α : Type} {call : Work (σ × List Io) δ →
      Except SealPortError α × Work (σ × List Io) δ}
    {event : Reply (Except SealPortError α) → Event}
    (hfailed : Neutral (event (.ret (.error .mk))))
    (hcall : ∀ mid, Idle w mid → mid.validator = w.validator →
      Effect o d store binding w (call mid).2 (event (.ret (call mid).1))) :
    Effect o d store binding w (Work.checked o.logged call w).2
      (event (Work.checked o.logged call w).1) := by
  obtain ⟨hidle, hv⟩ := check_idle (o := o) w
  unfold Work.checked
  cases hc : w.check o.logged with
  | mk answer mid =>
    rw [hc] at hidle hv
    cases answer with
    | error e => exact .idle hfailed hidle (.inl hv)
    | ok _ => exact hcall mid hidle hv

theorem read_effect (output : Bytes) : Effect o d store binding w (Work.read o.logged output w).2
    (read_event output (Work.read o.logged output w).1) := by
  obtain ⟨hidle, hv⟩ := check_idle (o := o) w
  unfold Work.read
  cases hc : w.check o.logged with
  | mk answer mid =>
    rw [hc] at hidle hv
    cases answer with
    | error e =>
      refine .idle ⟨rfl, rfl, rfl, rfl, rfl, rfl, ?_, ?_⟩ hidle (.inl hv)
      · rintro size buffer - ⟨⟩
      · rintro counts ⟨⟩
    | ok _ =>
      exact .read mid hidle hv (List.take_left' rfl) rfl

theorem feed_effect (bytes : Bytes) : Effect o d store binding w (Work.feed o.logged d bytes w).2
    (.Feed bytes (Work.feed o.logged d bytes w).1) := by
  have hneutral : ∀ e, Neutral (.Feed bytes (.ret (.error e))) := fun e =>
    ⟨rfl, rfl, rfl, rfl, rfl, rfl, by rintro size buffer - ⟨⟩, by rintro counts ⟨⟩⟩
  apply checked_effect (hneutral _)
  intro mid hidle hv
  have hidle' : Idle w { mid with validator := (mid.validator.feed d bytes).1 } :=
    ⟨hidle.data, hidle.position, hidle.memory, hidle.file, hidle.log⟩
  cases hfeed : mid.validator.feed d bytes with
  | mk validator result =>
    simp only [hfeed] at hidle' ⊢
    cases result with
    | error e => exact .idle (hneutral e) hidle' (.inr rfl)
    | ok _ =>
      obtain ⟨hnext, hv'⟩ := check_idle (o := o) { mid with validator := validator }
      cases hc : Work.check o.logged { mid with validator := validator } with
      | mk answer after =>
        rw [hc] at hnext hv'
        cases answer with
        | error e => exact .idle (hneutral .mk) (hidle'.trans hnext) (.inr rfl)
        | ok _ =>
          refine .fed (hidle'.trans hnext) ?_
          rw [← hv, hfeed, hv']

theorem finish_effect : Effect o d store binding w (Work.finish o.logged w).2
    (.Finish (Work.finish o.logged w).1) := by
  have hneutral : ∀ e, Neutral (.Finish (.ret (.error e))) := fun e =>
    ⟨rfl, rfl, rfl, rfl, rfl, rfl, by rintro size buffer - ⟨⟩, by rintro counts ⟨⟩⟩
  apply checked_effect (hneutral _)
  intro mid hidle hv
  cases hfinish : mid.validator.finish with
  | error e => exact .idle (hneutral e) hidle (.inl hv)
  | ok counts =>
    obtain ⟨hnext, hv'⟩ := check_idle (o := o) mid
    simp only
    cases hc : mid.check o.logged with
    | mk answer after =>
      rw [hc] at hnext hv'
      cases answer with
      | error e => exact .idle (hneutral .mk) (hidle.trans hnext) (.inl (hv'.trans hv))
      | ok _ => exact .finished (hidle.trans hnext) (hv'.trans hv) (hv ▸ hfinish)

theorem write_effect (input : Bytes) : Effect o d store binding w (Work.write o.logged input w).2
    (.Write input (Work.write o.logged input w).1) := by
  have hneutral : Neutral (.Write input (.ret (.error .mk))) :=
    ⟨rfl, rfl, rfl, rfl, rfl, rfl, by rintro size buffer - ⟨⟩, by rintro counts ⟨⟩⟩
  apply checked_effect hneutral
  intro mid hidle hv
  split
  · exact .idle hneutral hidle (.inl hv)
  · exact .written mid hidle hv rfl

theorem flush_effect : Effect o d store binding w (Work.flush o.logged w).2
    (.Flush (Work.flush o.logged w).1) := by
  have hneutral : ∀ reply, Neutral (.Flush reply) := fun reply =>
    ⟨rfl, rfl, rfl, rfl, rfl, rfl, by rintro size buffer - ⟨⟩, by rintro counts ⟨⟩⟩
  apply checked_effect (hneutral _)
  exact fun mid hidle hv => .idle (hneutral _) hidle (.inl hv)

theorem complete_effect : Effect o d store binding w (Work.complete o.logged w).2
    (.Complete (Work.complete o.logged w).1) := by
  have hneutral : ∀ reply, Neutral (.Complete reply) := fun reply =>
    ⟨rfl, rfl, rfl, rfl, rfl, rfl, by rintro size buffer - ⟨⟩, by rintro counts ⟨⟩⟩
  apply checked_effect (hneutral _)
  exact fun mid hidle hv => .idle (hneutral _) hidle (.inl hv)

/-- The clock and the cipher do not touch what the workflow has. -/
theorem outside_idle {α : Type} (step : σ → α × σ) (w : Work (σ × List Io) δ) :
    Idle w (w.outside fun world => ((step world.1).1, ((step world.1).2, world.2))).2 :=
  ⟨rfl, rfl, rfl, rfl, [], by simp [Work.outside], by simp⟩

theorem publish_effect (counts : SealedCounts) :
    Effect o d store binding w (Work.publish o.logged store binding counts w).2
      (.Publish counts (Work.publish o.logged store binding counts w).1) := by
  unfold Work.publish
  split
  · exact .refused rfl
  rename_i htests
  simp only [not_or, not_not] at htests
  obtain ⟨hsource, hpayload, hfiles, -⟩ := htests
  obtain ⟨publication, st, hrun, -⟩ := publish_logged o.host store binding w.memory w.st
  have hhost : publish o.logged.host store binding w.memory w.st = (.ok publication, st) := hrun
  rw [hhost]
  exact .published hsource hpayload hfiles hhost rfl

end

end

end openwrt_mcp_adapters.backups
