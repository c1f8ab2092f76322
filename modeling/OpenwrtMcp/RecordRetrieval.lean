-- What was published stays: the bytes of a durable record come back, from then on and after any
-- further records, and no answer of the store says more than what is in the file.
import OpenwrtMcp.RecordLaws

open big_endian programs slices text openwrt_mcp_runtime.backups

namespace openwrt_mcp_adapters.backups

/-! ## A host with a log -/

/-- A call of the host, and whether it went well. -/
inductive Io
  | Check (ok : Bool)
  | Size (ok : Bool)
  | ReadAt (offset len : Nat) (ok : Bool)
  | Append (bytes : Bytes) (ok : Bool)
  | Synchronize (ok : Bool)
  | Tag (ok : Bool)
  | Verify (ok : Bool)
  deriving DecidableEq

/-- The budget is out, or the file or the tag did not work. -/
def Io.failed : Io → Bool
  | .Check ok => !ok
  | .Size ok => !ok
  | .ReadAt _ _ ok => !ok
  | .Append _ ok => !ok
  | .Synchronize ok => !ok
  | .Tag ok => !ok
  | .Verify _ => false

section
variable {σ α ε : Type}

def logged (event : Bool → Io) (call : σ → Except ε α × σ) :
    σ × List Io → Except ε α × (σ × List Io) := fun world =>
  ((call world.1).1, ((call world.1).2, world.2 ++ [event (call world.1).1.isOk]))

/-- The same host, with a log of its calls in the world. -/
def Host.logged (h : Host σ) : Host (σ × List Io) where
  check := backups.logged .Check h.check
  size := backups.logged .Size h.size
  read_at offset len := backups.logged (.ReadAt offset len) (h.read_at offset len)
  append size bytes := backups.logged (.Append bytes) (h.append size bytes)
  synchronize := backups.logged .Synchronize h.synchronize
  tag purpose parts := backups.logged .Tag (h.tag purpose parts)
  verify purpose parts tag := backups.logged .Verify (h.verify purpose parts tag)

/-- The log is longer than `before`, and no call in the rest failed. -/
def Smooth (before : List Io) (world : σ × List Io) : Prop :=
  ∃ more, world.2 = before ++ more ∧ ∀ e ∈ more, e.failed = false

def Rough (before : List Io) (world : σ × List Io) : Prop :=
  ∃ more, world.2 = before ++ more ∧ ∃ e ∈ more, e.failed = true

/-- No call failed between two states of the store. -/
def Untroubled (st st' : Store (σ × List Io)) : Prop :=
  ∀ e ∈ st'.world.2.drop st.world.2.length, e.failed = false

theorem Smooth.snoc {before : List Io} {world : σ × List Io} (hs : Smooth before world) (w : σ)
    {e : Io} (he : e.failed = false) : Smooth before (w, world.2 ++ [e]) := by
  obtain ⟨more, hmore, hfine⟩ := hs
  refine ⟨more ++ [e], by rw [hmore, List.append_assoc], ?_⟩
  intro e' he'
  rcases List.mem_append.mp he' with hold | hnew
  · exact hfine e' hold
  · rw [List.mem_singleton.mp hnew]
    exact he

theorem Smooth.rough {before : List Io} {world : σ × List Io} (hs : Smooth before world) (w : σ)
    {e : Io} (he : e.failed = true) : Rough before (w, world.2 ++ [e]) := by
  obtain ⟨more, hmore, -⟩ := hs
  exact ⟨more ++ [e], by rw [hmore, List.append_assoc], e, by simp, he⟩

theorem logged_kept (before : List Io) (event : Bool → Io) (call : σ → Except ε α × σ)
    (hevent : ∀ ok, (event ok).failed = !ok) (world : σ × List Io) (hs : Smooth before world) :
    Kept (Smooth before) (Rough before) (logged event call world) := by
  unfold Kept logged
  cases hc : call world.1 with
  | mk answer w =>
    cases answer with
    | ok a => exact hs.snoc w (hevent true)
    | error e => exact hs.rough w (hevent false)

theorem logged_watched (h : Host σ) (before : List Io) :
    Watched h.logged (Smooth before) (Rough before) where
  check := logged_kept before _ _ fun _ => rfl
  size := logged_kept before _ _ fun _ => rfl
  read_at _ _ := logged_kept before _ _ fun _ => rfl
  append _ _ := logged_kept before _ _ fun _ => rfl
  synchronize := logged_kept before _ _ fun _ => rfl
  tag _ _ := logged_kept before _ _ fun _ => rfl
  verify _ _ _ _ hs := hs.snoc _ rfl

/-- The tests at the end of `publish`, and nothing after them. -/
def Synchronized (before : List Io) (world : σ × List Io) : Prop :=
  ∃ more, (∀ e ∈ more, e.failed = false) ∧
    world.2 = before ++ more ++ [.Size true, .Synchronize true, .Check true]

theorem ask_logged {f : Bytes} {u : Bool} (log : List Io) (event : Bool → Io)
    (call : σ → Except BackupError α × σ) :
    Triple (Seen f u fun world => world.2 = log) (ask (logged event call))
      (fun _ => Seen f u fun world => world.2 = log ++ [event true])
      (fun _ => Seen f u fun world => world.2 = log ++ [event false]) := by
  intro st hst
  unfold ask logged
  cases hc : call st.world.1 with
  | mk answer w =>
    cases answer with
    | ok a => exact ⟨hst.1, by simp [hst.2, Except.isOk, Except.toBool]⟩
    | error e => exact ⟨hst.1, by simp [hst.2, Except.isOk, Except.toBool]⟩

theorem size_logged {h : Host σ} {f : Bytes} {u : Bool} (log : List Io) :
    Triple (Seen f u fun world => world.2 = log) (size h.logged)
      (fun n st => n = f.length ∧ Seen f u (fun world => world.2 = log ++ [.Size true]) st)
      (fun _ => Seen f u fun world => world.2 = log ++ [.Size false]) := by
  apply Triple.bind (ask_logged log .Size h.size)
  intro _
  apply Triple.get_bind
  intro st hst
  apply Triple.pure
  rintro _ rfl
  exact ⟨by rw [hst.1.1], hst⟩

theorem confirm_logged (h : Host σ) (before : List Io) :
    Confirming h.logged (Smooth before) (Synchronized before) (Rough before) := by
  intro f u position st hst
  obtain ⟨hsame, more, hlog, hfine⟩ := hst
  have hrough : ∀ (rest : List Io) (e : Io) (world : σ × List Io), e.failed = true →
      world.2 = before ++ more ++ rest ++ [e] → Rough before world := by
    intro rest e world he hworld
    exact ⟨more ++ rest ++ [e], by simp [hworld], e, by simp, he⟩
  suffices hconfirm : Triple (Seen f u fun world => world.2 = before ++ more)
      (confirm h.logged position) (fun _ => Seen f u (Synchronized before))
      (fun _ => Fails f u (Rough before) (f.length ≠ position)) from hconfirm st ⟨hsame, hlog⟩
  unfold confirm
  apply Triple.bind ((size_logged (before ++ more)).conseq (fun _ h => h) (fun _ _ h => h) ?_)
  · intro size
    apply Triple.of_and
    rintro rfl
    split
    · rename_i hne
      apply Triple.stop
      exact fun st hst => ⟨hst.1, .inr hne⟩
    apply Triple.bind ((ask_logged _ .Synchronize h.synchronize).conseq (fun _ h => h)
      (fun _ _ h => h) ?_)
    · intro _
      refine (ask_logged _ .Check h.check).conseq (fun _ h => h) ?_ ?_
      · exact fun _ st hst => ⟨hst.1, more, hfine, by simp [hst.2]⟩
      · exact fun _ st hst => ⟨hst.1, .inl (hrough [.Size true, .Synchronize true] (.Check false) _
          rfl (by simp [hst.2]))⟩
    · exact fun _ st hst => ⟨hst.1, .inl (hrough [.Size true] (.Synchronize false) _ rfl
        (by simp [hst.2]))⟩
  · exact fun _ st hst => ⟨hst.1, .inl (hrough [] (.Size false) _ rfl (by simp [hst.2]))⟩

end

/-! ## What comes back -/

/-- The authenticator is a function of its arguments where it accepts, and accepts its own
tags. -/
structure Authentic {σ : Type} (h : Host σ) : Prop where
  stable : ∀ purpose parts tag, Verified h purpose parts tag → Accepted h purpose parts tag
  own : ∀ purpose parts tag world, (h.tag purpose parts world).1 = .ok tag →
    Accepted h purpose parts tag.1

section
variable {σ : Type} {h : Host σ} {S R : σ → Prop} {store : Id} {f : Bytes} {u : Bool}
  {records : List Record} {r : Record}

theorem Authentic.logged (ha : Authentic h) : Authentic h.logged where
  stable := by
    rintro purpose parts tag ⟨world, hok⟩ world'
    exact ha.stable purpose parts tag ⟨world.1, hok⟩ world'.1
  own := fun purpose parts tag world hok world' => ha.own purpose parts tag world.1 hok world'.1

theorem Authentic.sound (ha : Authentic h) (hs : Sound (Verified h) store f records) :
    Sound (Accepted h) store f records where
  complete := hs.complete
  header := { hs.header with tag := ha.stable _ _ _ hs.header.tag }
  tags := fun r hr => ha.stable _ _ _ (hs.tags r hr)

/-- The match is the record with the binding. -/
theorem matches_of_mem (hjobs : (records.map fun r => r.binding.job).Nodup) (hr : r ∈ records)
    (matched : Option Bytes) :
    matches_of (some r.binding) matched records = .ok (some r.ciphertext) := by
  induction records generalizing matched with
  | nil => cases hr
  | cons first records ih =>
    obtain ⟨hfirst, hrest⟩ := List.nodup_cons.mp hjobs
    rw [matches_of_cons]
    rcases List.mem_cons.mp hr with rfl | hmem
    · refine ⟨some r.ciphertext, by simp [next_match], matches_of_fresh _ ?_⟩
      intro r' hr' hsame
      exact hfirst (List.mem_map.mpr ⟨r', hr', hsame.symm⟩)
    · have hne : r.binding.job ≠ first.binding.job := fun hsame =>
        hfirst (List.mem_map.mpr ⟨r, hmem, hsame⟩)
      exact ⟨matched, by simp [next_match, hne], ih hrest hmem matched⟩

/-- A match comes from a record with the binding. -/
theorem mem_of_matches_of {binding : ArtifactBinding} {bytes : Bytes} {matched : Option Bytes}
    (hm : matches_of (some binding) matched records = .ok (some bytes)) :
    matched = some bytes ∨ ∃ r ∈ records, r.binding = binding ∧ r.ciphertext = bytes := by
  induction records generalizing matched with
  | nil =>
    cases hm
    exact .inl rfl
  | cons first records ih =>
    obtain ⟨matched', hnext, hrest⟩ := matches_of_cons.mp hm
    rcases ih hrest with rfl | ⟨r, hr, hbinding, hbytes⟩
    · by_cases hjob : binding.job = first.binding.job
      · by_cases hsame : binding = first.binding
        · simp only [next_match, hsame, if_true, ne_eq, not_true_eq_false, if_false,
            Except.ok.injEq, Option.some.injEq] at hnext
          exact .inr ⟨first, by simp, hsame.symm, hnext⟩
        · simp [next_match, hjob, hsame] at hnext
      · simp only [next_match, hjob, if_false, Except.ok.injEq] at hnext
        exact .inl hnext
    · exact .inr ⟨r, by simp [hr], hbinding, hbytes⟩

/-- The bytes of a record of the file come back, unless a call fails. -/
theorem authenticated_bytes_seen (hw : Watched h S R)
    (hsound : Sound (Accepted h) store f records) (hr : r ∈ records) :
    Triple (Seen f u S) (authenticated_bytes h store r.binding)
      (fun bytes st => bytes = r.ciphertext ∧ Seen f u S st) (fun _ => Fails f u R False) := by
  have hmatches := matches_of_mem hsound.complete.jobs hr none
  unfold authenticated_bytes
  apply Triple.bind ((scan_seen hw (some r.binding)).conseq (fun _ h => h) (fun _ _ h => h) ?_)
  · intro scan
    apply Triple.of_and
    rintro ⟨records', hscans, -⟩
    obtain rfl := hscans.1.complete.unique hsound.complete
    have hsome : scan.matched = some r.ciphertext :=
      Except.ok.inj (hscans.2.1.symm.trans hmatches)
    rw [hsome]
    apply Triple.pure
    exact fun st hst => ⟨rfl, hst⟩
  · refine fun _ st hst => hst.mono ?_
    intro hno
    apply hno
    refine ⟨records, some r.ciphertext, hsound, hmatches, ?_⟩
    rintro b ⟨⟩
    exact hsound.complete.store r hr

/-- Bytes that come back are those of a record of the file. -/
theorem authenticated_bytes_ok {binding : ArtifactBinding} {bytes : Bytes} {st : Store σ}
    (hrun : (authenticated_bytes h store binding st).1 = .ok bytes) :
    ∃ records r, Sound (Verified h) store st.file records ∧ r ∈ records ∧ r.binding = binding ∧
      r.ciphertext = bytes := by
  have hspec : Triple (Same st.file st.uncertain) (authenticated_bytes h store binding)
      (fun bytes _ => ∃ records r, Sound (Verified h) store st.file records ∧ r ∈ records ∧
        r.binding = binding ∧ r.ciphertext = bytes) (fun _ _ => True) := by
    unfold authenticated_bytes
    apply Triple.bind ((scan_spec (some binding)).conseq (fun _ h => h) (fun _ _ h => h)
      fun _ _ _ => trivial)
    intro scan
    apply Triple.of_and
    rintro ⟨records, hscans, -⟩
    cases hm : scan.matched with
    | none => exact Triple.stop fun _ _ => trivial
    | some bytes =>
      apply Triple.pure
      intro _ _
      have hmatches := hscans.2.1
      rw [hm] at hmatches
      obtain ⟨r, hr, hbinding, hbytes⟩ := (mem_of_matches_of hmatches).resolve_left (by simp)
      exact ⟨records, r, hscans.1, hr, hbinding, hbytes⟩
  have hend := hspec st ⟨rfl, rfl⟩
  cases hx : authenticated_bytes h store binding st with
  | mk answer st' =>
    rw [hx] at hrun hend
    cases hrun
    exact hend

/-! ## Further calls -/

/-- The answer of a call of `publish` is not `Unknown`. The other calls only read. -/
def Call.settled (h : Host σ) (store : Id) : Call → Store σ → Prop
  | .Publish binding ciphertext, st => (publish h store binding ciphertext st).1 ≠ .ok .Unknown
  | .Reconcile _, _ => True
  | .AuthenticatedBytes _, _ => True

def settled_calls (h : Host σ) (store : Id) : List Call → Store σ → Prop
  | [], _ => True
  | call :: rest, st => call.settled h store st ∧ settled_calls h store rest (call.after h store st)

theorem Complete.take_header {more : Bytes} (hc : Complete store f records) :
    (f ++ more).take HEADER = f.take HEADER :=
  List.take_append_of_le_length hc.header_le

/-- A record with an accepted tag behind a sound file. -/
theorem Sound.snoc {V : Accepts} (hs : Sound V store f records)
    (hroom : records.length < MAX_RECORDS) (hstore : r.binding.store = store.1)
    (hjob : ∀ r' ∈ records, r.binding.job ≠ r'.binding.job) (htag : r.Tagged V) :
    Sound V store (f ++ r.encode) (records ++ [r]) where
  complete := snoc_complete hs.complete hroom hstore hjob
  header := by
    rw [hs.complete.take_header]
    exact hs.header
  tags := by
    intro r' hr'
    rcases List.mem_append.mp hr' with hold | hnew
    · exact hs.tags r' hold
    · rw [List.mem_singleton.mp hnew]
      exact htag

theorem Writes.tagged (ha : Authentic h) {binding : ArtifactBinding} {ciphertext : Bytes}
    (hwrites : Writes h binding ciphertext r) : r.Tagged (Accepted h) := by
  obtain ⟨rfl, rfl, world, htag⟩ := hwrites
  exact ha.own _ _ _ world htag

theorem Appends.snoc (ha : Authentic h) {binding : ArtifactBinding} {ciphertext : Bytes}
    (happends : Appends h store binding ciphertext f records r) :
    Sound (Accepted h) store (f ++ r.encode) (records ++ [r]) :=
  (ha.sound happends.sound).snoc happends.room happends.store happends.job
    (happends.writes.tagged ha)

theorem settled_call (ha : Authentic h) (call : Call) {st : Store σ}
    (hs : Sound (Accepted h) store st.file records) (hset : call.settled h store st) :
    ∃ more, Sound (Accepted h) store (call.after h store st).file (records ++ more) := by
  cases call with
  | Publish binding ciphertext =>
    have hw := watched_true h
    obtain ⟨out, st', hrun, hanswer⟩ :=
      publish_answers hw (confirm_seen hw) store binding ciphertext st trivial
    simp only [Call.after, Call.settled, hrun] at hset ⊢
    cases out with
    | Durable =>
      obtain ⟨⟨records', r, happends, hfile⟩, -⟩ := hanswer
      obtain rfl := happends.sound.complete.unique hs.complete
      refine ⟨[r], ?_⟩
      rw [hfile]
      exact happends.snoc ha
    | NotPublished =>
      refine ⟨[], ?_⟩
      rw [hanswer.1.1, List.append_nil]
      exact hs
    | Unknown => exact absurd rfl hset
  | Reconcile binding =>
    refine ⟨[], ?_⟩
    have hfile : (reconcile h store binding st).2.file = st.file :=
      (reconcile_spec binding st.file).after rfl
    rw [List.append_nil]
    exact hfile.symm ▸ hs
  | AuthenticatedBytes binding =>
    refine ⟨[], ?_⟩
    have hfile : (authenticated_bytes h store binding st).2.file = st.file :=
      (authenticated_bytes_spec binding st.file).after rfl
    rw [List.append_nil]
    exact hfile.symm ▸ hs

/-- The records of a sound file stay in it. -/
theorem settled_calls_sound (ha : Authentic h) (calls : List Call) {st : Store σ}
    (hs : Sound (Accepted h) store st.file records) (hset : settled_calls h store calls st) :
    ∃ more, Sound (Accepted h) store (after_calls h store calls st).file (records ++ more) := by
  induction calls generalizing st records with
  | nil => exact ⟨[], by simpa [after_calls] using hs⟩
  | cons call calls ih =>
    obtain ⟨more, hmore⟩ := settled_call ha call hs hset.1
    obtain ⟨rest, hrest⟩ := ih hmore hset.2
    exact ⟨more ++ rest, by simpa [after_calls] using hrest⟩

end

/-- When no call fails, these bytes come back for the binding. -/
def Retrieves {σ : Type} (h : Host σ) (store : Id) (binding : ArtifactBinding) (bytes : Bytes)
    (st : Store (σ × List Io)) : Prop :=
  Untroubled st (authenticated_bytes h.logged store binding st).2 →
    (authenticated_bytes h.logged store binding st).1 = .ok bytes

section
variable {σ : Type} {h : Host σ} {store : Id} {f : Bytes} {u : Bool} {records : List Record}
  {r : Record} {st st' : Store (σ × List Io)}

theorem smooth_start (st : Store (σ × List Io)) :
    Seen st.file st.uncertain (Smooth st.world.2) st :=
  ⟨⟨rfl, rfl⟩, [], by simp, by simp⟩

theorem Untroubled.not_rough (ht : Untroubled st st') : ¬ Rough st.world.2 st'.world := by
  rintro ⟨more, hlog, e, he, hfailed⟩
  have hdrop : st'.world.2.drop st.world.2.length = more := by
    rw [hlog, List.drop_left' rfl]
  have := ht e (hdrop ▸ he)
  simp [hfailed] at this

theorem retrieves_of_mem (hs : Sound (Accepted h.logged) store st.file records)
    (hr : r ∈ records) : Retrieves h store r.binding r.ciphertext st := by
  intro ht
  have hend := authenticated_bytes_seen (logged_watched h st.world.2) hs hr st (smooth_start st)
  cases hx : authenticated_bytes h.logged store r.binding st with
  | mk answer st' =>
    rw [hx] at hend ht
    cases answer with
    | ok bytes =>
      rw [hend.1]
    | error e => exact absurd (hend.2.resolve_right id) ht.not_rough

/-- What `publish` answers, with the log of its calls. -/
theorem publish_logged (h : Host σ) (store : Id) (binding : ArtifactBinding) (ciphertext : Bytes)
    (st : Store (σ × List Io)) : ∃ out st', publish h.logged store binding ciphertext st =
      (.ok out, st') ∧ Answer h.logged (Synchronized st.world.2) (Rough st.world.2) store binding
        ciphertext st.file st.uncertain st' out :=
  publish_answers (logged_watched h st.world.2) (confirm_logged h st.world.2) store binding
    ciphertext st (smooth_start st).2

theorem Writes.of_logged {binding : ArtifactBinding} {ciphertext : Bytes}
    (hwrites : Writes h.logged binding ciphertext r) : Writes h binding ciphertext r := by
  obtain ⟨hbinding, hbytes, world, htag⟩ := hwrites
  exact ⟨hbinding, hbytes, world.1, htag⟩

/-- The steps of a call of `reconcile` that answers `Durable`. -/
theorem reconcile_durable {binding : ArtifactBinding}
    (hrun : reconcile h.logged store binding st = (.ok .Durable, st')) :
    ∃ scanned mid, scan h.logged store (some binding) st = (.ok scanned, mid) ∧
      scanned.matched.isSome = true ∧ st'.file = mid.file ∧
      st'.world.2 = mid.world.2 ++ [.Check true, .Synchronize true, .Check true] := by
  unfold reconcile at hrun
  obtain ⟨answer, mid, hscan, hrest⟩ := Prog.bind_ok.mp hrun
  unfold attempt Prog.attempt at hscan
  cases hx : scan h.logged store (some binding) st with
  | mk scanned mid' =>
    rw [hx] at hscan
    cases scanned with
    | error e =>
      cases hscan
      simp at hrest
    | ok scanned =>
      cases hscan
      refine ⟨scanned, mid, rfl, ?_⟩
      simp only at hrest
      split at hrest
      · simp at hrest
      rename_i hsome
      refine ⟨by simpa [Option.isSome_iff_ne_none] using hsome, ?_⟩
      have hsync : Triple (Seen mid.file mid.uncertain fun world => world.2 = mid.world.2)
          (do check h.logged; synchronize h.logged; check h.logged)
          (fun _ => Seen mid.file mid.uncertain fun world =>
            world.2 = mid.world.2 ++ [.Check true] ++ [.Synchronize true] ++ [.Check true])
          (fun _ _ => True) := by
        apply Triple.bind ((ask_logged _ .Check h.check).conseq (fun _ h => h) (fun _ _ h => h)
          fun _ _ _ => trivial)
        intro _
        apply Triple.bind ((ask_logged _ .Synchronize h.synchronize).conseq (fun _ h => h)
          (fun _ _ h => h) fun _ _ _ => trivial)
        intro _
        exact (ask_logged _ .Check h.check).conseq (fun _ h => h) (fun _ _ h => h)
          fun _ _ _ => trivial
      have hend := hsync mid ⟨⟨rfl, rfl⟩, rfl⟩
      obtain ⟨tested, last, htest, hlast⟩ := Prog.bind_ok.mp hrest
      unfold attempt Prog.attempt at htest
      split at htest
      · rename_i hok
        rw [hok] at hend
        cases htest
        cases hlast
        exact ⟨hend.1.1, by simpa using hend.2⟩
      · cases htest
        simp at hlast

/-- A file that the calls left whole is sound. -/
theorem Extends.sound (ha : Authentic h) {original : Bytes} {calls : List Call} {file : Bytes}
    {old added : List Record} {tail : Bytes} (hold : Sound (Accepted h) store original old)
    (hx : Extends h store original calls file old added tail)
    (hc : Complete store file records) : Sound (Accepted h) store file records := by
  have hnil : tail = [] := by
    by_contra hne
    exact (hx.torn hne).not_complete records hc
  have hfile : file = original ++ encodes added := by
    rw [hx.file_eq, hnil, List.append_nil]
  obtain rfl : records = old ++ added := hc.unique (hfile ▸ hx.complete)
  refine ⟨hc, ?_, ?_⟩
  · rw [hfile, hold.complete.take_header]
    exact hold.header
  · intro r hr
    rcases List.mem_append.mp hr with hr | hr
    · exact hold.tags r hr
    · obtain ⟨binding, ciphertext, -, hwrites⟩ := hx.published r hr
      exact hwrites.tagged ha

/-- One record more is below the limit of the file. -/
theorem Complete.room_for (hc : Complete store f records) (hroom : records.length < MAX_RECORDS)
    (r : Record) : f.length + r.encode.length ≤ MAX_STORE_BYTES := by
  obtain ⟨header, hlen, rfl⟩ := hc.header
  have hrecords := length_encodes_le records
  have hr := r.le
  rw [List.length_append, hlen, r.length_encode]
  unfold MAX_RECORDS MAX_STORE_BYTES MAX_CIPHERTEXT HEADER RECORD_HEADER BINDING_BYTES TAG at *
  omega

end

/-! ## The laws of the calls -/

/-- What the answers of a store in this state say, of the file and of the answers to come. -/
structure StoreLaws {σ : Type} (h : Host σ) (store : Id) (st : Store (σ × List Io)) : Prop where
  /-- The record is behind the bytes that were there, and was synchronized after it was written. -/
  durable : ∀ binding ciphertext st',
    publish h.logged store binding ciphertext st = (.ok .Durable, st') →
    (∃ r, Writes h binding ciphertext r ∧ st'.file = st.file ++ r.encode) ∧
      Synchronized st.world.2 st'.world
  /-- From then on its bytes come back, and those that came back before still do. -/
  kept : ∀ binding ciphertext st',
    publish h.logged store binding ciphertext st = (.ok .Durable, st') →
    ∀ more, settled_calls h.logged store more st' →
      Retrieves h store binding ciphertext (after_calls h.logged store more st') ∧
      ∀ other bytes, (authenticated_bytes h.logged store other st).1 = .ok bytes →
        Retrieves h store other bytes (after_calls h.logged store more st')
  not_published : ∀ binding ciphertext st',
    publish h.logged store binding ciphertext st = (.ok .NotPublished, st') → st'.file = st.file
  /-- The scan found the record, and the file was synchronized after that. -/
  reconciled : ∀ binding st', reconcile h.logged store binding st = (.ok .Durable, st') →
    (∃ records r, Complete store st'.file records ∧ r ∈ records ∧ r.binding = binding) ∧
    ∃ scanned mid, scan h.logged store (some binding) st = (.ok scanned, mid) ∧
      scanned.matched.isSome = true ∧
      st'.world.2 = mid.world.2 ++ [.Check true, .Synchronize true, .Check true]
  /-- Below the limit of the records there is room: when no call fails, a record that the store
  takes is durable. -/
  room : ∀ records, Complete store st.file records → records.length < MAX_RECORDS →
    (∀ r : Record, st.file.length + r.encode.length ≤ MAX_STORE_BYTES) ∧
    ∀ binding ciphertext, st.uncertain = false → binding.store = store.1 →
      (∀ r ∈ records, binding.job ≠ r.binding.job) → 1 ≤ ciphertext.length →
      ciphertext.length ≤ MAX_CIPHERTEXT → age_magic <+: ciphertext →
      Untroubled st (publish h.logged store binding ciphertext st).2 →
      (publish h.logged store binding ciphertext st).1 = .ok .Durable

section
variable {σ : Type} {h : Host σ} {store : Id} {st st' : Store (σ × List Io)}
  {binding : ArtifactBinding} {ciphertext : Bytes}

theorem publish_durable
    (hrun : publish h.logged store binding ciphertext st = (.ok .Durable, st')) :
    (∃ records r, Appends h.logged store binding ciphertext st.file records r ∧
      st'.file = st.file ++ r.encode) ∧ Synchronized st.world.2 st'.world := by
  obtain ⟨out, final, hrun', hanswer⟩ := publish_logged h store binding ciphertext st
  cases hrun.symm.trans hrun'
  exact ⟨hanswer.1, hanswer.2.2⟩

theorem durable_is_kept (ha : Authentic h)
    (hrun : publish h.logged store binding ciphertext st = (.ok .Durable, st')) (more : List Call)
    (hset : settled_calls h.logged store more st') :
    Retrieves h store binding ciphertext (after_calls h.logged store more st') ∧
    ∀ other bytes, (authenticated_bytes h.logged store other st).1 = .ok bytes →
      Retrieves h store other bytes (after_calls h.logged store more st') := by
  obtain ⟨⟨records, r, happends, hfile⟩, -⟩ := publish_durable hrun
  have hsound := happends.snoc ha.logged
  rw [← hfile] at hsound
  obtain ⟨rest, hrest⟩ := settled_calls_sound ha.logged more hsound hset
  obtain ⟨hbinding, hbytes, -⟩ := happends.writes
  constructor
  · rw [← hbinding, ← hbytes]
    exact retrieves_of_mem hrest (by simp)
  · intro other bytes hok
    obtain ⟨records', r', hsound', hr', rfl, rfl⟩ := authenticated_bytes_ok hok
    obtain rfl := hsound'.complete.unique happends.sound.complete
    exact retrieves_of_mem hrest (by simp [hr'])

theorem reconcile_finds (hrun : reconcile h.logged store binding st = (.ok .Durable, st')) :
    ∃ records r, Complete store st'.file records ∧ r ∈ records ∧ r.binding = binding := by
  obtain ⟨scanned, mid, hscan, hsome, hfile, -⟩ := reconcile_durable hrun
  have hspec : Triple (Same st.file st.uncertain) (scan h.logged store (some binding)) _ _ :=
    scan_spec (some binding)
  have hend := hspec st ⟨rfl, rfl⟩
  rw [hscan] at hend
  obtain ⟨⟨records, hscans, -⟩, hsame⟩ := hend
  obtain ⟨bytes, hbytes⟩ := Option.isSome_iff_exists.mp hsome
  have hmatches := hscans.2.1
  rw [hbytes] at hmatches
  obtain ⟨r, hr, hbinding, -⟩ := (mem_of_matches_of hmatches).resolve_left (by simp)
  refine ⟨records, r, ?_, hr, hbinding⟩
  rw [hfile, hsame.1]
  exact hscans.1.complete

/-- A record that the store takes is durable when no call fails. -/
theorem publish_succeeds {records : List Record}
    (hp : Publishable h.logged store binding ciphertext st.file records)
    (hflag : st.uncertain = false)
    (ht : Untroubled st (publish h.logged store binding ciphertext st).2) :
    (publish h.logged store binding ciphertext st).1 = .ok .Durable := by
  obtain ⟨out, final, hrun, hanswer⟩ := publish_logged h store binding ciphertext st
  rw [hrun] at ht ⊢
  have hsmooth := ht.not_rough
  cases out with
  | Durable => rfl
  | NotPublished =>
    rcases hanswer.2 with hrough | hno
    · exact absurd hrough hsmooth
    · exact absurd ⟨records, hp⟩ hno
  | Unknown =>
    rcases hanswer.2 with hset | hrough | hno
    · simp [hflag] at hset
    · exact absurd hrough hsmooth
    · refine absurd ⟨records, none, hp.sound, matches_of_fresh none hp.job, ?_⟩ hno
      rintro b ⟨⟩
      exact hp.store

end

/-- The laws of the calls hold in every state that calls lead to. -/
theorem the_answers_of_the_store_are_true_and_stay_true {σ : Type} (h : Host σ)
    (ha : Authentic h) (store : Id) (original : Bytes) (world : σ × List Io)
    {st : Store (σ × List Io)} (hopen : from_io h.logged store original world = (.ok (), st))
    (calls : List Call) : StoreLaws h store (after_calls h.logged store calls st) where
  durable := by
    intro binding ciphertext st' hrun
    obtain ⟨⟨records, r, happends, hfile⟩, hsync⟩ := publish_durable hrun
    exact ⟨⟨r, happends.writes.of_logged, hfile⟩, hsync⟩
  kept := fun binding ciphertext st' hrun more hset => durable_is_kept ha hrun more hset
  not_published := by
    intro binding ciphertext st' hrun
    obtain ⟨out, final, hrun', hanswer⟩ := publish_logged h store binding ciphertext _
    cases hrun.symm.trans hrun'
    exact hanswer.1.1
  reconciled := by
    intro binding st' hrun
    obtain ⟨scanned, mid, hscan, hsome, -, hlog⟩ := reconcile_durable hrun
    exact ⟨reconcile_finds hrun, scanned, mid, hscan, hsome, hlog⟩
  room := by
    intro records hc hroom
    refine ⟨hc.room_for hroom, ?_⟩
    intro binding ciphertext hflag hstore hjob hpos hle hmagic ht
    obtain ⟨old, hold, hfile⟩ := from_io_ok hopen
    obtain ⟨added, tail, hx⟩ := after_calls_extends (h := h.logged) hold.complete calls hfile
    have hsound := hx.sound ha.logged (ha.logged.sound hold) hc
    exact publish_succeeds ⟨hsound, hroom, hstore, hjob, hpos, hle, hmagic⟩ hflag ht

/-- A host on which nothing fails, with the tag of zeros for everything. -/
def zero_host : Host Unit where
  check w := (.ok (), w)
  size w := (.ok (), w)
  read_at _ _ w := (.ok (), w)
  append _ _ w := (.ok (), w)
  synchronize w := (.ok (), w)
  tag _ _ w := (.ok zero_tag, w)
  verify _ _ tag w := (if tag = List.replicate 32 0 then .ok () else .error .Integrity, w)

theorem zero_host_authentic : Authentic zero_host where
  stable := by
    rintro purpose parts tag ⟨world, hok⟩ world'
    exact hok
  own := by
    intro purpose parts tag world hok world'
    cases hok
    rfl

/-- The bytes of a record that was published come back. -/
theorem a_published_record_comes_back :
    (publish zero_host.logged ones ones_binding age_magic
      (from_io zero_host.logged ones empty_store ((), [])).2).1 = .ok .Durable ∧
    Retrieves zero_host ones ones_binding age_magic (publish zero_host.logged ones ones_binding
      age_magic (from_io zero_host.logged ones empty_store ((), [])).2).2 := by
  have hopen : (from_io zero_host.logged ones empty_store ((), [])).1 = .ok () := by
    decide +kernel
  have hdurable : (publish zero_host.logged ones ones_binding age_magic
      (from_io zero_host.logged ones empty_store ((), [])).2).1 = .ok .Durable := by decide +kernel
  generalize hst : (from_io zero_host.logged ones empty_store ((), [])).2 = st at hdurable ⊢
  have hlaws := the_answers_of_the_store_are_true_and_stay_true zero_host zero_host_authentic ones
    empty_store ((), []) (Prod.ext hopen hst) []
  exact ⟨hdurable, (hlaws.kept _ _ _ (Prod.ext hdurable rfl) [] trivial).1⟩

end openwrt_mcp_adapters.backups
