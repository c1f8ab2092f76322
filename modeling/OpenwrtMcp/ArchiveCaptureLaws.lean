-- A capture returns an archive exactly when its channel told the binding and as many bytes as
-- the binding says, in whatever pieces. Every other end of it invalidates the backend.
import OpenwrtMcp.ArchiveCapture
import OpenwrtMcp.SessionLaws

open message_loops openwrt_mcp_runtime.backups

namespace openwrt_mcp_backend_ssh.transactions

/-- The messages of a completed capture, up to the one that closes its channel. -/
structure Transcript (binding : ArtifactBinding) (body : List ChannelMsg) (payload : Bytes) :
    Prop where
  accepted : body.count .Success = 1
  ended : body.count .Eof = 1
  status : exit_codes body = [0]
  known : ∀ m ∈ body, m = .Success ∨ m = .Eof ∨ (∃ code, m = .ExitStatus code) ∨
    (∃ data, m = .Data data ∧ data.length ≤ 65536) ∨ ∃ data, m = .ExtendedData data 1
  ordered : ∀ before m after, body = before ++ m :: after → m.output = true →
    .Success ∈ before ∧ .Eof ∉ before
  eof_after : ∀ before after, body = before ++ .Eof :: after → .Success ∈ before
  stderr_le : (stderr_of body).length ≤ 16384
  stdout_eq : stdout_of body = binding.encoded ++ payload
  length_eq : payload.length = binding.source_bytes

/-! ## The echo of the binding -/

variable {binding : ArtifactBinding} {maximum : Nat} {body rest : List ChannelMsg}
  {m : ChannelMsg} {out data : Bytes}

/-- As far as `out` repeats the binding, it repeats it. -/
def Echo (binding : ArtifactBinding) (out : Bytes) : Prop :=
  BINDING_BYTES ≤ out.length → out.take BINDING_BYTES = binding.encoded

theorem Echo.of_append (h : Echo binding (out ++ data)) : Echo binding out := by
  intro hlen
  rw [← h (by simp; omega), List.take_append_of_le_length hlen]

/-- The prefix, where `out` was taken: its bytes and then zeros. -/
def buffer (out : Bytes) : Bytes :=
  out.take BINDING_BYTES ++ List.replicate (BINDING_BYTES - out.length) 0

theorem buffer_full (h : BINDING_BYTES ≤ out.length) : buffer out = out.take BINDING_BYTES := by
  simp [buffer, Nat.sub_eq_zero_of_le h]

/-- A piece of data goes on in the prefix where the last one ended. -/
theorem buffer_append (out data : Bytes) :
    (buffer out).take (min BINDING_BYTES out.length) ++
        data.take (min (BINDING_BYTES - min BINDING_BYTES out.length) data.length) ++
        (buffer out).drop (min BINDING_BYTES out.length +
          min (BINDING_BYTES - min BINDING_BYTES out.length) data.length) =
      buffer (out ++ data) := by
  have hmissing : BINDING_BYTES - min BINDING_BYTES out.length = BINDING_BYTES - out.length := by
    omega
  have hlen : (out.take BINDING_BYTES).length = min BINDING_BYTES out.length :=
    List.length_take
  have htake : (buffer out).take (min BINDING_BYTES out.length) = out.take BINDING_BYTES := by
    unfold buffer
    rw [← hlen, List.take_left]
  have hdrop : (buffer out).drop (min BINDING_BYTES out.length +
      min (BINDING_BYTES - out.length) data.length) =
      List.replicate (BINDING_BYTES - (out ++ data).length) 0 := by
    unfold buffer
    rw [← List.drop_drop, ← hlen, List.drop_left, List.drop_replicate, List.length_append]
    congr 1
    omega
  rw [hmissing, htake, hdrop, buffer, List.take_append, ← List.take_eq_take_min]

theorem drop_min (k : Nat) (data : Bytes) : data.drop (min k data.length) = data.drop k := by
  by_cases h : k ≤ data.length
  · rw [Nat.min_eq_left h]
  · rw [Nat.min_eq_right (by omega), List.drop_length, List.drop_of_length_le (by omega)]

/-- What the bytes behind the prefix become. -/
theorem drop_binding (out data : Bytes) :
    out.drop BINDING_BYTES ++
        data.drop (min (BINDING_BYTES - min BINDING_BYTES out.length) data.length) =
      (out ++ data).drop BINDING_BYTES := by
  have hmissing : BINDING_BYTES - min BINDING_BYTES out.length = BINDING_BYTES - out.length := by
    omega
  rw [hmissing, drop_min, List.drop_append]

/-! ## The loop -/

/-- The messages that the loop goes on at, behind those of `body`. -/
def Next (binding : ArtifactBinding) (maximum : Nat) (body : List ChannelMsg) :
    ChannelMsg → Prop
  | .Success => .Success ∉ body
  | .Data data => (.Success ∈ body ∧ .Eof ∉ body) ∧ data.length ≤ 65536 ∧
    (stdout_of body ++ data).length ≤ maximum ∧ Echo binding (stdout_of body ++ data)
  | .ExtendedData data ext => ext = 1 ∧ (.Success ∈ body ∧ .Eof ∉ body) ∧
    (stderr_of body ++ data).length ≤ 16384
  | .ExitStatus _ => exit_codes body = []
  | .Eof => .Success ∈ body ∧ .Eof ∉ body
  | .Close | .WindowAdjusted _ | .Failure | .Other _ => False

/-- The variables of the loop behind `body`. -/
def Capture.behind (body : List ChannelMsg) : Capture where
  prefix_buffer := buffer (stdout_of body)
  prefix_bytes := min BINDING_BYTES (stdout_of body).length
  bytes := (stdout_of body).drop BINDING_BYTES
  accepted := decide (.Success ∈ body)
  eof := decide (.Eof ∈ body)
  status := (exit_codes body).head?
  stderr_bytes := (stderr_of body).length

/-- No more than `maximum` bytes were taken, and no more than the limit of the second stream. -/
def Room (maximum : Nat) (body : List ChannelMsg) : Prop :=
  (stdout_of body).length ≤ maximum ∧ (stderr_of body).length ≤ 16384

theorem Next.room (h : Next binding maximum body m) (hroom : Room maximum body) :
    Room maximum (body ++ [m]) := by
  unfold Room at hroom ⊢
  rw [stdout_snoc, stderr_snoc]
  cases m with
  | Data data =>
    simp only [ChannelMsg.stdout, ChannelMsg.stderr, List.append_nil]
    exact ⟨h.2.2.1, hroom.2⟩
  | ExtendedData data ext =>
    simp only [ChannelMsg.stdout, ChannelMsg.stderr, List.append_nil]
    exact ⟨hroom.1, h.2.2⟩
  | _ =>
    simp only [ChannelMsg.stdout, ChannelMsg.stderr, List.append_nil]
    exact hroom

theorem each_room (h : Each (Next binding maximum) body) : Room maximum body := by
  induction body using List.reverseRecOn with
  | nil => simp [Room, stdout_of, stderr_of]
  | append_singleton body m ih =>
    rw [each_snoc] at h
    exact h.2.room (ih h.1)

theorem on_data_room (hroom : Room maximum body) (hdata : data.length ≤ 65536) :
    (Capture.behind body).on_data binding maximum data =
      if (stdout_of body ++ data).length ≤ maximum then
        if BINDING_BYTES ≤ (stdout_of body ++ data).length ∧
            (stdout_of body ++ data).take BINDING_BYTES ≠ binding.encoded then failed .Integrity
        else .ok { Capture.behind body with
          prefix_buffer := buffer (stdout_of body ++ data)
          prefix_bytes := min BINDING_BYTES (stdout_of body ++ data).length
          bytes := (stdout_of body ++ data).drop BINDING_BYTES }
      else failed .Limit := by
  obtain ⟨hout, -⟩ := hroom
  have hprefix : min BINDING_BYTES (stdout_of body).length ≤ maximum := by omega
  have hbytes : ((stdout_of body).drop BINDING_BYTES).length ≤
      maximum - min BINDING_BYTES (stdout_of body).length := by
    rw [List.length_drop]
    omega
  have hfull : min BINDING_BYTES (stdout_of body).length +
      min (BINDING_BYTES - min BINDING_BYTES (stdout_of body).length) data.length =
      min BINDING_BYTES (stdout_of body ++ data).length := by
    rw [List.length_append]
    omega
  have hfits : data.length > maximum - min BINDING_BYTES (stdout_of body).length -
      ((stdout_of body).drop BINDING_BYTES).length ↔
      ¬ (stdout_of body ++ data).length ≤ maximum := by
    rw [List.length_append, List.length_drop]
    omega
  have hbuffer := buffer_append (stdout_of body) data
  rw [hfull] at hbuffer
  have hecho : min BINDING_BYTES (stdout_of body ++ data).length = BINDING_BYTES ∧
      buffer (stdout_of body ++ data) ≠ binding.encoded ↔
      BINDING_BYTES ≤ (stdout_of body ++ data).length ∧
        (stdout_of body ++ data).take BINDING_BYTES ≠ binding.encoded := by
    rw [min_eq_left_iff]
    exact and_congr_right fun hlen => by rw [buffer_full hlen]
  unfold Capture.on_data
  rw [if_neg (Nat.not_lt.2 hdata)]
  simp only [Capture.behind, subtract_ok hprefix, subtract_ok hbytes,
    subtract_ok (Nat.min_le_left _ _), hfits, hbuffer, drop_binding, hfull, hecho, Bind.bind,
    Except.bind, ite_not]

theorem on_data_ok (hroom : Room maximum body) (hdata : data.length ≤ 65536)
    (hlen : (stdout_of body ++ data).length ≤ maximum)
    (hecho : Echo binding (stdout_of body ++ data)) :
    (Capture.behind body).on_data binding maximum data =
      .ok (Capture.behind (body ++ [.Data data])) := by
  have hgood : ¬ (BINDING_BYTES ≤ (stdout_of body ++ data).length ∧
      (stdout_of body ++ data).take BINDING_BYTES ≠ binding.encoded) := by
    rintro ⟨hfull, hne⟩
    exact hne (hecho hfull)
  rw [on_data_room hroom hdata, if_pos hlen, if_neg hgood]
  simp [Capture.behind, ChannelMsg.stdout, ChannelMsg.stderr, ChannelMsg.exit_code]

theorem on_data_error (hroom : Room maximum body)
    (h : ¬ (data.length ≤ 65536 ∧ (stdout_of body ++ data).length ≤ maximum ∧
      Echo binding (stdout_of body ++ data))) :
    ∃ e, (Capture.behind body).on_data binding maximum data = .error (.Failed e) := by
  by_cases hdata : data.length ≤ 65536
  · rw [on_data_room hroom hdata]
    by_cases hlen : (stdout_of body ++ data).length ≤ maximum
    · have hbad : BINDING_BYTES ≤ (stdout_of body ++ data).length ∧
          (stdout_of body ++ data).take BINDING_BYTES ≠ binding.encoded := by
        by_contra hgood
        exact h ⟨hdata, hlen, fun hfull => by_contra fun hne => hgood ⟨hfull, hne⟩⟩
      rw [if_pos hlen, if_pos hbad]
      exact ⟨_, rfl⟩
    · rw [if_neg hlen]
      exact ⟨_, rfl⟩
  · unfold Capture.on_data
    rw [if_pos (Nat.not_le.1 hdata)]
    exact ⟨_, rfl⟩

theorem on_stderr_room (hroom : Room maximum body) :
    (Capture.behind body).on_stderr data =
      if (stderr_of body ++ data).length ≤ 16384 then
        .ok (Capture.behind (body ++ [.ExtendedData data 1]))
      else failed .Limit := by
  have hfits : data.length > 16384 - (stderr_of body).length ↔
      ¬ (stderr_of body ++ data).length ≤ 16384 := by
    have := hroom.2
    rw [List.length_append]
    omega
  simp only [Capture.on_stderr, Capture.behind, subtract_ok hroom.2, hfits, ite_not, Bind.bind,
    Except.bind]
  simp [ChannelMsg.stdout, ChannelMsg.stderr, ChannelMsg.exit_code]

/-- Data counts between the acceptance and the end. -/
theorem on_message_data {remote : CaptureRemote} (haccepted : .Success ∈ body)
    (hopen : .Eof ∉ body) : (Capture.behind body).on_message binding maximum remote (.Data data) =
      ((Capture.behind body).on_data binding maximum data).map .Continue := by
  refine (if_pos (by simp [Capture.behind, haccepted, hopen])).trans ?_
  cases (Capture.behind body).on_data binding maximum data <;> rfl

theorem on_message_stderr {remote : CaptureRemote} (haccepted : .Success ∈ body)
    (hopen : .Eof ∉ body) :
    (Capture.behind body).on_message binding maximum remote (.ExtendedData data 1) =
      ((Capture.behind body).on_stderr data).map .Continue := by
  refine (if_pos (by simp [Capture.behind, haccepted, hopen])).trans ?_
  cases (Capture.behind body).on_stderr data <;> rfl

theorem on_message_next {remote : CaptureRemote} (hroom : Room maximum body)
    (h : Next binding maximum body m) :
    (Capture.behind body).on_message binding maximum remote m =
      .ok (.Continue (.behind (body ++ [m]))) := by
  cases m with
  | Success =>
    have h : .Success ∉ body := h
    unfold Capture.on_message
    simp [Capture.behind, ChannelMsg.stdout, ChannelMsg.stderr, ChannelMsg.exit_code, h]
  | Eof =>
    obtain ⟨haccepted, hopen⟩ := h
    unfold Capture.on_message
    simp [Capture.behind, ChannelMsg.stdout, ChannelMsg.stderr, ChannelMsg.exit_code, haccepted,
      hopen]
  | ExitStatus code =>
    have h : exit_codes body = [] := h
    unfold Capture.on_message
    simp [Capture.behind, ChannelMsg.stdout, ChannelMsg.stderr, ChannelMsg.exit_code, h]
  | Data data =>
    obtain ⟨⟨haccepted, hopen⟩, hdata, hlen, hecho⟩ := h
    rw [on_message_data haccepted hopen, on_data_ok hroom hdata hlen hecho]
    rfl
  | ExtendedData data ext =>
    obtain ⟨rfl, ⟨haccepted, hopen⟩, hlen⟩ := h
    rw [on_message_stderr haccepted hopen, on_stderr_room hroom, if_pos hlen]
    rfl
  | _ => exact h.elim

theorem on_message_refused {remote : CaptureRemote} (hroom : Room maximum body)
    (h : ¬ Next binding maximum body m) (hclose : m ≠ .Close)
    (hflow : is_flow_control m = false) :
    ∃ e, (Capture.behind body).on_message binding maximum remote m = .error (.Failed e) := by
  cases m with
  | Success =>
    have h : ¬ .Success ∉ body := h
    exact ⟨_, if_neg (by simpa [Capture.behind] using h)⟩
  | Eof =>
    have h : ¬ (.Success ∈ body ∧ .Eof ∉ body) := h
    exact ⟨_, if_neg (by simpa [Capture.behind] using h)⟩
  | ExitStatus code =>
    have h : ¬ exit_codes body = [] := h
    exact ⟨_, if_neg (by simpa [Capture.behind] using h)⟩
  | Data data =>
    by_cases hopen : .Success ∈ body ∧ .Eof ∉ body
    · obtain ⟨e, he⟩ := on_data_error hroom fun hdata => h ⟨hopen, hdata⟩
      rw [on_message_data hopen.1 hopen.2, he]
      exact ⟨e, rfl⟩
    · exact ⟨_, if_neg (by simpa [Capture.behind] using hopen)⟩
  | ExtendedData data ext =>
    by_cases hopen : ext = 1 ∧ .Success ∈ body ∧ .Eof ∉ body
    · obtain ⟨rfl, haccepted, hopen⟩ := hopen
      have hfull : ¬ (stderr_of body ++ data).length ≤ 16384 := fun hlen =>
        h ⟨rfl, ⟨haccepted, hopen⟩, hlen⟩
      rw [on_message_stderr haccepted hopen, on_stderr_room hroom, if_neg hfull]
      exact ⟨_, rfl⟩
    · exact ⟨_, if_neg (by simpa [Capture.behind] using hopen)⟩
  | Close => exact absurd rfl hclose
  | WindowAdjusted size => cases hflow
  | _ => exact ⟨_, rfl⟩

/-- The channel has told all that a capture waits for. -/
structure Whole (binding : ArtifactBinding) (body : List ChannelMsg) : Prop where
  accepted : .Success ∈ body
  ended : .Eof ∈ body
  status : (exit_codes body).head? = some 0
  length_eq : (stdout_of body).length = binding.source_bytes + BINDING_BYTES

/-- The archive that a whole capture returns. -/
def archive (h : Whole binding body) : CapturedArchive where
  binding := binding
  bytes := (stdout_of body).drop BINDING_BYTES
  length_eq := by
    rw [List.length_drop, h.length_eq, Nat.add_sub_cancel]
  length_le := by
    rw [List.length_drop, h.length_eq, Nat.add_sub_cancel]
    exact binding.source_bytes_le

theorem behind_bytes (body : List ChannelMsg) :
    (Capture.behind body).prefix_bytes + (Capture.behind body).bytes.length =
      (stdout_of body).length := by
  simp only [Capture.behind, List.length_drop]
  omega

theorem on_message_close {remote : CaptureRemote} (hclose : remote.close = .ok ())
    (hclosed : remote.closed = .ok ()) (h : Whole binding body) :
    (Capture.behind body).on_message binding (binding.source_bytes + BINDING_BYTES) remote .Close =
      .ok (.Return (archive h)) := by
  have hlength := (archive h).length_eq
  have hcompleted : CapturedArchive.completed binding (Capture.behind body).bytes
      (Capture.behind body).bytes.length = .ok (archive h) :=
    dif_pos ⟨hlength, hlength, (archive h).length_le⟩
  refine (if_pos ?_).trans ?_
  · rw [behind_bytes]
    simp [Capture.behind, h.accepted, h.ended, h.status, h.length_eq]
  · rw [hclose, hclosed, hcompleted]
    rfl

theorem on_message_early {remote : CaptureRemote} (h : ¬ Whole binding body) :
    (Capture.behind body).on_message binding (binding.source_bytes + BINDING_BYTES) remote .Close =
      .error (.Failed .Integrity) := by
  refine if_neg fun hall => h ?_
  rw [behind_bytes] at hall
  simp only [Capture.behind, Bool.and_eq_true, decide_eq_true_eq] at hall
  exact ⟨hall.1.1.1, hall.1.1.2, of_decide_eq_true hall.1.2, hall.2⟩

/-- All that the loop does on a message: it goes on, it returns at a close, or it fails. -/
theorem on_message_cases {remote : CaptureRemote} (hclose : remote.close = .ok ())
    (hclosed : remote.closed = .ok ())
    (hroom : Room (binding.source_bytes + BINDING_BYTES) body) (hflow : is_flow_control m = false) :
    (Next binding (binding.source_bytes + BINDING_BYTES) body m ∧
      (Capture.behind body).on_message binding (binding.source_bytes + BINDING_BYTES) remote m =
        .ok (.Continue (.behind (body ++ [m])))) ∨
    (∃ h : Whole binding body, m = .Close ∧
      (Capture.behind body).on_message binding (binding.source_bytes + BINDING_BYTES) remote m =
        .ok (.Return (archive h))) ∨
    ∃ e, (Capture.behind body).on_message binding (binding.source_bytes + BINDING_BYTES) remote m =
      .error (.Failed e) := by
  by_cases hm : Next binding (binding.source_bytes + BINDING_BYTES) body m
  · exact .inl ⟨hm, on_message_next hroom hm⟩
  · by_cases hend : m = .Close
    · subst hend
      by_cases h : Whole binding body
      · exact .inr (.inl ⟨h, rfl, on_message_close hclose hclosed h⟩)
      · exact .inr (.inr ⟨_, on_message_early h⟩)
    · exact .inr (.inr (on_message_refused hroom hm hend hflow))

/-- What the loop goes on at. -/
theorem taken_iff_each {remote : CaptureRemote} (hclose : remote.close = .ok ())
    (hclosed : remote.closed = .ok ()) (hflow : ∀ m ∈ body, is_flow_control m = false)
    {c : Capture} :
    Taken (Capture.on_message binding (binding.source_bytes + BINDING_BYTES) remote) .new body c ↔
      Each (Next binding (binding.source_bytes + BINDING_BYTES)) body ∧ c = .behind body := by
  let P := fun body c => Each (Next binding (binding.source_bytes + BINDING_BYTES)) body ∧
    c = Capture.behind body
  refine taken_iff (P := P) hflow (fun c => ?_) fun body m c hm => ?_
  · simp [P, each_nil, Capture.behind, Capture.new, stdout_of, stderr_of, exit_codes, buffer]
  · simp only [P]
    constructor
    · rw [each_snoc]
      rintro ⟨⟨hbody, hm⟩, rfl⟩
      exact ⟨_, ⟨hbody, rfl⟩, on_message_next (each_room hbody) hm⟩
    · rintro ⟨_, ⟨hbody, rfl⟩, hturn⟩
      rcases on_message_cases hclose hclosed (each_room hbody) hm with
        ⟨hnext, h⟩ | ⟨_, -, h⟩ | ⟨e, h⟩
      · rw [h] at hturn
        cases hturn
        exact ⟨each_snoc.2 ⟨hbody, hnext⟩, rfl⟩
      · rw [h] at hturn
        cases hturn
      · rw [h] at hturn
        cases hturn

/-! ## The transcripts -/

/-- A transcript that is not complete yet. -/
@[mk_iff]
structure Partial (binding : ArtifactBinding) (maximum : Nat) (body : List ChannelMsg) :
    Prop where
  accepted : body.count .Success ≤ 1
  ended : body.count .Eof ≤ 1
  status : (exit_codes body).length ≤ 1
  known : ∀ m ∈ body, m = .Success ∨ m = .Eof ∨ (∃ code, m = .ExitStatus code) ∨
    (∃ data, m = .Data data ∧ data.length ≤ 65536) ∨ ∃ data, m = .ExtendedData data 1
  ordered : Each (fun before m => m.output = true → .Success ∈ before ∧ .Eof ∉ before) body
  eof_after : Each (fun before m => m = .Eof → .Success ∈ before) body
  room : Room maximum body
  echo : Echo binding (stdout_of body)

theorem room_snoc : Room maximum (body ++ [m]) ↔ Room maximum body ∧
    (stdout_of body ++ m.stdout).length ≤ maximum ∧
      (stderr_of body ++ m.stderr).length ≤ 16384 := by
  unfold Room
  rw [stdout_snoc, stderr_snoc, List.length_append, List.length_append]
  omega

theorem echo_snoc : Echo binding (stdout_of (body ++ [m])) ↔
    Echo binding (stdout_of body) ∧ Echo binding (stdout_of body ++ m.stdout) := by
  rw [stdout_snoc]
  exact ⟨fun h => ⟨h.of_append, h⟩, fun h => h.2⟩

/-- A transcript goes on exactly with the messages that the loop goes on at. -/
theorem partial_snoc : Partial binding maximum (body ++ [m]) ↔
    Partial binding maximum body ∧ Next binding maximum body m := by
  simp only [partial_iff, count_le_one, each_snoc, codes_le_one, room_snoc, echo_snoc,
    List.forall_mem_append, List.forall_mem_singleton]
  cases m with
  | Success =>
    rw [show Next binding maximum body .Success ↔ .Success ∉ body from Iff.rfl]
    simp [Room, ChannelMsg.output, ChannelMsg.exit_code, ChannelMsg.stdout, ChannelMsg.stderr]
    tauto
  | Eof =>
    rw [show Next binding maximum body .Eof ↔ .Success ∈ body ∧ .Eof ∉ body from Iff.rfl]
    simp [Room, ChannelMsg.output, ChannelMsg.exit_code, ChannelMsg.stdout, ChannelMsg.stderr]
    tauto
  | ExitStatus code =>
    rw [show Next binding maximum body (.ExitStatus code) ↔ exit_codes body = [] from Iff.rfl]
    simp [Room, ChannelMsg.output, ChannelMsg.exit_code, ChannelMsg.stdout, ChannelMsg.stderr]
    tauto
  | Data data =>
    rw [show Next binding maximum body (.Data data) ↔ (.Success ∈ body ∧ .Eof ∉ body) ∧
      data.length ≤ 65536 ∧ (stdout_of body ++ data).length ≤ maximum ∧
        Echo binding (stdout_of body ++ data) from Iff.rfl]
    simp [Room, ChannelMsg.output, ChannelMsg.exit_code, ChannelMsg.stdout, ChannelMsg.stderr]
    tauto
  | ExtendedData data ext =>
    rw [show Next binding maximum body (.ExtendedData data ext) ↔ ext = 1 ∧
      (.Success ∈ body ∧ .Eof ∉ body) ∧ (stderr_of body ++ data).length ≤ 16384 from Iff.rfl]
    simp [Room, ChannelMsg.output, ChannelMsg.exit_code, ChannelMsg.stdout, ChannelMsg.stderr]
    tauto
  | _ =>
    simp only [reduceCtorEq, false_and, exists_false, or_self, and_false,
      false_iff, not_and]
    exact fun _ h => h

/-- What the loop takes is the start of a transcript. -/
theorem each_next_iff : Each (Next binding maximum) body ↔ Partial binding maximum body := by
  induction body using List.reverseRecOn with
  | nil =>
    refine ⟨fun _ => ?_, fun _ => each_nil _⟩
    exact ⟨by simp, by simp, by simp [exit_codes], by simp, each_nil _, each_nil _,
      by simp [Room, stdout_of, stderr_of], by simp [Echo, stdout_of, BINDING_BYTES]⟩
  | append_singleton body m ih => rw [each_snoc, ih, partial_snoc]

/-- A transcript is complete with all that a capture waits for. -/
theorem transcript_iff {payload : Bytes} : Transcript binding body payload ↔
    Partial binding (binding.source_bytes + BINDING_BYTES) body ∧ Whole binding body ∧
      payload = (stdout_of body).drop BINDING_BYTES := by
  constructor
  · intro h
    have hlength : (stdout_of body).length = binding.source_bytes + BINDING_BYTES := by
      rw [h.stdout_eq, List.length_append, binding.length_encoded, h.length_eq, Nat.add_comm]
    refine ⟨⟨h.accepted.le, h.ended.le, ?_, h.known, h.ordered, ?_, ⟨hlength.le, h.stderr_le⟩,
      fun _ => ?_⟩, ⟨?_, ?_, ?_, hlength⟩, ?_⟩
    · simp [h.status]
    · rintro before m after heq rfl
      exact h.eof_after before after heq
    · rw [h.stdout_eq, List.take_left' binding.length_encoded]
    · exact List.one_le_count_iff.1 h.accepted.ge
    · exact List.one_le_count_iff.1 h.ended.ge
    · simp [h.status]
    · rw [h.stdout_eq, List.drop_left' binding.length_encoded]
  · rintro ⟨h, hwhole, rfl⟩
    refine ⟨?_, ?_, ?_, h.known, h.ordered, ?_, h.room.2, ?_, (archive hwhole).length_eq⟩
    · exact le_antisymm h.accepted (List.one_le_count_iff.2 hwhole.accepted)
    · exact le_antisymm h.ended (List.one_le_count_iff.2 hwhole.ended)
    · have hstatus := hwhole.status
      have hlen := h.status
      cases hcodes : exit_codes body with
      | nil => simp [hcodes] at hstatus
      | cons code codes =>
        rw [hcodes] at hstatus hlen
        simp_all
    · intro before after heq
      exact h.eof_after before .Eof after heq rfl
    · rw [← h.echo (hwhole.length_eq ▸ Nat.le_add_left _ _), List.take_append_drop]

theorem Transcript.no_close {payload : Bytes} (h : Transcript binding body payload) :
    .Close ∉ body := by
  intro hmem
  simpa using h.known _ hmem

/-! ## The capture -/

/-- Every call on the channel succeeds, and the budget does not expire. -/
structure CaptureRemote.Succeeds (remote : CaptureRemote) : Prop where
  entered : remote.entered = .ok ()
  capture_channel : remote.capture_channel = .ok ()
  requested : remote.requested = .ok ()
  waits : ∀ wait ∈ remote.waits, wait.before = .ok () ∧ wait.after = .ok ()
  ended : remote.ended = .ok ()
  close : remote.close = .ok ()
  closed : remote.closed = .ok ()

variable {remote : CaptureRemote}

theorem receive_waits (h : remote.Succeeds) (ended : Fault BackupError) (c : Capture) :
    receive (Capture.turn binding maximum remote) ended c remote.waits =
      receive (Capture.on_message binding maximum remote) ended c remote.messages := by
  unfold CaptureRemote.messages
  refine receive_filterMap (fun wait hwait hview c => ?_) fun wait hwait m hview c => ?_
  · obtain ⟨hbefore, -⟩ := h.waits wait hwait
    unfold Capture.turn
    rw [hview, hbefore]
    rfl
  · obtain ⟨hbefore, hafter⟩ := h.waits wait hwait
    unfold Capture.turn
    rw [hview, hbefore, hafter]
    rfl

theorem receive_heard (messages : List ChannelMsg) (ended : Fault BackupError) (c : Capture) :
    receive (Capture.on_message binding maximum remote) ended c messages =
      receive (Capture.on_message binding maximum remote) ended c (heard messages) := by
  unfold heard
  rw [← List.filterMap_eq_filter]
  refine receive_filterMap (fun m _ hview c => ?_) fun m _ n hview c => ?_
  · simp [Option.guard] at hview
    cases m with
    | WindowAdjusted size => rfl
    | _ => cases hview
  · simp [Option.guard] at hview
    rw [hview.2]

theorem heard_not_flow {messages : List ChannelMsg} (heq : heard messages = body ++ m :: rest) :
    (∀ m ∈ body, is_flow_control m = false) ∧ is_flow_control m = false := by
  have hall : ∀ m ∈ heard messages, is_flow_control m = false := by simp [heard]
  rw [heq, List.forall_mem_append, List.forall_mem_cons] at hall
  exact ⟨hall.1, hall.2.1⟩

theorem capture_eq (h : remote.Succeeds) : capture binding remote =
    receive (Capture.on_message binding (binding.source_bytes + BINDING_BYTES) remote)
      (.Failed .Unavailable) .new (heard remote.messages) := by
  have hfits : ¬ binding.source_bytes + BINDING_BYTES > MAX_PLAINTEXT + BINDING_BYTES := by
    have := binding.source_bytes_le
    omega
  rw [← receive_heard, ← receive_waits h]
  unfold capture
  rw [h.capture_channel, h.requested, h.ended, if_neg hfits]
  rfl

/-- A loop that hears a transcript and the close behind it returns, and no other one does. -/
theorem capture_ok_iff (h : remote.Succeeds) {captured : CapturedArchive} :
    capture binding remote = .ok captured ↔
      ∃ body rest, heard remote.messages = body ++ .Close :: rest ∧ .Close ∉ body ∧
        captured.binding = binding ∧ Transcript binding body captured.bytes := by
  rw [capture_eq h, receive_ok]
  constructor
  · rintro ⟨body, m, rest, c, heq, htaken, hturn⟩
    obtain ⟨hflow, hlast⟩ := heard_not_flow heq
    obtain ⟨hbody, rfl⟩ := (taken_iff_each h.close h.closed hflow).1 htaken
    rcases on_message_cases h.close h.closed (each_room hbody) hlast with
      ⟨-, hm⟩ | ⟨hwhole, rfl, hm⟩ | ⟨e, hm⟩
    · rw [hm] at hturn
      cases hturn
    · rw [hm] at hturn
      cases hturn
      have htranscript : Transcript binding body (archive hwhole).bytes :=
        transcript_iff.2 ⟨each_next_iff.1 hbody, hwhole, rfl⟩
      exact ⟨body, rest, heq, htranscript.no_close, rfl, htranscript⟩
    · rw [hm] at hturn
      cases hturn
  · rintro ⟨body, rest, heq, -, rfl, htranscript⟩
    obtain ⟨hpart, hwhole, hbytes⟩ := transcript_iff.1 htranscript
    refine ⟨body, .Close, rest, _, heq,
      (taken_iff_each h.close h.closed (heard_not_flow heq).1).2 ⟨each_next_iff.2 hpart, rfl⟩, ?_⟩
    rw [on_message_close h.close h.closed hwhole]
    cases captured
    simp_all [archive]

theorem capture_no_underflow (h : remote.Succeeds) :
    capture binding remote ≠ .error .Underflow := by
  rw [capture_eq h]
  intro hrun
  rcases receive_error hrun with hended | ⟨body, m, rest, c, heq, htaken, hturn⟩
  · cases hended
  · obtain ⟨hflow, hlast⟩ := heard_not_flow heq
    obtain ⟨hbody, rfl⟩ := (taken_iff_each h.close h.closed hflow).1 htaken
    rcases on_message_cases h.close h.closed (each_room hbody) hlast with
      ⟨-, hm⟩ | ⟨_, -, hm⟩ | ⟨e, hm⟩
    · rw [hm] at hturn
      cases hturn
    · rw [hm] at hturn
      cases hturn
    · rw [hm] at hturn
      cases hturn

/-- The channel of a capture is opened for the target of the binding, on a session that is
authenticated and not at work. -/
structure Ready (backend : SshBackend) (binding : ArtifactBinding) : Prop where
  target : ∃ id, backend.capture_target = some id ∧ binding.target = id.1
  epoch : backend.control.epoch = some 1
  free : backend.locked = false

theorem check_capture_ok {backend : SshBackend} (hready : Ready backend binding)
    (h : remote.Succeeds) : backend.check_capture binding remote = .ok () := by
  obtain ⟨id, hid, htarget⟩ := hready.target
  have hfailed : backend.control.failed = false := by
    have hepoch := hready.epoch
    unfold Control.epoch at hepoch
    cases hfailed : backend.control.failed with
    | false => rfl
    | true => simp [hfailed] at hepoch
  unfold SshBackend.check_capture
  rw [h.entered, if_neg (by simp [hid, htarget, hready.epoch]), if_neg (by simp [hready.free]),
    Control.check, if_neg (by simp [hfailed])]
  rfl

/-- An archive is returned exactly for the transcript before the first close, with its binding
and its bytes. Without one the backend has failed for good. -/
theorem a_capture_returns_exactly_the_archive_of_its_transcript (backend : SshBackend)
    (binding : ArtifactBinding) (remote : CaptureRemote) (hready : Ready backend binding)
    (h : remote.Succeeds) :
    (∀ captured, (backend.capture_archive binding remote).1 = .ok captured ↔
      ∃ body rest, heard remote.messages = body ++ .Close :: rest ∧ .Close ∉ body ∧
        captured.binding = binding ∧ Transcript binding body captured.bytes) ∧
    ((¬ ∃ body rest payload, heard remote.messages = body ++ .Close :: rest ∧ .Close ∉ body ∧
        Transcript binding body payload) →
      ∃ e, (backend.capture_archive binding remote).1 = .error (.Failed e) ∧
        (backend.capture_archive binding remote).2.control.failed = true ∧
        (backend.capture_archive binding remote).2.control.epoch = none) ∧
    (backend.capture_archive binding remote).1 ≠ .error .Underflow := by
  unfold SshBackend.capture_archive
  rw [check_capture_ok hready h]
  cases hrun : capture binding remote with
  | ok captured =>
    refine ⟨fun captured' => ?_, fun hnone => ?_, nofun⟩
    · rw [← capture_ok_iff h, hrun]
    · obtain ⟨body, rest, heq, hclose, -, htranscript⟩ := (capture_ok_iff h).1 hrun
      exact absurd ⟨body, rest, _, heq, hclose, htranscript⟩ hnone
  | error e =>
    have hno : capture binding remote ≠ .error .Underflow := capture_no_underflow h
    rw [hrun] at hno
    refine ⟨fun captured => ?_, fun _ => ?_, hno⟩
    · rw [← capture_ok_iff h, hrun]
    · cases e with
      | Underflow => exact absurd rfl hno
      | Failed e => exact ⟨e, rfl, rfl, rfl⟩

/-- An id of sixteen times the same byte. -/
def plain_id (byte : UInt8) : Id := ⟨List.replicate 16 byte, List.length_replicate⟩

def one_byte : BindingFields where
  store := plain_id 1
  target := plain_id 2
  boot := plain_id 3
  job := plain_id 4
  file_bytes := 1
  source_bytes := 1
  format := .Tar

def one_byte_binding : ArtifactBinding := ⟨one_byte.encode, one_byte, by decide, rfl⟩

/-- A channel that repeats the binding in two pieces, the second with the byte behind it. -/
def one_byte_remote : CaptureRemote where
  entered := .ok ()
  capture_channel := .ok ()
  requested := .ok ()
  waits := [ChannelMsg.Success, .Data (one_byte.encode.take 3), .WindowAdjusted 9,
    .ExitStatus 0, .Data (one_byte.encode.drop 3 ++ [7]), .Eof, .Close].map
      fun message => ⟨.ok (), some message, .ok ()⟩
  ended := .ok ()
  close := .ok ()
  closed := .ok ()

def one_byte_backend : SshBackend := ⟨some (plain_id 2), ⟨false, true, true⟩, false⟩

theorem one_byte_is_captured : ∃ captured,
    (one_byte_backend.capture_archive one_byte_binding one_byte_remote).1 = .ok captured ∧
      ∃ body, Transcript one_byte_binding body captured.bytes := by
  have h := (a_capture_returns_exactly_the_archive_of_its_transcript one_byte_backend
    one_byte_binding one_byte_remote ⟨⟨_, rfl, rfl⟩, rfl, rfl⟩
    ⟨rfl, rfl, rfl, by simp [one_byte_remote], rfl, rfl, rfl⟩).1
  have hok : (one_byte_backend.capture_archive one_byte_binding one_byte_remote).1.isOk = true :=
    rfl
  cases hrun : (one_byte_backend.capture_archive one_byte_binding one_byte_remote).1 with
  | ok captured =>
    obtain ⟨body, -, -, -, -, htranscript⟩ := (h captured).1 hrun
    exact ⟨captured, rfl, body, htranscript⟩
  | error e =>
    rw [hrun] at hok
    cases hok

end openwrt_mcp_backend_ssh.transactions
