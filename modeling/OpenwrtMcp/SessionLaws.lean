-- A command is completed exactly when the messages before the first `Close` are those of a
-- completed command, whatever order they come in.
import OpenwrtMcp.SshSession
import Mathlib

open message_loops

namespace openwrt_mcp_backend_ssh

/-- The messages of a completed command, up to the one that closes its channel. -/
structure Transcript (maximum : Nat) (body : List ChannelMsg) (code : UInt32) (out : Bytes) :
    Prop where
  accepted : body.count .Success = 1
  ended : body.count .Eof ≤ 1
  silent : ∀ before after, body = before ++ .Eof :: after → ∀ m ∈ after, m.output = false
  status : exit_codes body = [code]
  known : ∀ m ∈ body, m = .Success ∨ m = .Eof ∨ (∃ code, m = .ExitStatus code) ∨
    (∃ data, m = .Data data) ∨ ∃ data, m = .ExtendedData data 1
  stdout_le : (stdout_of body).length ≤ maximum
  stderr_le : (stderr_of body).length ≤ maximum
  out_eq : out = stdout_of body

/-- How a completed command ends. -/
def outcome (code : UInt32) (out : Bytes) : Outcome :=
  if code ≠ 0 then .error .BackendFailed else .ok out

/-! ## The loop -/

/-- The messages that the loop goes on at, behind those of `body`. -/
def Next (maximum : Nat) (body : List ChannelMsg) : ChannelMsg → Prop
  | .Success => .Success ∉ body
  | .Data data => .Eof ∉ body ∧ (stdout_of body ++ data).length ≤ maximum
  | .ExtendedData data ext => ext = 1 ∧ .Eof ∉ body ∧ (stderr_of body ++ data).length ≤ maximum
  | .ExitStatus _ => exit_codes body = []
  | .Eof => .Eof ∉ body
  | .Close | .WindowAdjusted _ | .Failure | .Other _ => False

/-- The variables of the loop behind `body`. -/
def Completion.behind (body : List ChannelMsg) : Completion where
  stdout := stdout_of body
  stderr_count := (stderr_of body).length
  exit_status := (exit_codes body).head?
  accepted := decide (.Success ∈ body)
  eof := decide (.Eof ∈ body)

variable {maximum : Nat} {close : Bool} {body rest : List ChannelMsg} {m : ChannelMsg}

/-- No more than `maximum` of each stream was taken. -/
def Room (maximum : Nat) (body : List ChannelMsg) : Prop :=
  (stdout_of body).length ≤ maximum ∧ (stderr_of body).length ≤ maximum

theorem Next.room (h : Next maximum body m) (hroom : Room maximum body) :
    Room maximum (body ++ [m]) := by
  unfold Room at hroom ⊢
  rw [stdout_snoc, stderr_snoc]
  cases m <;> simp_all [Next, ChannelMsg.stdout, ChannelMsg.stderr]

theorem each_room (h : Each (Next maximum) body) : Room maximum body := by
  induction body using List.reverseRecOn with
  | nil => simp [Room, stdout_of, stderr_of]
  | append_singleton body m ih =>
    rw [each_snoc] at h
    exact h.2.room (ih h.1)

theorem subtract_ok {ε : Type} {a b : Nat} (h : b ≤ a) :
    (subtract a b : Except (Fault ε) Nat) = .ok (a - b) := if_pos h

theorem on_message_next (hroom : Room maximum body) (h : Next maximum body m) :
    (Completion.behind body).on_message maximum close m =
      .ok (.Continue (.behind (body ++ [m]))) := by
  obtain ⟨hout, herr⟩ := hroom
  cases m with
  | Success =>
    simp only [Next] at h
    simp [Completion.on_message, Completion.behind, ChannelMsg.stdout, ChannelMsg.stderr,
      ChannelMsg.exit_code, h]
  | Eof =>
    simp only [Next] at h
    simp [Completion.on_message, Completion.behind, ChannelMsg.stdout, ChannelMsg.stderr,
      ChannelMsg.exit_code, h]
  | ExitStatus code =>
    simp only [Next] at h
    simp [Completion.on_message, Completion.behind, ChannelMsg.stdout, ChannelMsg.stderr,
      ChannelMsg.exit_code, h]
  | Data data =>
    obtain ⟨hopen, hlen⟩ := h
    rw [List.length_append] at hlen
    have hfits : ¬ data.length > maximum - (stdout_of body).length := by omega
    simp [Completion.on_message, Completion.behind, ChannelMsg.stdout, ChannelMsg.stderr,
      ChannelMsg.exit_code, hopen, subtract_ok hout, hfits, Bind.bind, Except.bind]
  | ExtendedData data ext =>
    obtain ⟨rfl, hopen, hlen⟩ := h
    rw [List.length_append] at hlen
    have hfits : ¬ data.length > maximum - (stderr_of body).length := by omega
    simp [Completion.on_message, Completion.behind, ChannelMsg.stdout, ChannelMsg.stderr,
      ChannelMsg.exit_code, hopen, subtract_ok herr, hfits, Bind.bind, Except.bind]
  | _ => exact h.elim

theorem on_message_refused (close : Bool) (hroom : Room maximum body) (h : ¬ Next maximum body m)
    (hclose : m ≠ .Close) :
    ∃ e, (Completion.behind body).on_message maximum close m = .error (.Failed e) := by
  obtain ⟨hout, herr⟩ := hroom
  cases m with
  | Success => simp_all [Completion.on_message, Completion.behind, Next, failed]
  | Eof => simp_all [Completion.on_message, Completion.behind, Next, failed]
  | ExitStatus code =>
    cases hcodes : exit_codes body with
    | nil => exact absurd hcodes h
    | cons code codes => simp [Completion.on_message, Completion.behind, failed, hcodes]
  | Data data =>
    by_cases hopen : .Eof ∈ body
    · simp [Completion.on_message, Completion.behind, failed, hopen]
    · have hfull : data.length > maximum - (stdout_of body).length := by
        simp only [Next, hopen, not_false_eq_true, true_and, List.length_append] at h
        omega
      simp [Completion.on_message, Completion.behind, hopen, subtract_ok hout, hfull, Bind.bind,
        Except.bind]
  | ExtendedData data ext =>
    by_cases hkind : ext = 1 ∧ .Eof ∉ body
    · have hfull : data.length > maximum - (stderr_of body).length := by
        simp only [Next, hkind.1, hkind.2, not_false_eq_true, true_and, List.length_append] at h
        omega
      simp [Completion.on_message, Completion.behind, hkind.1, hkind.2, subtract_ok herr, hfull,
        Bind.bind, Except.bind]
    · exact ⟨_, if_neg (by simpa [Completion.behind] using hkind)⟩
  | Close => exact absurd rfl hclose
  | _ => exact ⟨_, rfl⟩

theorem on_message_close {code : UInt32} (haccepted : .Success ∈ body)
    (hcode : (exit_codes body).head? = some code) :
    (Completion.behind body).on_message maximum true .Close =
      .ok (.Return (outcome code (stdout_of body))) := by
  by_cases hzero : code = 0
  · simp [Completion.on_message, Completion.behind, haccepted, hcode, hzero, succeeded, outcome,
      Bind.bind, Except.bind]
  · simp [Completion.on_message, Completion.behind, haccepted, hcode, hzero, succeeded, outcome,
      Bind.bind, Except.bind]

theorem on_message_early
    (h : ¬ ∃ code, .Success ∈ body ∧ (exit_codes body).head? = some code) :
    (Completion.behind body).on_message maximum true .Close =
      .error (.Failed .BackendFailed) := by
  by_cases haccepted : .Success ∈ body
  · cases hcode : (exit_codes body).head? with
    | none => simp [Completion.on_message, Completion.behind, haccepted, hcode, failed]
    | some code => exact absurd ⟨code, haccepted, hcode⟩ h
  · simp [Completion.on_message, Completion.behind, haccepted, failed]

/-- All that the loop does on a message: it goes on, it returns at a close, or it fails. -/
theorem on_message_cases (hroom : Room maximum body) (m : ChannelMsg) :
    (Next maximum body m ∧ (Completion.behind body).on_message maximum true m =
      .ok (.Continue (.behind (body ++ [m])))) ∨
    (∃ code, m = .Close ∧ .Success ∈ body ∧ (exit_codes body).head? = some code ∧
      (Completion.behind body).on_message maximum true m =
        .ok (.Return (outcome code (stdout_of body)))) ∨
    ∃ e, (Completion.behind body).on_message maximum true m = .error (.Failed e) := by
  by_cases hm : Next maximum body m
  · exact .inl ⟨hm, on_message_next hroom hm⟩
  · by_cases hclose : m = .Close
    · subst hclose
      by_cases h : ∃ code, .Success ∈ body ∧ (exit_codes body).head? = some code
      · obtain ⟨code, haccepted, hcode⟩ := h
        exact .inr (.inl ⟨code, rfl, haccepted, hcode, on_message_close haccepted hcode⟩)
      · exact .inr (.inr ⟨_, on_message_early h⟩)
    · exact .inr (.inr (on_message_refused true hroom hm hclose))

/-- What the loop goes on at. -/
theorem taken_iff_each {c : Completion} :
    Taken (Completion.on_message maximum true) .new body c ↔
      Each (Next maximum) body ∧ c = .behind body := by
  let P := fun body c => Each (Next maximum) body ∧ c = Completion.behind body
  refine taken_iff (K := fun _ => True) (P := P) (by simp) (fun c => ?_) fun body m c _ => ?_
  · simp [P, each_nil, Completion.behind, Completion.new, stdout_of, stderr_of, exit_codes]
  · simp only [P]
    constructor
    · rw [each_snoc]
      rintro ⟨⟨hbody, hm⟩, rfl⟩
      exact ⟨_, ⟨hbody, rfl⟩, on_message_next (each_room hbody) hm⟩
    · rintro ⟨_, ⟨hbody, rfl⟩, hturn⟩
      rcases on_message_cases (each_room hbody) m with ⟨hm, h⟩ | ⟨code, -, -, -, h⟩ | ⟨e, h⟩
      · rw [h] at hturn
        cases hturn
        exact ⟨each_snoc.2 ⟨hbody, hm⟩, rfl⟩
      · rw [h] at hturn
        cases hturn
      · rw [h] at hturn
        cases hturn

/-! ## The transcripts -/

/-- A transcript that is not complete yet. -/
@[mk_iff]
structure Partial (maximum : Nat) (body : List ChannelMsg) : Prop where
  accepted : body.count .Success ≤ 1
  ended : body.count .Eof ≤ 1
  silent : ∀ before after, body = before ++ .Eof :: after → ∀ m ∈ after, m.output = false
  status : (exit_codes body).length ≤ 1
  known : ∀ m ∈ body, m = .Success ∨ m = .Eof ∨ (∃ code, m = .ExitStatus code) ∨
    (∃ data, m = .Data data) ∨ ∃ data, m = .ExtendedData data 1
  room : Room maximum body

/-- Silence behind the end is silence of each message that has the end before it. -/
theorem silent_iff : (∀ before after, body = before ++ .Eof :: after →
    ∀ m ∈ after, m.output = false) ↔ Each (fun before m => m.output = true → .Eof ∉ before)
      body := by
  constructor
  · rintro h before m after rfl hout hend
    obtain ⟨first, last, rfl⟩ := List.append_of_mem hend
    have hm := h first (last ++ m :: after) (by simp) m (by simp)
    rw [hout] at hm
    cases hm
  · rintro h before after rfl m hm
    obtain ⟨first, last, rfl⟩ := List.append_of_mem hm
    by_contra hout
    exact h (before ++ .Eof :: first) m last (by simp) (by simpa using hout) (by simp)

theorem count_le_one {m' : ChannelMsg} :
    (body ++ [m]).count m' ≤ 1 ↔ body.count m' ≤ 1 ∧ (m = m' → m' ∉ body) := by
  rw [List.count_append, List.count_singleton, ← List.count_eq_zero]
  by_cases h : m = m'
  · simp [h]
    omega
  · simp [h]

theorem codes_le_one : (exit_codes (body ++ [m])).length ≤ 1 ↔
    (exit_codes body).length ≤ 1 ∧ (m.exit_code ≠ none → exit_codes body = []) := by
  rw [exit_codes_snoc, List.length_append]
  cases m.exit_code with
  | none => simp
  | some code =>
    simp [← List.length_eq_zero_iff]
    omega

theorem room_snoc : Room maximum (body ++ [m]) ↔ Room maximum body ∧
    (stdout_of body ++ m.stdout).length ≤ maximum ∧
      (stderr_of body ++ m.stderr).length ≤ maximum := by
  unfold Room
  rw [stdout_snoc, stderr_snoc, List.length_append, List.length_append]
  omega

/-- A transcript goes on exactly with the messages that the loop goes on at. -/
theorem partial_snoc :
    Partial maximum (body ++ [m]) ↔ Partial maximum body ∧ Next maximum body m := by
  simp only [partial_iff, count_le_one, silent_iff, each_snoc, codes_le_one, room_snoc,
    List.forall_mem_append, List.forall_mem_singleton]
  cases m with
  | Success =>
    simp [Next, Room, ChannelMsg.output, ChannelMsg.exit_code, ChannelMsg.stdout,
      ChannelMsg.stderr]
    tauto
  | Eof =>
    simp [Next, Room, ChannelMsg.output, ChannelMsg.exit_code, ChannelMsg.stdout,
      ChannelMsg.stderr]
    tauto
  | ExitStatus code =>
    simp [Next, Room, ChannelMsg.output, ChannelMsg.exit_code, ChannelMsg.stdout,
      ChannelMsg.stderr]
    tauto
  | Data data =>
    simp [Next, Room, ChannelMsg.output, ChannelMsg.exit_code, ChannelMsg.stdout,
      ChannelMsg.stderr]
    tauto
  | ExtendedData data ext =>
    simp [Next, Room, ChannelMsg.output, ChannelMsg.exit_code, ChannelMsg.stdout,
      ChannelMsg.stderr]
    tauto
  | _ => simp [Next]

/-- What the loop takes is the start of a transcript. -/
theorem each_next_iff : Each (Next maximum) body ↔ Partial maximum body := by
  induction body using List.reverseRecOn with
  | nil => simp [each_nil, partial_iff, exit_codes, Room, stdout_of, stderr_of]
  | append_singleton body m ih => rw [each_snoc, ih, partial_snoc]

/-- A transcript is complete with the acceptance and one status. -/
theorem transcript_iff {code : UInt32} {out : Bytes} : Transcript maximum body code out ↔
    Partial maximum body ∧ .Success ∈ body ∧ (exit_codes body).head? = some code ∧
      out = stdout_of body := by
  constructor
  · intro h
    refine ⟨⟨h.accepted.le, h.ended, h.silent, ?_, h.known, h.stdout_le, h.stderr_le⟩, ?_, ?_,
      h.out_eq⟩
    · simp [h.status]
    · exact List.one_le_count_iff.1 h.accepted.ge
    · simp [h.status]
  · rintro ⟨h, haccepted, hstatus, hout⟩
    refine ⟨?_, h.ended, h.silent, ?_, h.known, h.room.1, h.room.2, hout⟩
    · exact le_antisymm h.accepted (List.one_le_count_iff.2 haccepted)
    · have hlen := h.status
      cases hcodes : exit_codes body with
      | nil => simp [hcodes] at hstatus
      | cons code' codes =>
        rw [hcodes] at hstatus hlen
        simp_all

theorem Transcript.no_close {code : UInt32} {out : Bytes}
    (h : Transcript maximum body code out) : .Close ∉ body := by
  intro hmem
  simpa using h.known _ hmem

/-! ## The command -/

/-- Every call on the channel of a command succeeds. -/
structure Remote.Succeeds (remote : Remote) (command : Bytes) : Prop where
  channel_open_session : remote.channel_open_session = true
  exec : remote.exec command = true
  eof : remote.eof = true
  close : remote.close = true

theorem receive_heard (messages : List ChannelMsg) :
    receive (Completion.turn maximum close) (.Failed .BackendFailed) .new messages =
      receive (Completion.on_message maximum close) (.Failed .BackendFailed) .new
        (heard messages) := by
  unfold heard
  rw [← List.filterMap_eq_filter]
  refine receive_filterMap (fun m _ hview c => ?_) fun m _ n hview c => ?_
  · simp [Option.guard] at hview
    simp [Completion.turn, hview]
  · simp [Option.guard] at hview
    obtain ⟨hflow, rfl⟩ := hview
    simp [Completion.turn, hflow]

/-- A loop that hears a transcript and the close behind it returns, and no other one does. -/
theorem receive_ok_iff {messages : List ChannelMsg} {r : Outcome} :
    receive (Completion.on_message maximum true) (.Failed .BackendFailed) .new messages = .ok r ↔
      ∃ body rest code out, messages = body ++ .Close :: rest ∧
        Transcript maximum body code out ∧ r = outcome code out := by
  rw [receive_ok]
  constructor
  · rintro ⟨body, m, rest, c, rfl, htaken, hturn⟩
    obtain ⟨hbody, rfl⟩ := taken_iff_each.1 htaken
    rcases on_message_cases (each_room hbody) m with
      ⟨-, h⟩ | ⟨code, rfl, haccepted, hcode, h⟩ | ⟨e, h⟩
    · rw [h] at hturn
      cases hturn
    · rw [h] at hturn
      cases hturn
      exact ⟨body, rest, code, _, rfl,
        transcript_iff.2 ⟨each_next_iff.1 hbody, haccepted, hcode, rfl⟩, rfl⟩
    · rw [h] at hturn
      cases hturn
  · rintro ⟨body, rest, code, out, rfl, htranscript, rfl⟩
    obtain ⟨hpart, haccepted, hcode, rfl⟩ := transcript_iff.1 htranscript
    refine ⟨body, _, rest, _, rfl, taken_iff_each.2 ⟨each_next_iff.2 hpart, rfl⟩, ?_⟩
    exact on_message_close haccepted hcode

theorem receive_no_underflow (messages : List ChannelMsg) :
    receive (Completion.on_message maximum true) (.Failed .BackendFailed) .new messages ≠
      .error .Underflow := by
  intro h
  rcases receive_error h with hended | ⟨body, m, rest, c, -, htaken, hturn⟩
  · cases hended
  · obtain ⟨hbody, rfl⟩ := taken_iff_each.1 htaken
    rcases on_message_cases (each_room hbody) m with ⟨-, h⟩ | ⟨code, -, -, -, h⟩ | ⟨e, h⟩
    · rw [h] at hturn
      cases hturn
    · rw [h] at hturn
      cases hturn
    · rw [h] at hturn
      cases hturn

theorem execute_eq {state : State} {remote : Remote} {command : Bytes}
    (hhandle : state.handle = true) (h : remote.Succeeds command) :
    state.execute remote command maximum =
      receive (Completion.on_message maximum true) (.Failed .BackendFailed) .new
        (heard remote.messages) := by
  rw [← receive_heard]
  simp [State.execute, succeeded, hhandle, h.channel_open_session, h.exec, h.eof, h.close,
    Bind.bind, Except.bind]

/-- The outcome of a command is that of the transcript before the first close. Without one its
completion is uncertain. -/
theorem a_command_completes_exactly_by_a_transcript (state : State) (remote : Remote)
    (command : Bytes) (hhandle : state.handle = true) (h : remote.Succeeds command)
    (maximum : Nat) :
    (∀ out, state.execute remote command maximum = .ok (.ok out) ↔
      ∃ body rest, heard remote.messages = body ++ .Close :: rest ∧ .Close ∉ body ∧
        Transcript maximum body 0 out) ∧
    (state.execute remote command maximum = .ok (.error .BackendFailed) ↔
      ∃ body rest code out, heard remote.messages = body ++ .Close :: rest ∧ .Close ∉ body ∧
        code ≠ 0 ∧ Transcript maximum body code out) ∧
    ((¬ ∃ body rest code out, heard remote.messages = body ++ .Close :: rest ∧ .Close ∉ body ∧
        Transcript maximum body code out) →
      ∃ e, state.execute remote command maximum = .error (.Failed e)) ∧
    state.execute remote command maximum ≠ .error .Underflow := by
  rw [execute_eq hhandle h]
  refine ⟨fun out => ?_, ?_, fun hnone => ?_, receive_no_underflow _⟩
  · rw [receive_ok_iff]
    constructor
    · rintro ⟨body, rest, code, out', heq, htranscript, hr⟩
      by_cases hcode : code = 0
      · simp only [outcome, hcode] at hr
        cases hr
        exact ⟨body, rest, heq, htranscript.no_close, hcode ▸ htranscript⟩
      · simp [outcome, hcode] at hr
    · rintro ⟨body, rest, heq, -, htranscript⟩
      exact ⟨body, rest, 0, out, heq, htranscript, rfl⟩
  · rw [receive_ok_iff]
    constructor
    · rintro ⟨body, rest, code, out, heq, htranscript, hr⟩
      by_cases hcode : code = 0
      · simp [outcome, hcode] at hr
      · exact ⟨body, rest, code, out, heq, htranscript.no_close, hcode, htranscript⟩
    · rintro ⟨body, rest, code, out, heq, -, hcode, htranscript⟩
      exact ⟨body, rest, code, out, heq, htranscript, by simp [outcome, hcode]⟩
  · cases hr : receive (Completion.on_message maximum true) (.Failed .BackendFailed) .new
        (heard remote.messages) with
    | ok r =>
      obtain ⟨body, rest, code, out, heq, htranscript, -⟩ := receive_ok_iff.1 hr
      exact absurd ⟨body, rest, code, out, heq, htranscript.no_close, htranscript⟩ hnone
    | error e =>
      cases e with
      | Underflow => exact absurd hr (receive_no_underflow _)
      | Failed e => exact ⟨e, rfl⟩

/-- A session whose far end accepts a command and answers with two bytes. -/
def two_bytes : Remote where
  channel_open_session := true
  exec _ := true
  eof := true
  messages := [.WindowAdjusted 5, .Data [1], .Success, .ExitStatus 0, .WindowAdjusted 0,
    .Data [2], .Eof, .Close]
  close := true

theorem two_bytes_are_a_transcript :
    ∃ body rest, heard two_bytes.messages = body ++ .Close :: rest ∧ .Close ∉ body ∧
      Transcript 2 body 0 [1, 2] :=
  ((a_command_completes_exactly_by_a_transcript ⟨false, true⟩ two_bytes [] rfl
    ⟨rfl, rfl, rfl, rfl⟩ 2).1 [1, 2]).1 rfl

end openwrt_mcp_backend_ssh
