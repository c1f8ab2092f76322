-- The input of the server: a reader that lets no line through that is longer than a frame may be.
import OpenwrtMcp.Runs

open runs

namespace openwrt_mcp.framing

abbrev Bytes := List UInt8

def MAX_FRAME_BYTES : Nat := 65536
def SCRATCH_BYTES : Nat := 4096
def NEWLINE : UInt8 := 10

inductive Poll (α : Type)
  | Pending
  | Ready (value : α)
  deriving DecidableEq

/-- What the inner reader does when it is polled. It may give fewer bytes than there is room for. -/
inductive Answer (ε : Type)
  | Pending
  | Fails (error : ε)
  | Gives (count : Nat)

inductive IoError (ε : Type)
  | frame_too_large
  | Inner (error : ε)
  deriving DecidableEq

/-- `inner` is what the inner reader has still to give. -/
structure BoundedInput where
  inner : Bytes
  line_bytes : Nat
  failed : Bool

def BoundedInput.new (inner : Bytes) : BoundedInput := ⟨inner, 0, false⟩

/-- What comes of a poll, and the bytes that were put into the destination. -/
structure Polled (ε : Type) where
  result : Poll (Except (IoError ε) Unit)
  put : Bytes

variable {ε : Type}

/-- A poll of the inner reader with a buffer of `capacity` bytes: the answer, with the bytes that
fill the buffer, and what is left to give. -/
def inner_read (inner : Bytes) (capacity : Nat) :
    Answer ε → Poll (Except ε Bytes) × Bytes
  | .Pending => (.Pending, inner)
  | .Fails error => (.Ready (.error error), inner)
  | .Gives count =>
    (.Ready (.ok (inner.take (min count capacity))), inner.drop (min count capacity))

/-- The loop over the bytes that were read: the bytes of the line so far, and whether it failed. -/
def count_bytes : Bytes → Nat → Nat × Bool
  | [], line_bytes => (line_bytes, false)
  | byte :: rest, line_bytes =>
    if byte = NEWLINE then count_bytes rest 0
    else if line_bytes + 1 > MAX_FRAME_BYTES then (line_bytes + 1, true)
    else count_bytes rest (line_bytes + 1)

/-- `remaining` is the room that is left in the destination. -/
def BoundedInput.poll_read (this : BoundedInput) (remaining : Nat) (answer : Answer ε) :
    Polled ε × BoundedInput :=
  if this.failed then (⟨.Ready (.error .frame_too_large), []⟩, this)
  else if remaining = 0 then (⟨.Ready (.ok ()), []⟩, this)
  else
    match inner_read this.inner (min remaining SCRATCH_BYTES) answer with
    | (.Pending, inner) => (⟨.Pending, []⟩, { this with inner })
    | (.Ready (.error error), inner) => (⟨.Ready (.error (.Inner error)), []⟩, { this with inner })
    | (.Ready (.ok filled), inner) =>
      match count_bytes filled this.line_bytes with
      | (line_bytes, true) => (⟨.Ready (.error .frame_too_large), []⟩, ⟨inner, line_bytes, true⟩)
      | (line_bytes, false) => (⟨.Ready (.ok ()), filled⟩, ⟨inner, line_bytes, false⟩)

/-! ## Polls one after the other -/

/-- One poll: the room in the destination, and what the inner reader does. -/
abbrev Turn (ε : Type) := Nat × Answer ε

/-- The reader after some polls, with the bytes that it delivered. -/
structure Session where
  this : BoundedInput
  delivered : Bytes

def Session.poll (s : Session) (turn : Turn ε) : Session :=
  let (polled, this) := s.this.poll_read turn.1 turn.2
  ⟨this, s.delivered ++ polled.put⟩

def session (input : Bytes) (turns : List (Turn ε)) : Session :=
  turns.foldl Session.poll ⟨.new input, []⟩

/-- What the next poll gives. -/
def polled (input : Bytes) (turns : List (Turn ε)) (turn : Turn ε) : Polled ε :=
  ((session input turns).this.poll_read turn.1 turn.2).1

/-- The bytes that the inner reader gave so far. -/
def read (input : Bytes) (turns : List (Turn ε)) : Bytes :=
  input.take (input.length - (session input turns).this.inner.length)

/-! ## The loop over the bytes -/

/-- A line is longer than a frame may be. -/
abbrev TooLong (bytes : Bytes) : Prop := LongRun NEWLINE MAX_FRAME_BYTES bytes

/-- The loop goes on from the line that the bytes before end with, and fails at the first line that
is too long. -/
theorem count_bytes_spec (front filled : Bytes) (h : ¬ TooLong front) :
    (TooLong (front ++ filled) ∧ (count_bytes filled (trailing NEWLINE front)).2 = true) ∨
      (¬ TooLong (front ++ filled) ∧
        count_bytes filled (trailing NEWLINE front) =
          (trailing NEWLINE (front ++ filled), false)) := by
  induction filled generalizing front with
  | nil =>
    rw [List.append_nil]
    exact .inr ⟨h, rfl⟩
  | cons byte filled ih =>
    have hsnoc := longRun_snoc NEWLINE MAX_FRAME_BYTES front byte
    have hnext := ih (front ++ [byte])
    rw [trailing_snoc, List.append_assoc, List.singleton_append] at hnext
    rw [count_bytes]
    by_cases hline : byte = NEWLINE
    · rw [if_pos hline] at hnext ⊢
      refine hnext fun hfull => ?_
      rcases hsnoc.1 hfull with hfront | ⟨hother, -⟩
      · exact h hfront
      · exact hother hline
    rw [if_neg hline] at hnext ⊢
    by_cases hlong : trailing NEWLINE front + 1 > MAX_FRAME_BYTES
    · rw [if_pos hlong]
      have hfull := longRun_append (hsnoc.2 (.inr ⟨hline, hlong⟩)) filled
      rw [List.append_assoc] at hfull
      exact .inl ⟨hfull, rfl⟩
    · rw [if_neg hlong]
      refine hnext fun hfull => ?_
      rcases hsnoc.1 hfull with hfront | ⟨-, hover⟩
      · exact h hfront
      · exact hlong hover

/-! ## What every poll keeps -/

/-- The bytes read so far are the front of the input. They were all delivered unless a line was too
long, and then the last of them were not. -/
structure Keeps (input front : Bytes) (s : Session) : Prop where
  whole : input = front ++ s.this.inner
  delivered : ∃ lost, front = s.delivered ++ lost ∧ (s.this.failed = false → lost = [])
  short : ¬ TooLong s.delivered
  failed : s.this.failed = true ↔ TooLong front
  line : s.this.failed = false → s.this.line_bytes = trailing NEWLINE front

abbrev too_large : Poll (Except (IoError ε) Unit) := .Ready (.error .frame_too_large)

/-- What a poll gives, when the bytes read so far are `front` before it and `front ++ more` after
it. -/
structure Gives (front more : Bytes) (remaining : Nat) (polled : Polled ε) : Prop where
  too_large : polled.result = too_large ↔ TooLong (front ++ more)
  lost : polled.result = framing.too_large → polled.put = []
  put : polled.result ≠ framing.too_large → polled.put = more
  room : polled.put.length ≤ remaining

variable {input front : Bytes} {s : Session}

/-- A poll that reads nothing, from a reader that has not failed. -/
theorem Keeps.quiet (h : Keeps input front s) (hfailed : s.this.failed = false) (remaining : Nat)
    {result : Poll (Except (IoError ε) Unit)} (hresult : result ≠ too_large) :
    Gives front [] remaining ⟨result, []⟩ := by
  have hshort : ¬ TooLong front := by simp [← h.failed, hfailed]
  refine ⟨?_, fun _ => rfl, fun _ => rfl, Nat.zero_le _⟩
  rw [List.append_nil]
  exact iff_of_false hresult hshort

theorem Keeps.nothing (h : Keeps input front s) : Keeps input (front ++ []) s := by
  rwa [List.append_nil]

/-- A poll that reads bytes. -/
theorem Keeps.filled {this : BoundedInput} {delivered filled inner : Bytes}
    (h : Keeps input front ⟨this, delivered⟩) (hfailed : this.failed = false)
    (hinner : this.inner = filled ++ inner) :
    (TooLong (front ++ filled) ∧ (count_bytes filled this.line_bytes).2 = true ∧
      ∀ line_bytes, Keeps input (front ++ filled) ⟨⟨inner, line_bytes, true⟩, delivered⟩) ∨
    ∃ line_bytes, ¬ TooLong (front ++ filled) ∧
      count_bytes filled this.line_bytes = (line_bytes, false) ∧
      Keeps input (front ++ filled) ⟨⟨inner, line_bytes, false⟩, delivered ++ filled⟩ := by
  have hshort : ¬ TooLong front := by simp [← h.failed, hfailed]
  have hline : this.line_bytes = trailing NEWLINE front := h.line hfailed
  have hwhole : input = front ++ filled ++ inner := by
    rw [List.append_assoc, ← hinner]
    exact h.whole
  obtain ⟨lost, hfront, hlost⟩ := h.delivered
  obtain rfl := hlost hfailed
  rw [List.append_nil] at hfront
  rw [hline]
  rcases count_bytes_spec front filled hshort with ⟨hlong, hcount⟩ | ⟨hnot, hcount⟩
  · refine .inl
      ⟨hlong, hcount, fun line_bytes => ⟨hwhole, ⟨filled, by rw [hfront], ?_⟩, h.short, ?_, ?_⟩⟩
    · rintro ⟨⟩
    · exact iff_of_true rfl hlong
    · rintro ⟨⟩
  · refine .inr
      ⟨_, hnot, hcount, hwhole, ⟨[], by rw [hfront, List.append_nil], fun _ => rfl⟩, ?_, ?_,
      fun _ => rfl⟩
    · have hfront : front = delivered := hfront
      rwa [hfront] at hnot
    · exact iff_of_false Bool.false_ne_true hnot

theorem Keeps.poll (h : Keeps input front s) (turn : Turn ε) :
    ∃ more, Keeps input (front ++ more) (s.poll turn) ∧
      Gives front more turn.1 (s.this.poll_read turn.1 turn.2).1 := by
  obtain ⟨remaining, answer⟩ := turn
  obtain ⟨⟨inner, line_bytes, failed⟩, delivered⟩ := s
  unfold Session.poll BoundedInput.poll_read
  cases failed with
  | true =>
    have hlong := h.failed.1 rfl
    refine ⟨[], by simpa using h, ?_, fun _ => rfl, fun _ => rfl, Nat.zero_le _⟩
    rw [List.append_nil]
    exact iff_of_true rfl hlong
  | false =>
    by_cases hroom : remaining = 0
    · simp only [hroom, Bool.false_eq_true, if_false, if_true]
      exact ⟨[], by simpa using h, h.quiet rfl 0 (by simp)⟩
    simp only [hroom, Bool.false_eq_true, if_false]
    cases answer with
    | Pending => exact ⟨[], by simpa [inner_read] using h, h.quiet rfl remaining (by simp)⟩
    | Fails error => exact ⟨[], by simpa [inner_read] using h, h.quiet rfl remaining (by simp)⟩
    | Gives count =>
      simp only [inner_read]
      generalize hcount : min count (min remaining SCRATCH_BYTES) = k
      have hlen : (inner.take k).length ≤ remaining := by
        have hle := List.length_take_le k inner
        omega
      refine ⟨inner.take k, ?_⟩
      rcases h.filled rfl (List.take_append_drop k inner).symm with
        ⟨hlong, hover, hkeeps⟩ | ⟨line, hnot, hcount, hkeeps⟩
      · cases hbytes : count_bytes (inner.take k) line_bytes with
        | mk line failed =>
          simp only [hbytes] at hover
          subst hover
          refine ⟨by simpa using hkeeps line, ?_, fun _ => rfl, ?_, Nat.zero_le _⟩
          · exact iff_of_true rfl hlong
          · intro hne
            exact absurd rfl hne
      · simp only at hcount
        rw [hcount]
        refine ⟨hkeeps, ?_, ?_, fun _ => rfl, hlen⟩
        · exact iff_of_false (by simp) hnot
        · intro heq
          simp at heq

/-! ## Whole runs -/

theorem keeps_new (input : Bytes) : Keeps input [] ⟨.new input, []⟩ := by
  have hshort : ¬ TooLong [] := not_longRun_nil
  exact ⟨rfl, ⟨[], rfl, fun _ => rfl⟩, hshort, iff_of_false Bool.false_ne_true hshort, fun _ => rfl⟩

theorem session_snoc (input : Bytes) (turns : List (Turn ε)) (turn : Turn ε) :
    session input (turns ++ [turn]) = (session input turns).poll turn := by
  simp [session]

/-- The bytes read so far stand before what is left to give. -/
theorem Keeps.read_eq {turns : List (Turn ε)} (h : Keeps input front (session input turns)) :
    read input turns = front := by
  have hwhole := congrArg List.length h.whole
  rw [List.length_append] at hwhole
  have hlen : input.length - (session input turns).this.inner.length = front.length := by omega
  rw [read, hlen, h.whole, List.take_left]

theorem keeps_session (input : Bytes) (turns : List (Turn ε)) :
    Keeps input (read input turns) (session input turns) := by
  have hexists : ∃ front, Keeps input front (session input turns) := by
    induction turns using List.reverseRecOn with
    | nil => exact ⟨[], keeps_new input⟩
    | append_singleton turns turn ih =>
      obtain ⟨front, h⟩ := ih
      obtain ⟨more, hmore, -⟩ := h.poll turn
      rw [session_snoc]
      exact ⟨front ++ more, hmore⟩
  obtain ⟨front, h⟩ := hexists
  rwa [h.read_eq]

theorem gives_session (input : Bytes) (turns : List (Turn ε)) (turn : Turn ε) :
    ∃ more, read input (turns ++ [turn]) = read input turns ++ more ∧
      Gives (read input turns) more turn.1 (polled input turns turn) := by
  obtain ⟨more, hmore, hgives⟩ := (keeps_session input turns).poll turn
  rw [← session_snoc] at hmore
  exact ⟨more, hmore.read_eq, hgives⟩

theorem read_grows (input : Bytes) (turns more : List (Turn ε)) :
    read input turns <+: read input (turns ++ more) := by
  induction more using List.reverseRecOn with
  | nil =>
    simp
  | append_singleton more turn ih =>
    obtain ⟨bytes, hread, -⟩ := gives_session input (turns ++ more) turn
    rw [← List.append_assoc, hread]
    exact ih.trans (List.prefix_append _ _)

/-- What is delivered is the front of the input, without a line that is too long. A poll fails as
too large exactly when the bytes read by then have such a line, and delivers nothing then; all the
polls after it fail too. Up to there nothing is lost: every byte that is read is delivered. -/
theorem no_line_is_longer_than_a_frame {ε : Type} (input : Bytes) (turns : List (Turn ε)) :
    (session input turns).delivered <+: input ∧
    ¬ LongRun NEWLINE 65536 (session input turns).delivered ∧
    ∀ turn : Turn ε,
      ((polled input turns turn).result = too_large ↔
        LongRun NEWLINE 65536 (read input (turns ++ [turn]))) ∧
      ((polled input turns turn).result = too_large → (polled input turns turn).put = [] ∧
        ∀ more next, (polled input (turns ++ [turn] ++ more) next).result = too_large) ∧
      ((polled input turns turn).result ≠ too_large →
        (session input (turns ++ [turn])).delivered = read input (turns ++ [turn])) ∧
      (polled input turns turn).put.length ≤ turn.1 := by
  have h := keeps_session input turns
  obtain ⟨lost, hfront, -⟩ := h.delivered
  refine ⟨?_, h.short, fun turn => ?_⟩
  · refine ⟨lost ++ (session input turns).this.inner, ?_⟩
    rw [← List.append_assoc, ← hfront]
    exact h.whole.symm
  obtain ⟨more, hread, hgives⟩ := gives_session input turns turn
  have hnext := keeps_session input (turns ++ [turn])
  refine ⟨by rw [hread]; exact hgives.too_large, fun hlarge => ⟨hgives.lost hlarge, ?_⟩, ?_,
    hgives.room⟩
  · intro after next
    obtain ⟨bytes, hlater, hlast⟩ := gives_session input (turns ++ [turn] ++ after) next
    obtain ⟨between, hbetween⟩ := read_grows input (turns ++ [turn]) after
    have hlong := hgives.too_large.1 hlarge
    rw [← hread] at hlong
    rw [hlast.too_large, ← hbetween]
    exact longRun_append (longRun_append hlong between) bytes
  · intro hfine
    obtain ⟨lost, hdelivered, hnone⟩ := hnext.delivered
    have hshort : ¬ TooLong (read input (turns ++ [turn])) := by
      rw [hread, ← hgives.too_large]
      exact hfine
    rw [← hnext.failed, Bool.not_eq_true] at hshort
    rw [hdelivered, hnone hshort, List.append_nil]

/-- Two lines that are read in one poll. -/
theorem two_short_lines_are_delivered :
    (session [97, 10, 98] [((4096, .Gives 3) : Turn Unit)]).delivered = [97, 10, 98] :=
  ((no_line_is_longer_than_a_frame [97, 10, 98] []).2.2 ((4096, .Gives 3) : Turn Unit)).2.2.1
    (by decide)

end openwrt_mcp.framing
