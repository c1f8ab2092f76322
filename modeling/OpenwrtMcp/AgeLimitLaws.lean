-- A reader that keeps reading up to a limit gets all of a stream that ends there, and one byte
-- more in the stream is a fault. With it, what holds of the streams in every state they reach.
import OpenwrtMcp.AgeProviderLaws

open programs openwrt_mcp_runtime.protection

namespace openwrt_mcp_crypto_age

variable {limits : CryptoLimits} {start : Bytes} {w : World}

/-! ## A reader that gives what it has -/

/-- No fault so far, and the time is not over at any later look. -/
def OnTime (w : World) : Prop :=
  w.budget.failure = none ∧ ∀ look, w.budget.looks ≤ look → w.budget.late look = false

/-- The caller's reader may be interrupted, but it gives at least a byte while it has one. -/
def Honest (answers : List ReadAnswer) : Prop :=
  ∀ answer ∈ answers, answer = .Interrupted ∨ ∃ count, answer = .Gives (count + 1)

/-- How many times it gives. -/
def gives : List ReadAnswer → Nat
  | [] => 0
  | .Gives _ :: rest => gives rest + 1
  | _ :: rest => gives rest

/-- A reader that reads until there is no more. -/
def keep_reading : List Nat → Run IoError Bytes
  | [] => Prog.stop .blocked
  | capacity :: rest => do
    let bytes ← read capacity
    if bytes = [] then pure []
    else do
      let more ← keep_reading rest
      pure (bytes ++ more)

/-- The bytes that the limit in force leaves room for. -/
def World.room (w : World) : Nat := w.limit - w.input.count

theorem looked_on_time (h : OnTime w) :
    looked w = Budget.set_budget (fun b => { b with looks := b.looks + 1 }) w := by
  simp [looked, Budget.set_budget, Budget.look, h.2]

theorem check_on_time (h : OnTime w) :
    Budget.check_io w = (.ok (), looked w) ∧ OnTime (looked w) := by
  have hlooked := looked_on_time h
  have hnone : (looked w).budget.failure = none := by
    rw [hlooked]
    exact h.1
  have hcheck : Budget.check_io w = (.ok (), looked w) := by
    unfold Budget.check_io map_err
    rw [check_none hnone]
  refine ⟨hcheck, hnone, fun look hlook => ?_⟩
  rw [hlooked] at hlook ⊢
  exact h.2 look (Nat.le_of_succ_le hlook)

/-- A look that is in time changes nothing but the number of looks. -/
theorem check_io_on_time {D : World → Prop} (hD : Steady D) {E : Halt IoError → World → Prop} :
    Triple (fun w => OnTime w ∧ D w) Budget.check_io (fun _ w => OnTime w ∧ D w) E := by
  rintro w ⟨h, hd⟩
  rw [(check_on_time h).1]
  have hheader : w.budget.look.header_maximum = w.budget.header_maximum := by
    simp [Budget.look, h.2]
  exact ⟨(check_on_time h).2, hD w _ hheader hd⟩

/-- What the caller's reader has still to answer and to give. -/
def Left (answers : List ReadAnswer) (stream : Bytes) (w : World) : Prop :=
  w.input.answers = answers ∧ w.input.stream = stream

theorem steady_left (answers : List ReadAnswer) (stream : Bytes) : Steady (Left answers stream) :=
  fun _ _ _ => id

/-- The caller's reader gave as many bytes as it liked, but at least one if there was one. -/
def Served (times : Nat) (stream : Bytes) (capacity : Nat) (bytes : Bytes) (w : World) : Prop :=
  OnTime w ∧ Honest w.input.answers ∧ times ≤ gives w.input.answers ∧
    ∃ count, bytes = stream.take (min (count + 1) capacity)

theorem read_loop_serves {times capacity : Nat} {stream : Bytes} {answers : List ReadAnswer}
    (hhonest : Honest answers) (htimes : times < gives answers) :
    Triple (fun w => OnTime w ∧ Left answers stream w) (read_loop capacity answers)
      (Served times stream capacity) (fun _ _ => False) := by
  induction answers with
  | nil => exact absurd htimes (Nat.not_lt_zero _)
  | cons answer rest ih =>
    have hrest : Honest rest := fun answer h => hhonest answer (List.mem_cons_of_mem _ h)
    refine Triple.bind (check_io_on_time (steady_left _ _)) fun _ => ?_
    rcases hhonest answer List.mem_cons_self with rfl | ⟨count, rfl⟩
    · have hinterrupted : Triple (fun w => OnTime w ∧ Left (.Interrupted :: rest) stream w)
          (inner_read capacity .Interrupted : Run IoError _)
          (fun result w => result = .error .Interrupted ∧ OnTime w ∧ Left rest stream w)
          (fun _ _ => False) := by
        rintro w ⟨htime, hanswers, hstream⟩
        refine ⟨rfl, htime, ?_, hstream⟩
        show w.input.answers.tail = rest
        rw [hanswers, List.tail_cons]
      refine Triple.bind hinterrupted fun result => Triple.of_and fun hresult => ?_
      rw [hresult]
      exact Triple.bind (check_io_on_time (steady_left _ _)) fun _ => ih hrest htimes
    · have hgiven : Triple (fun w => OnTime w ∧ Left (.Gives (count + 1) :: rest) stream w)
          (inner_read capacity (.Gives (count + 1)) : Run IoError _)
          (fun result w => result = .ok ((stream.take (min (count + 1) capacity)).length,
            stream.take (min (count + 1) capacity)) ∧ OnTime w ∧ w.input.answers = rest)
          (fun _ _ => False) := by
        rintro w ⟨htime, hanswers, hstream⟩
        refine ⟨by rw [hstream], htime, ?_⟩
        show w.input.answers.tail = rest
        rw [hanswers, List.tail_cons]
      refine Triple.bind hgiven fun result => Triple.of_and fun hresult => ?_
      rw [hresult]
      refine Triple.bind (check_io_on_time (D := fun w => w.input.answers = rest) fun _ _ _ => id)
        fun _ => ?_
      have hfits : (stream.take (min (count + 1) capacity)).length ≤ capacity :=
        Nat.le_trans (List.length_take_le _ _) (Nat.min_le_right _ _)
      show Triple _
        (if (stream.take (min (count + 1) capacity)).length ≤ capacity then _ else _) _ _
      rw [if_pos hfits]
      refine Triple.pure fun w h => ⟨h.1, ?_, ?_, count, rfl⟩
      · rw [h.2]
        exact hrest
      · rw [h.2]
        exact Nat.le_of_lt_succ htimes

theorem read_inner_serves {times capacity : Nat} {stream : Bytes} :
    Triple (fun w => OnTime w ∧ Honest w.input.answers ∧ times < gives w.input.answers ∧
        w.input.stream = stream)
      (read_inner capacity) (Served times stream capacity) (fun _ _ => False) := by
  refine Triple.get_bind fun w h => ?_
  obtain ⟨htime, hhonest, htimes, hstream⟩ := h
  refine (read_loop_serves hhonest htimes).conseq ?_ (fun _ _ => id) fun _ _ => id
  rintro _ rfl
  exact ⟨htime, rfl, hstream⟩

/-- The call reached the limit, and there is more. -/
structure Exceeded (w₀ : World) (h : Halt IoError) (w : World) : Prop where
  stops : ∃ e, h = .err e
  full : w₀.room = 0
  more : w₀.input.stream ≠ []
  latched : w.budget.failure = some .Limit

theorem take_ne_nil {stream : Bytes} {count capacity : Nat} (hcapacity : 0 < capacity)
    (h : stream.take (min (count + 1) capacity) = []) : stream = [] := by
  rcases List.take_eq_nil_iff.1 h with hzero | hnil
  · omega
  · exact hnil

/-- A call of `read` in time gives bytes if there are any and room for them. -/
theorem read_serves {w₀ : World} {capacity : Nat} (times : Nat) (htime : OnTime w₀)
    (hhonest : Honest w₀.input.answers) (htimes : times < gives w₀.input.answers)
    (hwithin : w₀.input.count ≤ w₀.limit) (hcapacity : 0 < capacity) :
    Triple (· = w₀) (read capacity)
      (fun bytes w => OnTime w ∧ Honest w.input.answers ∧ times ≤ gives w.input.answers ∧
        (bytes = [] → w₀.input.stream = []))
      (Exceeded w₀) := by
  have hsteady : Steady fun w => Honest w.input.answers ∧ times < gives w.input.answers ∧
      w.input.stream = w₀.input.stream ∧ w.input.count = w₀.input.count ∧ w.limit = w₀.limit := by
    intro w b hb h
    refine ⟨h.1, h.2.1, h.2.2.1, h.2.2.2.1, ?_⟩
    simpa [World.limit, hb] using h.2.2.2.2
  refine Triple.bind ((check_io_on_time hsteady).conseq ?_ (fun _ _ => id) fun _ _ => id)
    fun _ => ?_
  · rintro _ rfl
    exact ⟨htime, hhonest, htimes, rfl, rfl, rfl⟩
  rw [if_neg (Nat.ne_of_gt hcapacity)]
  refine Triple.get_bind fun w h => ?_
  obtain ⟨htime', hhonest', htimes', hstream, hcount, hlimit⟩ := h
  rw [hlimit, hcount, if_neg (Nat.not_lt.2 hwithin)]
  simp only
  have hinner : ∀ size, Triple (· = w) (read_inner size)
      (Served times w₀.input.stream size) (Exceeded w₀) := fun size =>
    read_inner_serves.conseq (fun _ heq => by rw [heq]; exact ⟨htime', hhonest', htimes', hstream⟩)
      (fun _ _ => id) fun _ _ => False.elim
  split
  · rename_i hfull
    refine Triple.bind (hinner 1) fun probe => ?_
    split
    · rename_i hprobe
      refine Triple.pure fun w h => ⟨h.1, h.2.1, h.2.2.1, fun _ => ?_⟩
      obtain ⟨count, hcount⟩ := h.2.2.2
      rw [List.length_eq_zero_iff] at hprobe
      exact take_ne_nil Nat.one_pos (hcount.symm.trans hprobe)
    · rename_i hprobe
      refine Triple.modify_bind (M := Exceeded w₀ (.err .protected_stream_failed)) ?_
        (Triple.stop fun _ => id)
      rintro w ⟨htime, -, -, count, hcount⟩
      refine ⟨⟨_, rfl⟩, hfull, ?_, ?_⟩
      · rintro hnil
        rw [hcount, hnil] at hprobe
        simp at hprobe
      · show (w.budget.meet .Limit).failure = _
        simp [Budget.meet, htime.1]
  · rename_i hroom
    refine Triple.bind (hinner _) fun bytes => Triple.modify_bind ?_ (Triple.pure fun _ => id)
    rintro w ⟨htime, hhonest, htimes, count, hcount⟩
    exact ⟨htime, hhonest, htimes, fun hnil =>
      take_ne_nil (by omega) (hcount.symm.trans hnil)⟩

/-- All of the stream came, and then a clean end. -/
structure Complete (w₀ : World) (bytes : Bytes) (w : World) : Prop where
  fits : w₀.input.stream.length ≤ w₀.room
  all : bytes = w₀.input.stream
  delivered : w.input.delivered = w₀.input.delivered ++ w₀.input.stream
  clean : w.budget.failure = none

/-- The stream is too long. What there was room for came, and no more. -/
structure Truncated (w₀ : World) (h : Halt IoError) (w : World) : Prop where
  stops : ∃ e, h = .err e
  longer : w₀.room < w₀.input.stream.length
  delivered : w.input.delivered = w₀.input.delivered ++ w₀.input.stream.take w₀.room
  latched : w.budget.failure = some .Limit

theorem Exceeded.truncated {w₀ : World} {h : Halt IoError} (hexceeded : Exceeded w₀ h w)
    (hdelivered : w.input.delivered = w₀.input.delivered) : Truncated w₀ h w := by
  have hroom := hexceeded.full
  refine ⟨hexceeded.stops, ?_, ?_, hexceeded.latched⟩
  · rw [hroom]
    exact List.length_pos_iff.2 hexceeded.more
  · rw [hroom, List.take_zero, List.append_nil]
    exact hdelivered

section
variable {w₀ w₁ : World} {capacity : Nat} {bytes : Bytes} (hd : Delivered w₀ capacity bytes w₁)
include hd

/-- The room that is left after a call. -/
theorem Delivered.room_eq : w₁.room = w₀.room - bytes.length := by
  have hlimit : w₁.limit = w₀.limit := by simp [World.limit, hd.header, hd.maximum]
  have hcount := hd.count
  unfold World.room
  omega

theorem Delivered.stream_length :
    w₀.input.stream.length = bytes.length + w₁.input.stream.length := by
  rw [hd.stream, List.length_append]

theorem Delivered.complete {more : Bytes} (h : Complete w₁ more w) :
    Complete w₀ (bytes ++ more) w := by
  have hroom := hd.room_eq
  have hlength := hd.stream_length
  have hle : bytes.length ≤ w₀.room := hd.room
  have hfits := h.fits
  refine ⟨by omega, ?_, ?_, h.clean⟩
  · rw [h.all, hd.stream]
  · rw [h.delivered, hd.delivered, hd.stream, List.append_assoc]

theorem Delivered.truncated {h : Halt IoError} (ht : Truncated w₁ h w) : Truncated w₀ h w := by
  have hroom := hd.room_eq
  have hlength := hd.stream_length
  have hle : bytes.length ≤ w₀.room := hd.room
  have hlonger := ht.longer
  refine ⟨ht.stops, by omega, ?_, ht.latched⟩
  rw [ht.delivered, hd.delivered, hd.stream, List.take_append, List.take_of_length_le hle, hroom,
    List.append_assoc]

end

/-- A reader that keeps reading gets all of a stream that ends at the limit, and of a longer one no
more than the limit. -/
theorem keep_reading_ends (capacities : List Nat) {w₀ : World} (hsound : Sound limits start w₀)
    (htime : OnTime w₀) (hhonest : Honest w₀.input.answers)
    (htimes : w₀.input.stream.length < gives w₀.input.answers)
    (hcapacities : w₀.input.stream.length < capacities.length)
    (hpositive : ∀ capacity ∈ capacities, 0 < capacity) :
    Triple (· = w₀) (keep_reading capacities) (Complete w₀) (Truncated w₀) := by
  induction capacities generalizing w₀ with
  | nil => exact absurd hcapacities (Nat.not_lt_zero _)
  | cons capacity rest ih =>
    obtain ⟨times, hgives⟩ : ∃ times, gives w₀.input.answers = times + 1 :=
      Nat.exists_eq_succ_of_ne_zero (by omega)
    have hserves := read_serves times htime hhonest (by omega) hsound.within
      (hpositive capacity List.mem_cons_self)
    have hspec := read_spec hsound.settled hsound.within capacity
    refine Triple.bind (Q := fun bytes w => Delivered w₀ capacity bytes w ∧ OnTime w ∧
      Honest w.input.answers ∧ times ≤ gives w.input.answers ∧
        (bytes = [] → w₀.input.stream = [])) ((hserves.and hspec).conseq (fun _ h => ⟨h, h⟩)
      (fun _ _ h => ⟨h.2, h.1⟩) fun h w hstop => ?_) fun bytes => ?_
    · obtain ⟨hexceeded, ⟨hblocked, -⟩ | ⟨-, -, -, lost, hgone⟩⟩ := hstop
      · obtain ⟨e, he⟩ := hexceeded.stops
        rw [hblocked] at he
        cases he
      · exact hexceeded.truncated hgone.1.delivered
    split
    · rename_i hnil
      refine Triple.pure fun w h => ?_
      have hstream := h.2.2.2.2 hnil
      refine ⟨by simp [hstream], hstream.symm, ?_, h.1.clean⟩
      rw [h.1.delivered, hnil, hstream]
    · rename_i hsome
      rintro w₁ ⟨hd, htime', hhonest', htimes', -⟩
      have hlength := hd.stream_length
      have hpos : 0 < bytes.length := List.length_pos_iff.2 hsome
      have hmore := ih (hd.fine hsound htime.1).2 htime' hhonest' (by omega)
        (by rw [List.length_cons] at hcapacities; omega)
        fun capacity h => hpositive capacity (List.mem_cons_of_mem _ h)
      exact Triple.bind (hmore.conseq (fun _ => id) (fun _ _ => id) fun _ _ => hd.truncated)
        (fun more => Triple.pure fun w h => hd.complete h) w₁ rfl

/-! ## Every state that the streams reach -/

/-- The states of the streams, whatever the library and the provider call. A limit for the header is
set while nothing is read. -/
inductive Reached (limits : CryptoLimits) (start : Bytes) : World → Prop
  | new (w : World) : w.input.stream = start → Reached limits start (new_streams limits w)
  | begin_header {w : World} (maximum : Nat) : Reached limits start w → w.input.count = 0 →
      Reached limits start
        (Budget.set_budget (fun b => { b with header_maximum := some maximum }) w)
  | finish_header {w : World} : Reached limits start w →
      Reached limits start (Budget.set_budget (fun b => { b with header_maximum := none }) w)
  | check {w : World} : Reached limits start w → Reached limits start (Budget.check w).2
  | call {w : World} (c : Call) : Reached limits start w → (∀ a, c.run w ≠ (.error .blocked, a)) →
      Reached limits start (c.run w).2

theorem Reached.sound (h : Reached limits start w) : Sound limits start w := by
  induction h with
  | new w hw =>
    rw [← hw]
    exact (fine_new limits w).2
  | begin_header maximum _ hunread ih => exact begin_header_keeps maximum ih hunread
  | finish_header _ ih => exact finish_header_keeps ih
  | @check w _ ih =>
    cases hfailure : (looked w).budget.failure with
    | some fault =>
      rw [check_some hfailure]
      exact ih.look
    | none =>
      rw [check_none hfailure]
      exact ih.look
  | @call w c _ hends ih =>
    have hrun := keeps_nothing c w ⟨ih, fun _ => trivial⟩
    cases hr : c.run w with
    | mk r w' =>
      rw [hr] at hrun
      cases r with
      | ok a => exact hrun.1.2
      | error halt =>
        rcases hrun with ⟨rfl, -⟩ | ⟨-, -, hsound⟩
        · exact absurd hr (hends w')
        · exact hsound

/-- A call of `read` gives the next bytes of the stream, or none at all. -/
theorem read_gives (h : Sound limits start w) (capacity : Nat) :
    Triple (· = w) (read capacity) (fun bytes w' => Delivered w capacity bytes w')
      (fun _ w' => w'.input.delivered = w.input.delivered) := by
  cases hfault : w.budget.failure with
  | some fault =>
    rintro _ rfl
    rw [(calls_latched hfault capacity []).1]
    rfl
  | none =>
    refine (read_spec h.settled h.within capacity).conseq (fun _ => id) (fun _ _ => id)
      fun halt w' hstop => ?_
    rcases hstop with ⟨-, -, -, hgone⟩ | ⟨-, -, -, lost, hgone⟩
    · exact hgone.1.delivered
    · exact hgone.1.delivered

theorem call_latched {fault : Fault} (h : w.budget.failure = some fault) (c : Call) :
    c.run w = (.error (.err .protected_stream_failed), looked w) := by
  cases c with
  | read capacity => exact (calls_latched h capacity []).1
  | write buffer => exact (calls_latched h 0 buffer).2.1
  | flush => exact (calls_latched h 0 []).2.2

/-- No fault was met, and the report counts what went in and what came out. -/
structure Counted (limits : CryptoLimits) (start : Bytes) (r : CryptoReport) (w : World) :
    Prop where
  sound : Sound limits start w
  no_fault : w.budget.faults = []
  input : r.input_bytes = w.input.delivered.length
  output : r.output_bytes = w.output.accepted.length
  forwarded : w.output.forwarded = w.output.accepted

theorem counted_of_fine (h : Fine limits start w) :
    Counted limits start ⟨w.input.count, w.output.count⟩ w := by
  obtain ⟨hnone, hsound⟩ := h
  have hfaults : w.budget.faults.head? = none := hsound.settled.symm.trans hnone
  refine ⟨hsound, List.head?_eq_none_iff.1 hfaults, hsound.counted, ?_, hsound.all_accepted hnone⟩
  rw [← hsound.all_accepted hnone]
  exact hsound.all_counted hnone

/-- A provider stops before it looks at the streams, or with what the streams report. -/
def Refused (limits : CryptoLimits) (start : Bytes) (excess : Prop) (h : Halt ProtectionError)
    (w : World) : Prop :=
  (∃ e, limits.validate = .error e ∧ h = .err e) ∨ Reported limits start excess h w

theorem encrypt_counts (age : Age) (document : Option (List (Line age.Key))) (turns : Nat) :
    Triple (fun w => w.input.stream = start) (encrypt age document limits turns)
      (fun r w => Counted limits start r w ∧ w.taken = w.input.delivered)
      (Refused limits start False) := by
  cases hlimits : limits.validate with
  | error e =>
    unfold encrypt
    rw [hlimits]
    exact Triple.stop fun _ _ => .inl ⟨e, hlimits, rfl⟩
  | ok _ =>
    refine (encrypt_keeps age document turns hlimits).conseq (fun _ => id) (fun r w h => ?_)
      fun _ _ => .inr
    rw [h.2]
    exact ⟨counted_of_fine h.1.1, h.1.2⟩

theorem decrypt_counts (age : Age) (document : Option (List (Line age.Key))) (turns : Nat) :
    Triple (fun w => w.input.stream = start) (decrypt_to_staging age document limits turns)
      (Counted limits start) (Refused limits start (¬ age.WithinBuffer)) := by
  cases hlimits : limits.validate with
  | error e =>
    unfold decrypt_to_staging
    rw [hlimits]
    exact Triple.stop fun _ _ => .inl ⟨e, hlimits, rfl⟩
  | ok _ =>
    refine (decrypt_keeps age document turns hlimits).conseq (fun _ => id) (fun r w h => ?_)
      fun _ _ => .inr
    rw [h.2]
    exact counted_of_fine h.1

/-- Whatever the caller's streams, the clock and the library do, nothing goes past a limit, nothing
is lost or repeated, the first fault stays and is reported, and a provider that ends well met none
and counts what went in and out. -/
theorem the_streams_stay_within_their_limits (limits : CryptoLimits) (start : Bytes) :
    (∀ w, Reached limits start w →
      Sound limits start w ∧
      (∀ c : Call, Triple (· = w) c.run (fun _ => Fine limits start) (Stopped limits start)) ∧
      (∀ capacity, Triple (· = w) (read capacity) (fun bytes w' => Delivered w capacity bytes w')
        fun _ w' => w'.input.delivered = w.input.delivered) ∧
      (∀ buffer, Triple (· = w) (write buffer) (fun count w' => Written w buffer count w')
        (Stopped limits start)) ∧
      (∀ fault, w.budget.failure = some fault → ∀ c : Call,
        c.run w = (.error (.err .protected_stream_failed), looked w) ∧
          (looked w).budget.failure = some fault) ∧
      ∀ capacities : List Nat, OnTime w → Honest w.input.answers →
        w.input.stream.length < gives w.input.answers →
        w.input.stream.length < capacities.length → (∀ capacity ∈ capacities, 0 < capacity) →
          Triple (· = w) (keep_reading capacities) (Complete w) (Truncated w)) ∧
    (∀ (age : Age) (document : Option (List (Line age.Key))) (turns : Nat),
      Triple (fun w => w.input.stream = start) (encrypt age document limits turns)
        (fun r w => Counted limits start r w ∧ w.taken = w.input.delivered)
        (Refused limits start False)) ∧
    ∀ (age : Age) (document : Option (List (Line age.Key))) (turns : Nat),
      Triple (fun w => w.input.stream = start) (decrypt_to_staging age document limits turns)
        (Counted limits start) (Refused limits start (¬ age.WithinBuffer)) := by
  refine ⟨fun w hw => ?_, encrypt_counts, decrypt_counts⟩
  have hsound := hw.sound
  refine ⟨hsound, fun c => ?_, read_gives hsound, fun buffer => ?_, fun fault hfault c => ?_,
    fun capacities htime hhonest htimes hcapacities hpositive => ?_⟩
  · refine (keeps_nothing c).conseq ?_ (fun _ _ h => h.1) fun _ _ => id
    rintro _ rfl
    exact ⟨hsound, fun _ => trivial⟩
  · have hwithin := Nat.le_trans hsound.count_le hsound.forwarded_le
    cases hfault : w.budget.failure with
    | some fault =>
      rintro _ rfl
      rw [(calls_latched hfault 0 buffer).2.1]
      exact hsound.stopped hfault _
    | none =>
      exact (write_spec hsound.settled hwithin buffer).conseq (fun _ => id) (fun _ _ => id)
        fun _ _ => hsound.unwritten hfault
  · exact ⟨call_latched hfault c, looked_latched hfault⟩
  · exact keep_reading_ends capacities hsound htime hhonest htimes hcapacities hpositive

/-- Limits that three bytes do not reach. -/
def small_limits : CryptoLimits := ⟨16, 16, 1000, 1⟩

/-- A reader with three bytes that is interrupted between them. -/
def three_bytes : World where
  budget := ⟨fun _ => false, 0, none, none, []⟩
  input := ⟨0, 0, [1, 2, 3], [.Gives 2, .Interrupted, .Gives 5, .Gives 1, .Gives 1], []⟩
  output := ⟨0, 0, [], [], [], []⟩
  taken := []

theorem three_bytes_are_read : Triple (· = new_streams small_limits three_bytes)
    (keep_reading [4, 4, 4, 4]) (Complete (new_streams small_limits three_bytes))
      (Truncated (new_streams small_limits three_bytes)) := by
  obtain ⟨hreached, -⟩ := the_streams_stay_within_their_limits small_limits [1, 2, 3]
  obtain ⟨-, -, -, -, -, hread⟩ :=
    hreached (new_streams small_limits three_bytes) (.new three_bytes rfl)
  refine hread [4, 4, 4, 4] ⟨rfl, fun _ _ => rfl⟩ ?_ (by decide) (by decide) (by decide)
  intro answer hmem
  have hanswers : answer ∈ [ReadAnswer.Gives 2, .Interrupted, .Gives 5, .Gives 1, .Gives 1] := hmem
  simp only [List.mem_cons, List.not_mem_nil, or_false] at hanswers
  obtain rfl | rfl | rfl | rfl | rfl := hanswers
  · exact .inr ⟨1, rfl⟩
  · exact .inl rfl
  · exact .inr ⟨4, rfl⟩
  · exact .inr ⟨0, rfl⟩
  · exact .inr ⟨0, rfl⟩

end openwrt_mcp_crypto_age
