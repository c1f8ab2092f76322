-- The laws of the streams of `crypto-age`, for any streams of the caller, any clock and any calls
-- of the library: nothing goes past a limit, nothing is lost or repeated before the first fault,
-- and after it every call fails.
import OpenwrtMcp.AgeStreams

open programs openwrt_mcp_runtime.protection

namespace openwrt_mcp_crypto_age

variable {α ε : Type} {w : World}

/-! ## The budget -/

/-- The fault that is latched is the first one. -/
def Settled (w : World) : Prop := w.budget.failure = w.budget.faults.head?

/-- A fact that the budget has no part in, but for the limit of a header. -/
def Steady (D : World → Prop) : Prop :=
  ∀ w b, b.header_maximum = w.budget.header_maximum → D w → D { w with budget := b }

/-- An end with an error, and with a fault that is latched. -/
def Failed (D : World → Prop) (h : Halt ε) (w : World) : Prop :=
  (∃ e, h = .err e) ∧ w.budget.failure ≠ none ∧ Settled w ∧ D w

/-- No fault so far. -/
def Clean (D : World → Prop) (w : World) : Prop := w.budget.failure = none ∧ Settled w ∧ D w

theorem settled_meet {b : Budget} (fault : Fault) (h : b.failure = b.faults.head?) :
    (b.meet fault).failure = (b.meet fault).faults.head? ∧ (b.meet fault).failure ≠ none := by
  unfold Budget.meet
  cases hfaults : b.faults with
  | nil =>
    rw [hfaults] at h
    simp [h]
  | cons first rest =>
    rw [hfaults] at h
    simp [h]

theorem settled_look {b : Budget} (h : b.failure = b.faults.head?) :
    b.look.failure = b.look.faults.head? ∧ (b.look.failure = none → b.failure = none) ∧
      b.look.header_maximum = b.header_maximum := by
  unfold Budget.look
  simp only
  split
  · obtain ⟨hsettled, hsome⟩ := settled_meet (b := { b with looks := b.looks + 1 }) .Deadline h
    exact ⟨hsettled, fun hnone => absurd hnone hsome, rfl⟩
  · exact ⟨h, id, rfl⟩

theorem check_spec {D : World → Prop} (hD : Steady D) :
    Triple (fun w => Settled w ∧ D w) Budget.check (fun _ => Clean D) (Failed D) := by
  rintro w ⟨hsettled, hd⟩
  obtain ⟨hlook, -, hheader⟩ := settled_look hsettled
  have hd' := hD w w.budget.look hheader hd
  unfold Budget.check Budget.set_budget
  cases hfailure : w.budget.look.failure with
  | none =>
    simp only [hfailure]
    exact ⟨hfailure, hlook, hd'⟩
  | some fault =>
    simp only [hfailure]
    exact ⟨⟨_, rfl⟩, by simp [hfailure], hlook, hd'⟩

theorem map_err_spec {ε' : Type} {P : World → Prop} {x : Run ε α} {Q : α → World → Prop}
    {D : World → Prop} {f : World → ε → ε'} {B : World → Prop}
    (hx : Triple P x Q fun h w => (h = .blocked ∧ B w) ∨ Failed D h w) :
    Triple P (map_err f x) Q fun h w => (h = .blocked ∧ B w) ∨ Failed D h w := by
  intro w hw
  have h := hx w hw
  unfold map_err
  cases hr : x w with
  | mk r w' =>
    rw [hr] at h
    cases r with
    | ok a => exact h
    | error halt =>
      rcases h with ⟨rfl, hb⟩ | ⟨⟨e, rfl⟩, hrest⟩
      · exact .inl ⟨rfl, hb⟩
      · exact .inr ⟨⟨_, rfl⟩, hrest⟩

theorem check_io_spec {D : World → Prop} (hD : Steady D) :
    Triple (fun w => Settled w ∧ D w) Budget.check_io (fun _ => Clean D) (Failed D) := by
  have hcheck : Triple (fun w => Settled w ∧ D w) Budget.check (fun _ => Clean D)
      fun h w => (h = .blocked ∧ False) ∨ Failed D h w :=
    (check_spec hD).conseq (fun _ => id) (fun _ _ => id) (fun _ _ => .inr)
  refine Triple.conseq (map_err_spec hcheck) (fun _ => id) (fun _ _ => id) fun h w => ?_
  rintro (⟨-, hfalse⟩ | hfailed)
  · exact hfalse.elim
  · exact hfailed

theorem fail_spec {D : World → Prop} (hD : Steady D) (failure : Fault) {Q : α → World → Prop} :
    Triple (fun w => Settled w ∧ D w) (Budget.fail failure) Q (Failed D) := by
  refine Triple.modify_bind (M := fun w => w.budget.failure ≠ none ∧ Settled w ∧ D w) ?_ ?_
  · rintro w ⟨hsettled, hd⟩
    obtain ⟨hmeet, hsome⟩ := settled_meet failure hsettled
    exact ⟨hsome, hmeet, hD w _ rfl hd⟩
  · exact Triple.stop fun w hw => ⟨⟨_, rfl⟩, hw⟩

/-! ## The loop that reads -/

/-- What the loop that reads leaves as it is. -/
structure Kept (w₀ w : World) : Prop where
  header : w.budget.header_maximum = w₀.budget.header_maximum
  maximum : w.input.maximum = w₀.input.maximum
  count : w.input.count = w₀.input.count
  delivered : w.input.delivered = w₀.input.delivered
  output : w.output = w₀.output
  taken : w.taken = w₀.taken

/-- Of the caller's stream, `bytes` are gone. -/
def Gone (w₀ : World) (bytes : Bytes) (w : World) : Prop :=
  Kept w₀ w ∧ w₀.input.stream = bytes ++ w.input.stream

theorem steady_gone (w₀ : World) (bytes : Bytes) : Steady (Gone w₀ bytes) := by
  rintro w b hb ⟨h, hstream⟩
  exact ⟨⟨hb.trans h.header, h.maximum, h.count, h.delivered, h.output, h.taken⟩, hstream⟩

/-- What a call of the caller's reader put into the buffer. -/
def filled_of : Except ErrorKind (Nat × Bytes) → Bytes
  | .ok (_, filled) => filled
  | .error _ => []

theorem inner_read_spec (w₀ : World) (capacity : Nat) (answer : ReadAnswer) :
    Triple (Clean (Gone w₀ []))
      (inner_read capacity answer : Run ε (Except ErrorKind (Nat × Bytes)))
      (fun result w => Clean (Gone w₀ (filled_of result)) w ∧
        (filled_of result).length ≤ capacity) (fun _ _ => False) := by
  rintro w ⟨hclean, hsettled, hkept, hstream⟩
  have hkept' : ∀ stream, Kept w₀ { w with input := { w.input with
      answers := w.input.answers.tail, stream } } := fun stream =>
    ⟨hkept.header, hkept.maximum, hkept.count, hkept.delivered, hkept.output, hkept.taken⟩
  cases answer with
  | Gives count =>
    refine ⟨⟨hclean, hsettled, hkept' _, ?_⟩, ?_⟩
    · rw [hstream, List.nil_append]
      exact (List.take_append_drop _ _).symm
    · exact Nat.le_trans (List.length_take_le _ _) (Nat.min_le_right _ _)
  | Claims beyond => exact ⟨⟨hclean, hsettled, hkept' _, hstream⟩, Nat.zero_le _⟩
  | Interrupted => exact ⟨⟨hclean, hsettled, hkept' _, hstream⟩, Nat.zero_le _⟩
  | Fails => exact ⟨⟨hclean, hsettled, hkept' _, hstream⟩, Nat.zero_le _⟩

/-- The loop gives what it took from the caller's stream. When it fails after that, what it took is
lost. -/
theorem read_loop_spec (w₀ : World) (capacity : Nat) (answers : List ReadAnswer) :
    Triple (Clean (Gone w₀ [])) (read_loop capacity answers)
      (fun bytes w => Clean (Gone w₀ bytes) w ∧ bytes.length ≤ capacity)
      (fun h w => (h = .blocked ∧ Clean (Gone w₀ []) w) ∨
        Failed (fun w => ∃ lost, Gone w₀ lost w) h w) := by
  have hlost : ∀ (lost : Bytes) (h : Halt IoError) w, Failed (Gone w₀ lost) h w →
      Failed (fun w => ∃ lost, Gone w₀ lost w) h w := fun lost h w hfailed =>
    ⟨hfailed.1, hfailed.2.1, hfailed.2.2.1, lost, hfailed.2.2.2⟩
  have hcheck : ∀ bytes, Triple (Clean (Gone w₀ bytes)) Budget.check_io
      (fun _ => Clean (Gone w₀ bytes)) (fun h w => (h = .blocked ∧ Clean (Gone w₀ []) w) ∨
        Failed (fun w => ∃ lost, Gone w₀ lost w) h w) := fun bytes =>
    (check_io_spec (steady_gone w₀ bytes)).conseq (fun _ h => h.2) (fun _ _ => id)
      fun h w hfailed => .inr (hlost bytes h w hfailed)
  have hfail : ∀ (bytes : Bytes) (Q : Bytes → World → Prop), Triple (Clean (Gone w₀ bytes))
      (Budget.fail .Stream) Q (fun h w => (h = .blocked ∧ Clean (Gone w₀ []) w) ∨
        Failed (fun w => ∃ lost, Gone w₀ lost w) h w) := fun bytes Q =>
    (fail_spec (steady_gone w₀ bytes) .Stream).conseq (fun _ h => h.2) (fun _ _ => id)
      fun h w hfailed => .inr (hlost bytes h w hfailed)
  induction answers with
  | nil => exact Triple.bind (hcheck []) fun _ => Triple.stop fun w hw => .inl ⟨rfl, hw⟩
  | cons answer rest ih =>
    refine Triple.bind (hcheck []) fun _ => Triple.bind ((inner_read_spec w₀ capacity answer).conseq
      (fun _ => id) (fun _ _ => id) fun _ _ => False.elim) fun result => ?_
    rw [show (fun w => Clean (Gone w₀ (filled_of result)) w ∧
        (filled_of result).length ≤ capacity) = fun w => (filled_of result).length ≤ capacity ∧
          Clean (Gone w₀ (filled_of result)) w from funext fun w => propext and_comm]
    refine Triple.of_and fun hlen => Triple.bind (hcheck _) fun _ => ?_
    rcases result with (_ | _) | ⟨count, filled⟩
    · exact ih
    · exact hfail [] _
    · show Triple (Clean (Gone w₀ filled)) (if count ≤ capacity then _ else _) _ _
      split
      · exact Triple.pure fun w hw => ⟨hw, hlen⟩
      · exact hfail filled _

theorem read_inner_spec (w₀ : World) (capacity : Nat) :
    Triple (Clean (Gone w₀ [])) (read_inner capacity)
      (fun bytes w => Clean (Gone w₀ bytes) w ∧ bytes.length ≤ capacity)
      (fun h w => (h = .blocked ∧ Clean (Gone w₀ []) w) ∨
        Failed (fun w => ∃ lost, Gone w₀ lost w) h w) :=
  Triple.get_bind fun w hw => (read_loop_spec w₀ capacity w.input.answers).conseq
    (fun _ heq => heq ▸ hw) (fun _ _ => id) fun _ _ => id

/-! ## A call of `read` -/

/-- The call gave these bytes, the next ones of the stream. -/
structure Delivered (w₀ : World) (capacity : Nat) (bytes : Bytes) (w : World) : Prop where
  clean : w.budget.failure = none
  settled : Settled w
  header : w.budget.header_maximum = w₀.budget.header_maximum
  maximum : w.input.maximum = w₀.input.maximum
  count : w.input.count = w₀.input.count + bytes.length
  delivered : w.input.delivered = w₀.input.delivered ++ bytes
  stream : w₀.input.stream = bytes ++ w.input.stream
  room : bytes.length ≤ w₀.limit - w₀.input.count
  fits : bytes.length ≤ capacity
  output : w.output = w₀.output
  taken : w.taken = w₀.taken

theorem Kept.limit {w₀ : World} (h : Kept w₀ w) : w.limit = w₀.limit := by
  simp [World.limit, h.header, h.maximum]

theorem gone_self (w₀ : World) : Gone w₀ [] w₀ := ⟨⟨rfl, rfl, rfl, rfl, rfl, rfl⟩, rfl⟩

theorem delivered_nil {w₀ : World} {capacity : Nat} (h : Clean (Gone w₀ []) w) :
    Delivered w₀ capacity [] w := by
  obtain ⟨hclean, hsettled, hkept, hstream⟩ := h
  exact ⟨hclean, hsettled, hkept.header, hkept.maximum, by simp [hkept.count],
    by simp [hkept.delivered], hstream, Nat.zero_le _, Nat.zero_le _, hkept.output, hkept.taken⟩

theorem delivered_bytes {w₀ : World} {capacity room : Nat} {bytes : Bytes}
    (h : Clean (Gone w₀ bytes) w) (hlen : bytes.length ≤ min room capacity)
    (hroom : room = w₀.limit - w₀.input.count) : Delivered w₀ capacity bytes (deliver bytes w) := by
  obtain ⟨hclean, hsettled, hkept, hstream⟩ := h
  refine ⟨hclean, hsettled, hkept.header, hkept.maximum, ?_, ?_, hstream, by omega, by omega,
    hkept.output, hkept.taken⟩
  · simp [deliver, hkept.count]
  · simp [deliver, hkept.delivered]

/-- A call of `read` gives the next bytes of the stream as far as the limit allows, or it fails and
gives none. -/
theorem read_spec {w₀ : World} (hsettled : Settled w₀) (hwithin : w₀.input.count ≤ w₀.limit)
    (capacity : Nat) :
    Triple (· = w₀) (read capacity) (fun bytes w => Delivered w₀ capacity bytes w)
      (fun h w => (h = .blocked ∧ Clean (Gone w₀ []) w) ∨
        Failed (fun w => ∃ lost, Gone w₀ lost w) h w) := by
  refine Triple.bind (Q := fun _ => Clean (Gone w₀ [])) ((check_io_spec (steady_gone w₀ [])).conseq
    (fun w heq => heq.symm ▸ ⟨hsettled, gone_self w₀⟩) (fun _ _ => id) fun h w hfailed =>
      .inr ⟨hfailed.1, hfailed.2.1, hfailed.2.2.1, [], hfailed.2.2.2⟩) fun _ => ?_
  by_cases hempty : capacity = 0
  · rw [if_pos hempty]
    exact Triple.pure fun w hw => delivered_nil hw
  rw [if_neg hempty]
  refine Triple.get_bind fun w hw => ?_
  have hlimit := hw.2.2.1.limit
  have hcount := hw.2.2.1.count
  rw [hlimit, hcount, if_neg (Nat.not_lt.2 hwithin)]
  simp only
  split
  · refine Triple.bind ((read_inner_spec w₀ 1).conseq (fun _ heq => heq ▸ hw) (fun _ _ => id)
      fun _ _ => id) fun probe => ?_
    split
    · rename_i hprobe
      refine Triple.pure fun w hgone => delivered_nil ?_
      rw [List.length_eq_zero_iff] at hprobe
      exact hprobe ▸ hgone.1
    · exact (fail_spec (steady_gone w₀ probe) .Limit).conseq (fun _ h => h.1.2) (fun _ _ => id)
        fun h w hfailed => .inr ⟨hfailed.1, hfailed.2.1, hfailed.2.2.1, probe, hfailed.2.2.2⟩
  · refine Triple.bind ((read_inner_spec w₀ _).conseq (fun _ heq => heq ▸ hw) (fun _ _ => id)
      fun _ _ => id) fun bytes => ?_
    exact Triple.modify_bind (M := fun w => Delivered w₀ capacity bytes w)
      (fun w hgone => delivered_bytes hgone.1 hgone.2 rfl) (Triple.pure fun _ => id)

/-! ## The loop that writes -/

/-- What the loop that writes leaves as it is. -/
structure Still (w₀ w : World) : Prop where
  header : w.budget.header_maximum = w₀.budget.header_maximum
  input : w.input = w₀.input
  maximum : w.output.maximum = w₀.output.maximum
  accepted : w.output.accepted = w₀.output.accepted
  taken : w.taken = w₀.taken

/-- The caller's writer took `part`, of which the last `ahead` bytes are not counted. -/
def Sent (w₀ : World) (part : Bytes) (ahead : Nat) (w : World) : Prop :=
  Still w₀ w ∧ w.output.forwarded = w₀.output.forwarded ++ part ∧
    w.output.count + ahead = w₀.output.count + part.length

/-- The caller's writer took no more than there was room for. -/
def Partly (w₀ w : World) : Prop :=
  ∃ e : Bytes × Nat, e.1.length ≤ w₀.output.maximum - w₀.output.count ∧ Sent w₀ e.1 e.2 w

theorem steady_sent (w₀ : World) (part : Bytes) (ahead : Nat) : Steady (Sent w₀ part ahead) := by
  rintro w b hb ⟨h, hforwarded, hcount⟩
  exact ⟨⟨hb.trans h.header, h.input, h.maximum, h.accepted, h.taken⟩, hforwarded, hcount⟩

/-- How a loop or a call that writes may stop. -/
def Unwritten (w₀ : World) (h : Halt ε) (w : World) : Prop :=
  (h = .blocked ∧ Clean (Partly w₀) w) ∨ Failed (Partly w₀) h w

/-- How much of what is left the caller's writer took. -/
def sent_of (rest : Nat) : Except ErrorKind Nat → Nat
  | .ok count => min count rest
  | .error _ => 0

theorem inner_write_spec (w₀ : World) (buffer : Bytes) {offset : Nat} (h : offset ≤ buffer.length)
    (answer : WriteAnswer) :
    Triple (Clean (Sent w₀ (buffer.take offset) 0))
      (inner_write (buffer.drop offset) answer : Run ε (Except ErrorKind Nat))
      (fun result => Clean (Sent w₀ (buffer.take (offset + sent_of (buffer.length - offset) result))
        (sent_of (buffer.length - offset) result))) (fun _ _ => False) := by
  rintro w ⟨hclean, hsettled, hstill, hforwarded, hcount⟩
  have hstill' : ∀ forwarded, Still w₀ { w with output := { w.output with
      answers := w.output.answers.tail, forwarded } } := fun forwarded =>
    ⟨hstill.header, hstill.input, hstill.maximum, hstill.accepted, hstill.taken⟩
  have hlen : ∀ {k}, k ≤ buffer.length - offset → w.output.count + k =
      w₀.output.count + (buffer.take (offset + k)).length := by
    intro k hk
    rw [List.length_take] at hcount ⊢
    omega
  cases answer with
  | Takes count =>
    have hpart : ((buffer.drop offset).take count).length = min count (buffer.length - offset) := by
      rw [List.length_take, List.length_drop]
    have hsent : sent_of (buffer.length - offset) (.ok ((buffer.drop offset).take count).length) =
        min count (buffer.length - offset) := by
      rw [sent_of, hpart]
      omega
    show Clean _ _
    rw [hsent]
    refine ⟨hclean, hsettled, hstill' _, ?_, hlen (Nat.min_le_right _ _)⟩
    show w.output.forwarded ++ _ = _
    rw [hforwarded, List.append_assoc, List.take_add, ← List.length_drop, ← List.take_eq_take_min]
  | Claims beyond =>
    have hsent : sent_of (buffer.length - offset)
        (.ok ((buffer.drop offset).length + 1 + beyond)) = buffer.length - offset := by
      rw [sent_of, List.length_drop]
      omega
    show Clean _ _
    rw [hsent]
    refine ⟨hclean, hsettled, hstill' _, ?_, hlen (Nat.le_refl _)⟩
    show w.output.forwarded ++ _ = _
    rw [hforwarded, List.append_assoc, List.take_append_drop, Nat.add_sub_cancel' h,
      List.take_length]
  | Interrupted => exact ⟨hclean, hsettled, hstill' _, hforwarded, hcount⟩
  | Fails => exact ⟨hclean, hsettled, hstill' _, hforwarded, hcount⟩

/-- The loop comes back when the whole buffer went through. -/
theorem write_loop_spec (w₀ : World) (buffer : Bytes)
    (hroom : buffer.length ≤ w₀.output.maximum - w₀.output.count) (answers : List WriteAnswer)
    (offset : Nat) (h : offset ≤ buffer.length) :
    Triple (Clean (Sent w₀ (buffer.take offset) 0)) (write_loop buffer answers offset)
      (fun count w => count = buffer.length ∧ Clean (Sent w₀ buffer 0) w) (Unwritten w₀) := by
  have hpart : ∀ {k ahead : Nat} {w : World}, Sent w₀ (buffer.take k) ahead w → Partly w₀ w :=
    fun hsent => ⟨(_, _), Nat.le_trans (List.length_take_le' _ _) hroom, hsent⟩
  have hcheck : ∀ k ahead, Triple (Clean (Sent w₀ (buffer.take k) ahead)) Budget.check_io
      (fun _ => Clean (Sent w₀ (buffer.take k) ahead)) (Unwritten w₀) := fun k ahead =>
    (check_io_spec (steady_sent w₀ _ ahead)).conseq (fun _ hw => hw.2) (fun _ _ => id)
      fun h w hfailed => .inr ⟨hfailed.1, hfailed.2.1, hfailed.2.2.1, hpart hfailed.2.2.2⟩
  have hfail : ∀ k ahead (Q : Nat → World → Prop), Triple (Clean (Sent w₀ (buffer.take k) ahead))
      (Budget.fail .Stream) Q (Unwritten w₀) := fun k ahead Q =>
    (fail_spec (steady_sent w₀ _ ahead) .Stream).conseq (fun _ hw => hw.2) (fun _ _ => id)
      fun h w hfailed => .inr ⟨hfailed.1, hfailed.2.1, hfailed.2.2.1, hpart hfailed.2.2.2⟩
  have hdone : ∀ {offset}, offset ≤ buffer.length → ¬ offset < buffer.length →
      Triple (Clean (Sent w₀ (buffer.take offset) 0)) (pure offset : Run IoError Nat)
        (fun count w => count = buffer.length ∧ Clean (Sent w₀ buffer 0) w) (Unwritten w₀) := by
    intro offset hle hnot
    obtain rfl : offset = buffer.length := by omega
    rw [List.take_length]
    exact Triple.pure fun w hw => ⟨rfl, hw⟩
  induction answers generalizing offset with
  | nil =>
    unfold write_loop
    split
    · refine Triple.bind (hcheck _ _) fun _ => Triple.stop fun w hw => .inl ⟨rfl, hw.1, hw.2.1, ?_⟩
      exact hpart hw.2.2
    · rename_i hnot
      exact hdone h hnot
  | cons answer rest ih =>
    unfold write_loop
    split
    case isFalse hnot => exact hdone h hnot
    refine Triple.bind (hcheck _ _) fun _ => Triple.bind
      ((inner_write_spec w₀ buffer h answer).conseq
      (fun _ => id) (fun _ _ => id) fun _ _ => False.elim) fun result =>
        Triple.bind (hcheck _ _) fun _ => ?_
    rcases result with (_ | _) | count
    · exact ih offset h
    · exact hfail offset 0 _
    · show Triple _ (if 0 < count ∧ count ≤ buffer.length - offset then _ else _) _ _
      split
      · rename_i hcount
        have hsent : sent_of (buffer.length - offset) (.ok count) = count :=
          Nat.min_eq_left hcount.2
        rw [hsent]
        refine Triple.modify_bind (M := Clean (Sent w₀ (buffer.take (offset + count)) 0)) ?_
          (ih (offset + count) (by omega))
        rintro w ⟨hclean, hsettled, hstill, hforwarded, hcounted⟩
        exact ⟨hclean, hsettled, ⟨hstill.header, hstill.input, hstill.maximum, hstill.accepted,
          hstill.taken⟩, hforwarded, hcounted⟩
      · exact hfail _ _ _

/-- The whole buffer went through. -/
structure Written (w₀ : World) (buffer : Bytes) (count : Nat) (w : World) : Prop where
  clean : w.budget.failure = none
  settled : Settled w
  all : count = buffer.length
  header : w.budget.header_maximum = w₀.budget.header_maximum
  input : w.input = w₀.input
  maximum : w.output.maximum = w₀.output.maximum
  counted : w.output.count = w₀.output.count + buffer.length
  forwarded : w.output.forwarded = w₀.output.forwarded ++ buffer
  accepted : w.output.accepted = w₀.output.accepted ++ buffer
  room : buffer.length ≤ w₀.output.maximum - w₀.output.count
  taken : w.taken = w₀.taken

theorem sent_self (w₀ : World) : Sent w₀ [] 0 w₀ := ⟨⟨rfl, rfl, rfl, rfl, rfl⟩, by simp, rfl⟩

theorem partly_nil {w₀ w : World} (h : Sent w₀ [] 0 w) : Partly w₀ w :=
  ⟨([], 0), Nat.zero_le _, h⟩

theorem unwritten_nil {w₀ : World} {h : Halt ε} (hfailed : Failed (Sent w₀ [] 0) h w) :
    Unwritten w₀ h w :=
  .inr ⟨hfailed.1, hfailed.2.1, hfailed.2.2.1, partly_nil hfailed.2.2.2⟩

/-- A look at the budget before anything is written. -/
theorem check_unwritten {w₀ : World} (hsettled : Settled w₀) :
    Triple (· = w₀) Budget.check_io (fun _ => Clean (Sent w₀ [] 0)) (Unwritten w₀) :=
  (check_io_spec (steady_sent w₀ [] 0)).conseq (fun _ heq => heq.symm ▸ ⟨hsettled, sent_self w₀⟩)
    (fun _ _ => id) fun _ _ => unwritten_nil

/-- A call of `write` sends the whole buffer, or it fails. -/
theorem write_spec {w₀ : World} (hsettled : Settled w₀)
    (hwithin : w₀.output.count ≤ w₀.output.maximum) (buffer : Bytes) :
    Triple (· = w₀) (write buffer) (fun count w => Written w₀ buffer count w) (Unwritten w₀) := by
  refine Triple.bind (check_unwritten hsettled) fun _ => Triple.get_bind fun w hw => ?_
  obtain ⟨hclean, hw', hstill, hforwarded, hcount⟩ := hw
  have hcount : w.output.count = w₀.output.count := by simpa using hcount
  rw [hcount, hstill.maximum, if_neg (Nat.not_lt.2 hwithin)]
  split
  · exact (fail_spec (steady_sent w₀ [] 0) .Limit).conseq
      (fun _ heq => heq.symm ▸ ⟨hw', hstill, hforwarded, by simpa using hcount⟩) (fun _ _ => id)
      fun _ _ => unwritten_nil
  · rename_i hroom
    have hroom := Nat.le_of_not_lt hroom
    refine Triple.bind ((write_loop_spec w₀ buffer hroom _ 0 (Nat.zero_le _)).conseq
      (fun _ heq =>
        heq.symm ▸ ⟨hclean, hw', hstill, by simpa using hforwarded, by simpa using hcount⟩)
      (fun _ _ => id) fun _ _ => id) fun count => ?_
    refine Triple.of_and fun hall => Triple.modify_bind (M := Written w₀ buffer count) ?_
      (Triple.pure fun _ => id)
    rintro w ⟨hclean, hsettled, hstill, hforwarded, hcount⟩
    exact ⟨hclean, hsettled, hall, hstill.header, hstill.input, hstill.maximum, hcount, hforwarded,
      by simp [accept, hstill.accepted], hroom, hstill.taken⟩

theorem flush_spec {w₀ : World} (hsettled : Settled w₀) :
    Triple (· = w₀) flush (fun _ => Clean (Sent w₀ [] 0)) (Unwritten w₀) := by
  have hcheck : Triple (Clean (Sent w₀ [] 0)) Budget.check_io (fun _ => Clean (Sent w₀ [] 0))
      (Unwritten w₀) :=
    (check_io_spec (steady_sent w₀ [] 0)).conseq (fun _ hw => hw.2) (fun _ _ => id)
      fun _ _ => unwritten_nil
  have hinner : Triple (Clean (Sent w₀ [] 0)) (inner_flush : Run IoError Bool)
      (fun _ => Clean (Sent w₀ [] 0)) (Unwritten w₀) := by
    refine Triple.get_bind fun w hw => ?_
    split
    · exact Triple.stop fun _ heq => .inl ⟨rfl, heq.symm ▸ hw.1, heq.symm ▸ hw.2.1,
        partly_nil (heq.symm ▸ hw.2.2)⟩
    · refine Triple.modify_bind (M := Clean (Sent w₀ [] 0)) ?_ (Triple.pure fun _ => id)
      rintro _ rfl
      obtain ⟨hclean, hsettled, hstill, hforwarded, hcount⟩ := hw
      exact ⟨hclean, hsettled, ⟨hstill.header, hstill.input, hstill.maximum, hstill.accepted,
        hstill.taken⟩, hforwarded, hcount⟩
  refine Triple.bind (check_unwritten hsettled) fun _ => Triple.bind hinner fun fine =>
    Triple.bind hcheck fun _ => ?_
  cases fine with
  | true => exact Triple.pure fun _ => id
  | false =>
    exact (fail_spec (steady_sent w₀ [] 0) .Stream).conseq (fun _ hw => hw.2) (fun _ _ => id)
      fun _ _ => unwritten_nil

/-! ## After the first fault -/

theorem look_latched {b : Budget} {fault : Fault} (h : b.failure = some fault) :
    b.look.failure = some fault := by
  unfold Budget.look Budget.meet
  simp only
  split <;> simp [h]

theorem error_latched {b : Budget} {fault : Fault} (h : b.failure = some fault)
    (fallback fallback' : ProtectionError) : b.error fallback = b.error fallback' := by
  unfold Budget.error
  rw [h]
  cases fault <;> rfl

theorem check_latched {fault : Fault} (h : w.budget.failure = some fault) :
    Budget.check w =
      (.error (.err (w.budget.error .StreamFailed)), Budget.set_budget Budget.look w) := by
  unfold Budget.check Budget.set_budget
  simp [look_latched h, Budget.error, h]

theorem check_io_latched {fault : Fault} (h : w.budget.failure = some fault) :
    Budget.check_io w =
      (.error (.err .protected_stream_failed), Budget.set_budget Budget.look w) := by
  unfold Budget.check_io map_err
  rw [check_latched h]

theorem bind_stopped {β : Type} {x : Run ε α} {f : α → Run ε β} {e : Halt ε} {w' : World}
    (h : x w = (.error e, w')) : (x >>= f) w = (.error e, w') := by
  show Prog.bind x f w = _
  unfold Prog.bind
  rw [h]

/-- After a fault every call fails at once. -/
theorem calls_latched {fault : Fault} (h : w.budget.failure = some fault) (capacity : Nat)
    (buffer : Bytes) :
    read capacity w = (.error (.err .protected_stream_failed), Budget.set_budget Budget.look w) ∧
    write buffer w = (.error (.err .protected_stream_failed), Budget.set_budget Budget.look w) ∧
    flush w = (.error (.err .protected_stream_failed), Budget.set_budget Budget.look w) :=
  ⟨bind_stopped (check_io_latched h), bind_stopped (check_io_latched h),
    bind_stopped (check_io_latched h)⟩

/-! ## What holds in every run -/

/-- What holds at any time, also in the middle of a call. `start` is the stream that the caller's
reader had at first. -/
structure Bounded (limits : CryptoLimits) (start : Bytes) (w : World) : Prop where
  settled : Settled w
  counted : w.input.count = w.input.delivered.length
  within : w.input.count ≤ w.limit
  front : w.input.delivered <+: start
  accepted : w.output.accepted <+: w.output.forwarded
  forwarded_le : w.output.forwarded.length ≤ w.output.maximum
  count_le : w.output.count ≤ w.output.forwarded.length
  input_maximum : w.input.maximum = limits.max_input_bytes
  output_maximum : w.output.maximum = limits.max_output_bytes

/-- What holds between two calls. Up to the first fault nothing is lost, and all that went through
is accepted and counted. -/
structure Sound (limits : CryptoLimits) (start : Bytes) (w : World) :
    Prop extends Bounded limits start w where
  nothing_lost : w.budget.failure = none → start = w.input.delivered ++ w.input.stream
  all_accepted : w.budget.failure = none → w.output.forwarded = w.output.accepted
  all_counted : w.budget.failure = none → w.output.count = w.output.forwarded.length

/-- How a call may stop: it does not come back, or it fails with a fault that is latched. -/
def Stopped (limits : CryptoLimits) (start : Bytes) (h : Halt ε) (w : World) : Prop :=
  (h = .blocked ∧ Bounded limits start w) ∨
    ((∃ e, h = .err e) ∧ w.budget.failure ≠ none ∧ Sound limits start w)

def Fine (limits : CryptoLimits) (start : Bytes) (w : World) : Prop :=
    w.budget.failure = none ∧ Sound limits start w

section
variable {limits : CryptoLimits} {start : Bytes} {w₀ : World}

theorem Bounded.faulty (h : Bounded limits start w) (hfault : w.budget.failure ≠ none) :
    Sound limits start w :=
  ⟨h, fun hnone => absurd hnone hfault, fun hnone => absurd hnone hfault,
    fun hnone => absurd hnone hfault⟩

theorem Sound.gone (h : Sound limits start w₀) {lost : Bytes}
    (hsettled : Settled w) (hgone : Gone w₀ lost w) : Bounded limits start w := by
  obtain ⟨hkept, hstream⟩ := hgone
  refine ⟨hsettled, ?_, ?_, ?_, ?_, ?_, ?_, hkept.maximum.trans h.input_maximum, ?_⟩
  · rw [hkept.count, hkept.delivered, h.counted]
  · rw [hkept.count, hkept.limit]
    exact h.within
  · rw [hkept.delivered]
    exact h.front
  · rw [hkept.output]
    exact h.accepted
  · rw [hkept.output]
    exact h.forwarded_le
  · rw [hkept.output]
    exact h.count_le
  · rw [hkept.output]
    exact h.output_maximum

theorem Delivered.fine {capacity : Nat} {bytes : Bytes} (hd : Delivered w₀ capacity bytes w)
    (h : Sound limits start w₀) (hnone : w₀.budget.failure = none) : Fine limits start w := by
  have hlimit : w.limit = w₀.limit := by simp [World.limit, hd.header, hd.maximum]
  have hstart : start = w.input.delivered ++ w.input.stream := by
    rw [hd.delivered, List.append_assoc, ← hd.stream]
    exact h.nothing_lost hnone
  refine ⟨hd.clean, ⟨hd.settled, ?_, ?_, ⟨_, hstart.symm⟩, ?_, ?_, ?_,
    hd.maximum.trans h.input_maximum, ?_⟩, fun _ => hstart, ?_, ?_⟩
  · rw [hd.count, hd.delivered, List.length_append, h.counted]
  · have hroom := hd.room
    have hwithin := h.within
    rw [hd.count, hlimit]
    omega
  · rw [hd.output]
    exact h.accepted
  · rw [hd.output]
    exact h.forwarded_le
  · rw [hd.output]
    exact h.count_le
  · rw [hd.output]
    exact h.output_maximum
  · rw [hd.output]
    exact fun _ => h.all_accepted hnone
  · rw [hd.output]
    exact fun _ => h.all_counted hnone

/-- The state after a look at the clock. -/
def looked (w : World) : World := Budget.set_budget Budget.look w

theorem looked_latched {fault : Fault} (h : w.budget.failure = some fault) :
    (looked w).budget.failure = some fault := look_latched h

theorem Sound.look (h : Sound limits start w) : Sound limits start (looked w) := by
  obtain ⟨hlook, hnone, hheader⟩ := settled_look h.settled
  have hlimit : (looked w).limit = w.limit := by
    have hlooked : (looked w).budget.header_maximum = w.budget.header_maximum := hheader
    unfold World.limit
    rw [hlooked]
    rfl
  have hbounded : Bounded limits start (looked w) :=
    ⟨hlook, h.counted, hlimit ▸ h.within, h.front, h.accepted, h.forwarded_le, h.count_le,
      h.input_maximum, h.output_maximum⟩
  exact ⟨hbounded, fun hlater => h.nothing_lost (hnone hlater),
    fun hlater => h.all_accepted (hnone hlater), fun hlater => h.all_counted (hnone hlater)⟩

/-- A call that fails at once. -/
theorem Sound.stopped (h : Sound limits start w) {fault : Fault}
    (hfault : w.budget.failure = some fault) (e : ε) :
    Stopped limits start (.err e) (looked w) :=
  .inr ⟨⟨e, rfl⟩, by simp [looked_latched hfault], h.look⟩

theorem read_sound {K : World → Prop} (capacity : Nat) :
    Triple (fun w => Sound limits start w ∧ (w.budget.failure = none → K w)) (read capacity)
      (fun bytes w => Fine limits start w ∧ ∃ w₀, K w₀ ∧ Delivered w₀ capacity bytes w)
      (Stopped limits start) := by
  rintro w ⟨hw, hk⟩
  cases hfault : w.budget.failure with
  | some fault =>
    rw [(calls_latched hfault capacity []).1]
    exact hw.stopped hfault _
  | none =>
    refine (read_spec hw.settled hw.within capacity).conseq (fun _ => id)
      (fun bytes _ hd => ⟨hd.fine hw hfault, w, hk hfault, hd⟩) (fun h w' hstop => ?_) w rfl
    rcases hstop with ⟨hblocked, hclean⟩ | ⟨herr, hfailed, hsettled, lost, hgone⟩
    · exact .inl ⟨hblocked, hw.gone hclean.2.1 hclean.2.2⟩
    · exact .inr ⟨herr, hfailed, (hw.gone hsettled hgone).faulty hfailed⟩

theorem Sound.partly (h : Sound limits start w₀) (hnone : w₀.budget.failure = none)
    (hsettled : Settled w)
    (hpartly : Partly w₀ w) : Bounded limits start w := by
  obtain ⟨⟨part, ahead⟩, hroom, hstill, hforwarded, hcount⟩ := hpartly
  have hlimit : w.limit = w₀.limit := by simp [World.limit, hstill.header, hstill.input]
  have hle := h.forwarded_le
  have hall := h.all_counted hnone
  refine ⟨hsettled, ?_, ?_, ?_, ?_, ?_, ?_, ?_, hstill.maximum.trans h.output_maximum⟩
  · rw [hstill.input]
    exact h.counted
  · rw [hlimit, hstill.input]
    exact h.within
  · rw [hstill.input]
    exact h.front
  · rw [hstill.accepted, hforwarded]
    exact h.accepted.trans (List.prefix_append _ _)
  · rw [hforwarded, List.length_append, hstill.maximum]
    omega
  · rw [hforwarded, List.length_append]
    omega
  · rw [hstill.input]
    exact h.input_maximum

theorem Sound.unwritten {h : Halt IoError} (hs : Sound limits start w₀)
    (hnone : w₀.budget.failure = none)
    (hstop : Unwritten w₀ h w) : Stopped limits start h w := by
  rcases hstop with ⟨hblocked, hclean⟩ | ⟨herr, hfailed, hsettled, hpartly⟩
  · exact .inl ⟨hblocked, hs.partly hnone hclean.2.1 hclean.2.2⟩
  · exact .inr ⟨herr, hfailed, (hs.partly hnone hsettled hpartly).faulty hfailed⟩

theorem Written.fine {buffer : Bytes} {count : Nat} (hw : Written w₀ buffer count w)
    (h : Sound limits start w₀) (hnone : w₀.budget.failure = none) : Fine limits start w := by
  have hlimit : w.limit = w₀.limit := by simp [World.limit, hw.header, hw.input]
  have hle := h.forwarded_le
  have hall := h.all_counted hnone
  have hroom := hw.room
  have hsame : w.output.forwarded = w.output.accepted := by
    rw [hw.forwarded, hw.accepted, h.all_accepted hnone]
  have hcounted : w.output.count = w.output.forwarded.length := by
    rw [hw.counted, hw.forwarded, List.length_append, hall]
  refine ⟨hw.clean, ⟨hw.settled, ?_, ?_, ?_, ?_, ?_, ?_, ?_, hw.maximum.trans h.output_maximum⟩, ?_,
    fun _ => hsame, fun _ => hcounted⟩
  · rw [hw.input]
    exact h.counted
  · rw [hlimit, hw.input]
    exact h.within
  · rw [hw.input]
    exact h.front
  · simp [hsame]
  · rw [hw.forwarded, List.length_append, hw.maximum]
    omega
  · exact Nat.le_of_eq hcounted
  · rw [hw.input]
    exact h.input_maximum
  · rw [hw.input]
    exact fun _ => h.nothing_lost hnone

/-- A fact about what was read and taken, which no call that writes has a part in. -/
def Reading (K : World → Prop) : Prop :=
  ∀ w w' : World, w'.input = w.input → w'.taken = w.taken → K w → K w'

theorem Reading.steady {K : World → Prop} (hK : Reading K) : Steady K :=
  fun _ _ _ => hK _ _ rfl rfl

section
variable {K : World → Prop} (hK : Reading K)
include hK

theorem write_sound (buffer : Bytes) :
    Triple (fun w => Sound limits start w ∧ (w.budget.failure = none → K w)) (write buffer)
      (fun count w => count = buffer.length ∧ Fine limits start w ∧ K w)
      (Stopped limits start) := by
  rintro w ⟨hw, hk⟩
  cases hfault : w.budget.failure with
  | some fault =>
    rw [(calls_latched hfault 0 buffer).2.1]
    exact hw.stopped hfault _
  | none =>
    refine (write_spec hw.settled (Nat.le_trans hw.count_le hw.forwarded_le) buffer).conseq
      (fun _ => id) (fun _ _ hwritten => ?_) (fun _ _ => hw.unwritten hfault) w rfl
    exact ⟨hwritten.all, hwritten.fine hw hfault, hK _ _ hwritten.input hwritten.taken (hk hfault)⟩

theorem flush_sound :
    Triple (fun w => Sound limits start w ∧ (w.budget.failure = none → K w)) flush
      (fun _ w => Fine limits start w ∧ K w) (Stopped limits start) := by
  rintro w ⟨hw, hk⟩
  cases hfault : w.budget.failure with
  | some fault =>
    rw [(calls_latched hfault 0 []).2.2]
    exact hw.stopped hfault _
  | none =>
    refine (flush_spec hw.settled).conseq (fun _ => id) (fun _ w' hclean => ?_)
      (fun _ _ => hw.unwritten hfault) w rfl
    obtain ⟨hclean, hsettled, hsent⟩ := hclean
    have hbounded := hw.partly hfault hsettled (partly_nil hsent)
    obtain ⟨hstill, hforwarded, hcount⟩ := hsent
    rw [List.append_nil] at hforwarded
    refine ⟨⟨hclean, hbounded, fun _ => ?_, fun _ => ?_, fun _ => ?_⟩,
      hK _ _ hstill.input hstill.taken (hk hfault)⟩
    · rw [hstill.input]
      exact hw.nothing_lost hfault
    · rw [hforwarded, hstill.accepted]
      exact hw.all_accepted hfault
    · rw [hforwarded, ← hw.all_counted hfault]
      simpa using hcount

end

end

end openwrt_mcp_crypto_age
