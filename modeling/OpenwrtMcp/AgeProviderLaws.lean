-- The laws of the two providers of `crypto-age`, for any library: whatever calls it makes and
-- whatever errors it swallows, a provider ends well only when no fault was met.
import OpenwrtMcp.AgeStreamLaws

open programs openwrt_mcp_runtime.protection

namespace openwrt_mcp_crypto_age

variable {limits : CryptoLimits} {start : Bytes} {α ε : Type} {w : World}

/-- Up to the first fault the fact holds. -/
def Quiet (limits : CryptoLimits) (start : Bytes) (K : World → Prop) (w : World) : Prop :=
  Sound limits start w ∧ (w.budget.failure = none → K w)

/-- No fault so far, and the fact holds. -/
def Calm (limits : CryptoLimits) (start : Bytes) (K : World → Prop) (w : World) : Prop :=
  Fine limits start w ∧ K w

theorem Calm.quiet {K : World → Prop} (h : Calm limits start K w) : Quiet limits start K w :=
  ⟨h.1.2, fun _ => h.2⟩

/-! ## Calls of the library -/

/-- A call that is fine keeps the fact, and any other fails with a fault. -/
def Keeps (limits : CryptoLimits) (start : Bytes) (K : World → Prop) (c : Call) : Prop :=
  Triple (Quiet limits start K) c.run (fun _ => Calm limits start K) (Stopped limits start)

theorem keeps_of_writes {K : World → Prop} (hK : Reading K) {c : Call} (h : c.Writes) :
    Keeps limits start K c := by
  cases c with
  | read capacity => exact h.elim
  | write buffer =>
    exact (write_sound hK buffer).conseq (fun _ => id) (fun _ _ h => h.2) fun _ _ => id
  | flush => exact flush_sound hK

theorem keeps_nothing (c : Call) : Keeps limits start (fun _ => True) c := by
  cases c with
  | read capacity =>
    exact (read_sound capacity).conseq (fun _ => id) (fun _ _ h => ⟨h.1, trivial⟩) fun _ _ => id
  | write buffer => exact keeps_of_writes (fun _ _ _ _ => id) trivial
  | flush => exact keeps_of_writes (fun _ _ _ _ => id) trivial

/-- A program that does not come back. -/
def Waits (limits : CryptoLimits) (start : Bytes) (h : Halt ε) (w : World) : Prop :=
  h = .blocked ∧ Bounded limits start w

/-- The library may go on after an error, but then there is a fault. -/
theorem result_of_keeps {K : World → Prop} {c : Call} (h : Keeps limits start K c) :
    Triple (Quiet limits start K) (result_of c.run : Run ε (Except IoError c.Given))
      (fun _ => Quiet limits start K) (Waits limits start) := by
  intro w hw
  have hrun := h w hw
  unfold result_of
  cases hr : c.run w with
  | mk r w' =>
    rw [hr] at hrun
    cases r with
    | ok a => exact Calm.quiet hrun
    | error halt =>
      rcases hrun with ⟨rfl, hbounded⟩ | ⟨⟨e, rfl⟩, hfailed, hsound⟩
      · exact ⟨rfl, hbounded⟩
      · exact ⟨hsound, fun hnone => absurd hnone hfailed⟩

/-- The values that calls end with. -/
inductive Calls.Ends {Has : Call → Prop} (P : α → Prop) : Calls Has α → Prop
  | done {a : α} : P a → Calls.Ends P (.done a)
  | call {c : Call} {has : Has c} {next : Except IoError c.Given → Calls Has α} :
      (∀ result, Calls.Ends P (next result)) → Calls.Ends P (.call c has next)

theorem ends_any {Has : Call → Prop} (calls : Calls Has (Except Unit α)) :
    calls.Ends fun result => ∀ a, result = .ok a → True := by
  induction calls with
  | done a => exact .done fun _ _ => trivial
  | call c has next ih => exact .call ih

theorem calls_keep {Has : Call → Prop} {K : World → Prop}
    (hK : ∀ c, Has c → Keeps limits start K c) {P : α → Prop} {calls : Calls Has α}
    (hcalls : calls.Ends P) :
    Triple (Quiet limits start K) (calls.run : Run ε α) (fun a w => P a ∧ Quiet limits start K w)
      (Waits limits start) := by
  induction hcalls with
  | done ha => exact Triple.pure fun _ hw => ⟨ha, hw⟩
  | @call c has next _ ih => exact Triple.bind (result_of_keeps (hK c has)) ih

/-! ## How a provider stops -/

section
variable {excess : Prop}

/-- Without a value: the caller's streams do not come back, the library gave more than it was asked
for, or there is an error. -/
def Broken (limits : CryptoLimits) (start : Bytes) (excess : Prop) (h : Halt ε) (w : World) :
    Prop :=
  Waits limits start h w ∨ (h = .panicked ∧ excess ∧ Sound limits start w) ∨
    ((∃ e, h = .err e) ∧ Sound limits start w)

/-- Likewise, and the error is that of the first fault. -/
def Reported (limits : CryptoLimits) (start : Bytes) (excess : Prop) (h : Halt ProtectionError)
    (w : World) : Prop :=
  Waits limits start h w ∨ (h = .panicked ∧ excess ∧ Sound limits start w) ∨
    ∃ e, h = .err e ∧ Sound limits start w ∧
      ∀ fallback, w.budget.failure ≠ none → e = w.budget.error fallback

theorem Stopped.broken {h : Halt ε} (hstop : Stopped limits start h w) :
    Broken limits start excess h w := by
  rcases hstop with hwaits | ⟨herr, -, hsound⟩
  · exact .inl hwaits
  · exact .inr (.inr ⟨herr, hsound⟩)

theorem error_eq (hfailed : w.budget.failure ≠ none) (fallback fallback' : ProtectionError) :
    w.budget.error fallback = w.budget.error fallback' := by
  cases hfault : w.budget.failure with
  | none => exact absurd hfault hfailed
  | some fault => exact error_latched hfault fallback fallback'

theorem map_err_reported {P : World → Prop} {x : Run ε α} {Q : α → World → Prop}
    (hx : Triple P x Q (Broken limits start excess)) (fallback : ProtectionError) :
    Triple P (map_err (fun w _ => w.budget.error fallback) x) Q
      (Reported limits start excess) := by
  intro w hw
  have h := hx w hw
  unfold map_err
  cases hr : x w with
  | mk r w' =>
    rw [hr] at h
    cases r with
    | ok a => exact h
    | error halt =>
      rcases h with ⟨rfl, hbounded⟩ | ⟨rfl, hexcess⟩ | ⟨⟨e, rfl⟩, hsound⟩
      · exact .inl ⟨rfl, hbounded⟩
      · exact .inr (.inl ⟨rfl, hexcess⟩)
      · exact .inr (.inr ⟨_, rfl, hsound, fun fallback' hfailed => error_eq hfailed _ _⟩)

theorem check_some {fault : Fault} (h : (looked w).budget.failure = some fault) :
    Budget.check w = (.error (.err ((looked w).budget.error .StreamFailed)), looked w) := by
  unfold looked at h
  simp [Budget.check, looked, h]

theorem check_none (h : (looked w).budget.failure = none) :
    Budget.check w = (.ok (), looked w) := by
  unfold looked at h
  simp [Budget.check, looked, h]

theorem check_keeps {K : World → Prop} (hK : Steady K) :
    Triple (Quiet limits start K) Budget.check (fun _ => Calm limits start K)
      (Reported limits start excess) := by
  rintro w ⟨hsound, hk⟩
  have hlooked := hsound.look
  cases hfailure : (looked w).budget.failure with
  | some fault =>
    rw [check_some hfailure]
    exact .inr (.inr ⟨_, rfl, hlooked, fun _ hfailed => error_eq hfailed _ _⟩)
  | none =>
    obtain ⟨-, hnone, hheader⟩ := settled_look hsound.settled
    rw [check_none hfailure]
    exact ⟨⟨hfailure, hlooked⟩, hK w _ hheader (hk (hnone hfailure))⟩

/-- A provider that fails before it met any fault. -/
theorem fail_calm {K : World → Prop} (e : ProtectionError) {Q : α → World → Prop} :
    Triple (Calm limits start K) (fail_with e) Q (Reported limits start excess) :=
  Triple.stop fun _ h => .inr (.inr ⟨e, rfl, h.1.2, fun _ hfailed => absurd h.1.1 hfailed⟩)

theorem outcome_keeps {D : World → Prop} (hD : ∀ w, D w → Sound limits start w) {P : α → Prop}
    {result : Except ε α} (h : ∀ a, result = .ok a → P a) :
    Triple D (outcome result) (fun a w => P a ∧ D w) (Broken limits start excess) := by
  cases result with
  | ok a => exact Triple.pure fun w hw => ⟨h a rfl, hw⟩
  | error e => exact Triple.stop fun w hw => .inr (.inr ⟨⟨e, rfl⟩, hD w hw⟩)

theorem library_keeps {Has : Call → Prop} {K : World → Prop}
    (hK : ∀ c, Has c → Keeps limits start K c) {P : α → Prop}
    {calls : Calls Has (Except Unit α)}
    (hcalls : calls.Ends fun result => ∀ a, result = .ok a → P a) :
    Triple (Quiet limits start K) (library calls) (fun a w => P a ∧ Quiet limits start K w)
      (Broken limits start excess) := by
  refine Triple.bind ((calls_keep hK hcalls).conseq (fun _ => id) (fun _ _ => id) fun _ _ => .inl)
    fun result => Triple.of_and fun hresult => ?_
  exact outcome_keeps (fun _ h => h.1) hresult

/-! ## The parts of a provider -/

theorem native_lines_keep {L : Type} {K : World → Prop} (hK : Steady K) (maximum : Nat)
    (lines : List (Line L)) (keys : List L) :
    Triple (Calm limits start K) (native_lines maximum lines keys) (fun _ => Calm limits start K)
      (Reported limits start excess) := by
  have hcheck : Triple (Calm limits start K) Budget.check (fun _ => Calm limits start K)
      (Reported limits start excess) :=
    (check_keeps hK).conseq (fun _ => Calm.quiet) (fun _ _ => id) fun _ _ => id
  induction lines generalizing keys with
  | nil =>
    unfold native_lines
    split
    · exact fail_calm _
    · exact Triple.bind hcheck fun _ => Triple.pure fun _ => id
  | cons line rest ih =>
    refine Triple.bind hcheck fun _ => ?_
    split
    · exact fail_calm _
    split
    · exact fail_calm _
    split
    · exact fail_calm _
    · exact ih _

theorem native_keys_keep {L : Type} {K : World → Prop} (hK : Steady K)
    (document : Option (List (Line L))) (maximum : Nat) :
    Triple (Calm limits start K) (native_keys document maximum) (fun _ => Calm limits start K)
      (Reported limits start excess) := by
  cases document with
  | none => exact fail_calm _
  | some lines => exact native_lines_keep hK maximum lines []

theorem copy_keeps {ε' R W : Type} {read : R → Run ε (Bytes × R)} {write_all : W → Bytes → Run ε' W}
    {I : World → Prop} {J : Bytes → World → Prop} (hI : Steady I) (hJ : ∀ bytes, Steady (J bytes))
    (hend : ∀ w, J [] w → I w)
    (hread : ∀ input, Triple (Quiet limits start I) (read input)
      (fun result w => (result.1.length ≤ COPY_BYTES ∨ excess) ∧ Quiet limits start (J result.1) w)
      (Broken limits start excess))
    (hwrite : ∀ output bytes, Triple (Quiet limits start (J bytes)) (write_all output bytes)
      (fun _ => Quiet limits start I) (Broken limits start excess))
    (fallback : ProtectionError) (turns : Nat) (input : R) (output : W) :
    Triple (Quiet limits start I) (copy read write_all fallback turns input output)
      (fun _ => Calm limits start I) (Reported limits start excess) := by
  induction turns generalizing input output with
  | zero => exact Triple.stop fun w h => .inl ⟨rfl, h.1.toBounded⟩
  | succ turns ih =>
    refine Triple.bind (check_keeps hI) fun _ => ?_
    refine Triple.bind ((map_err_reported (hread input) fallback).conseq (fun _ => Calm.quiet)
      (fun _ _ => id) fun _ _ => id) fun result => Triple.of_and fun hcount => ?_
    refine Triple.bind (check_keeps (hJ result.1)) fun _ => ?_
    show Triple _
      (if result.1.length = 0 then _ else if result.1.length > COPY_BYTES then _ else _) _ _
    split
    · rename_i hzero
      rw [List.length_eq_zero_iff.1 hzero]
      exact Triple.pure fun w h => ⟨h.1, hend w h.2⟩
    split
    · rename_i hlong
      have hexcess : excess := hcount.resolve_left (Nat.not_le.2 hlong)
      exact Triple.stop fun w h => .inr (.inl ⟨rfl, hexcess, h.1.2⟩)
    · exact Triple.bind ((map_err_reported (hwrite output result.1) fallback).conseq
        (fun _ => Calm.quiet) (fun _ _ => id) fun _ _ => id) fun output => ih result.2 output

theorem write_all_keeps {K : World → Prop} (hK : Reading K) (turns : Nat) (buffer : Bytes) :
    Triple (Quiet limits start K) (write_all turns buffer) (fun _ => Quiet limits start K)
      (Broken limits start excess) := by
  have hfail : Triple (Quiet limits start K)
      (fail_with .protected_stream_failed : Run IoError Unit) (fun _ => Quiet limits start K)
      (Broken limits start excess) := Triple.stop fun w h => .inr (.inr ⟨⟨_, rfl⟩, h.1⟩)
  induction turns generalizing buffer with
  | zero =>
    unfold write_all
    split
    · exact Triple.pure fun _ => id
    · exact hfail
  | succ turns ih =>
    unfold write_all
    split
    · exact Triple.pure fun _ => id
    refine Triple.bind
      ((write_sound hK buffer).conseq (fun _ => id) (fun _ _ h => ⟨h.1, Calm.quiet h.2⟩)
      fun _ _ => Stopped.broken) fun count => Triple.of_and fun hcount => ?_
    split
    · exact hfail
    split
    · rename_i hlong
      exact absurd hlong (Nat.not_lt.2 (Nat.le_of_eq hcount))
    · exact ih _

end

/-- Only what is taken and the limit of a header are others, and the limit in force is no smaller
than what was read. -/
theorem Sound.of_eq {w' : World} (h : Sound limits start w)
    (hfailure : w'.budget.failure = w.budget.failure) (hfaults : w'.budget.faults = w.budget.faults)
    (hinput : w'.input = w.input) (houtput : w'.output = w.output)
    (hlimit : w.input.count ≤ w'.limit) : Sound limits start w' := by
  have hbounded : Bounded limits start w' := by
    refine ⟨?_, ?_, ?_, ?_, ?_, ?_, ?_, ?_, ?_⟩
    · rw [Settled, hfailure, hfaults]
      exact h.settled
    · rw [hinput]
      exact h.counted
    · rw [hinput]
      exact hlimit
    · rw [hinput]
      exact h.front
    · rw [houtput]
      exact h.accepted
    · rw [houtput]
      exact h.forwarded_le
    · rw [houtput]
      exact h.count_le
    · rw [hinput]
      exact h.input_maximum
    · rw [houtput]
      exact h.output_maximum
  refine ⟨hbounded, ?_, ?_, ?_⟩
  · rw [hfailure, hinput]
    exact h.nothing_lost
  · rw [hfailure, houtput]
    exact h.all_accepted
  · rw [hfailure, houtput]
    exact h.all_counted

/-! ## Encryption -/

theorem fine_new (limits : CryptoLimits) (w : World) :
    Fine limits w.input.stream (new_streams limits w) :=
  ⟨rfl, ⟨rfl, rfl, Nat.zero_le _, List.nil_prefix, List.prefix_rfl, Nat.zero_le _,
    Nat.zero_le _, rfl,
    rfl⟩, fun _ => rfl, fun _ => rfl, fun _ => rfl⟩

/-- All that was read is taken. -/
def Taken (w : World) : Prop := w.taken = w.input.delivered

/-- All that was read is taken, but for the last bytes. -/
def Offered (bytes : Bytes) (w : World) : Prop := w.input.delivered = w.taken ++ bytes

theorem reading_taken : Reading Taken := by
  intro w w' hinput htaken h
  unfold Taken
  rw [htaken, hinput]
  exact h

theorem reading_offered (bytes : Bytes) : Reading (Offered bytes) := by
  intro w w' hinput htaken h
  unfold Offered
  rw [htaken, hinput]
  exact h

theorem read_offers (capacity : Nat) :
    Triple (Quiet limits start Taken) (read capacity)
      (fun bytes w => bytes.length ≤ capacity ∧ Quiet limits start (Offered bytes) w)
      (Stopped limits start) := by
  refine (read_sound capacity).conseq (fun _ => id) (fun bytes w => ?_) fun _ _ => id
  rintro ⟨hfine, w₀, htaken, hd⟩
  refine ⟨hd.fits, hfine.2, fun _ => ?_⟩
  unfold Offered
  rw [hd.delivered, hd.taken, htaken]

theorem taken_of_offered (h : Offered [] w) : Taken w := by
  unfold Offered at h
  unfold Taken
  rw [h, List.append_nil]

theorem read_input_offers (input : Unit) :
    Triple (Quiet limits start Taken) (read_input input)
      (fun result w => (result.1.length ≤ COPY_BYTES ∨ False) ∧
        Quiet limits start (Offered result.1) w) (Broken limits start False) :=
  Triple.bind ((read_offers COPY_BYTES).conseq (fun _ => id) (fun _ _ => id)
    fun _ _ => Stopped.broken) fun _ => Triple.pure fun _ h => ⟨.inl h.1, h.2⟩

theorem feed_takes (age : Age) (writer : age.Writer) (bytes : Bytes) :
    Triple (Quiet limits start (Offered bytes)) (feed age writer bytes)
      (fun _ => Quiet limits start Taken) (Broken limits start False) := by
  refine Triple.bind (library_keeps (fun _ => keeps_of_writes (reading_offered bytes)) (ends_any _))
    fun writer => Triple.modify_bind (M := Quiet limits start Taken) ?_ (Triple.pure fun _ => id)
  rintro w ⟨-, hsound, hoffered⟩
  exact ⟨hsound.of_eq rfl rfl rfl rfl hsound.within, fun hnone => (hoffered hnone).symm⟩

theorem encrypt_keeps (age : Age) (document : Option (List (Line age.Key))) (turns : Nat)
    (hlimits : limits.validate = .ok ()) :
    Triple (fun w => w.input.stream = start) (encrypt age document limits turns)
      (fun r w => Calm limits start Taken w ∧ r = ⟨w.input.count, w.output.count⟩)
      (Reported limits start False) := by
  have hwrites : ∀ c, c.Writes → Keeps limits start Taken c := fun _ =>
    keeps_of_writes reading_taken
  have hcheck : Triple (Quiet limits start Taken) Budget.check (fun _ => Calm limits start Taken)
      (Reported limits start False) := check_keeps reading_taken.steady
  unfold encrypt
  rw [hlimits]
  refine Triple.modify_bind (M := Calm limits start Taken) ?_ ?_
  · rintro w rfl
    exact ⟨fine_new limits w, rfl⟩
  refine Triple.bind (native_keys_keep reading_taken.steady document _) fun recipients => ?_
  refine Triple.bind
    ((map_err_reported (outcome_keeps (fun _ h => h.1.2) fun _ _ => trivial) _).conseq
    (fun _ => id) (fun _ _ h => Calm.quiet h.2) fun _ _ => id) fun encryptor => ?_
  refine Triple.bind hcheck fun _ => ?_
  refine Triple.bind ((map_err_reported (library_keeps hwrites (ends_any _)) _).conseq
    (fun _ => Calm.quiet) (fun _ _ h => h.2) fun _ _ => id) fun writer => ?_
  refine Triple.bind (copy_keeps reading_taken.steady (fun bytes => (reading_offered bytes).steady)
    (fun _ => taken_of_offered) read_input_offers (feed_takes age) _ _ _ _) fun result => ?_
  refine Triple.bind ((map_err_reported (library_keeps hwrites (ends_any _)) _).conseq
    (fun _ => Calm.quiet) (fun _ _ h => h.2) fun _ _ => id) fun _ => ?_
  refine Triple.bind ((map_err_reported ((flush_sound reading_taken).conseq (fun _ => id)
    (fun _ _ => Calm.quiet) fun _ _ => Stopped.broken) _)) fun _ => ?_
  refine Triple.bind hcheck fun _ => ?_
  exact Triple.get_bind fun w hw => Triple.pure fun _ heq => by rw [heq]; exact ⟨hw, rfl⟩

/-! ## Decryption -/

/-- The library gives no more than it is asked for. -/
def Age.WithinBuffer (age : Age) : Prop :=
  ∀ reader capacity, (age.read reader capacity).Ends fun result =>
    ∀ a, result = .ok a → a.1.length ≤ capacity

def Unread (w : World) : Prop := w.input.count = 0

/-- Nothing is known but that the state is sound. -/
def Anything (_ : World) : Prop := True

theorem reading_unread : Reading Unread := by
  intro w w' hinput _ h
  unfold Unread
  rw [hinput]
  exact h

theorem reading_anything : Reading Anything := fun _ _ _ _ => id

theorem begin_header_keeps (maximum : Nat) {w : World} (h : Sound limits start w)
    (hunread : Unread w) :
    Sound limits start
      (Budget.set_budget (fun b => { b with header_maximum := some maximum }) w) :=
  h.of_eq rfl rfl rfl rfl (by simp [show w.input.count = 0 from hunread])

/-- Without a limit for the header, the limit in force is the one of the configuration. -/
theorem finish_header_keeps {w : World} (h : Sound limits start w) :
    Sound limits start (Budget.set_budget (fun b => { b with header_maximum := none }) w) := by
  refine h.of_eq rfl rfl rfl rfl (Nat.le_trans h.within ?_)
  show w.limit ≤ w.input.maximum
  unfold World.limit
  split
  · exact Nat.min_le_right _ _
  · exact Nat.le_refl _

theorem age_read_keeps (age : Age) (reader : age.Reader) (capacity : Nat) :
    Triple (Quiet limits start Anything) (library (age.read reader capacity))
      (fun result w => (result.1.length ≤ capacity ∨ ¬ age.WithinBuffer) ∧
        Quiet limits start Anything w) (Broken limits start (¬ age.WithinBuffer)) := by
  have hkeeps : ∀ c, c.Reads → Keeps limits start Anything c := fun c _ => keeps_nothing c
  by_cases hwithin : age.WithinBuffer
  · exact (library_keeps hkeeps (hwithin reader capacity)).conseq (fun _ => id)
      (fun _ _ h => ⟨.inl h.1, h.2⟩) fun _ _ => id
  · exact (library_keeps hkeeps (ends_any _)).conseq (fun _ => id)
      (fun _ _ h => ⟨.inr hwithin, h.2⟩) fun _ _ => id

theorem decrypt_keeps (age : Age) (document : Option (List (Line age.Key))) (turns : Nat)
    (hlimits : limits.validate = .ok ()) :
    Triple (fun w => w.input.stream = start) (decrypt_to_staging age document limits turns)
      (fun r w => Fine limits start w ∧ r = ⟨w.input.count, w.output.count⟩)
      (Reported limits start (¬ age.WithinBuffer)) := by
  have hreads : ∀ c, c.Reads → Keeps limits start Anything c := fun c _ => keeps_nothing c
  have hcheck : Triple (Quiet limits start Anything) Budget.check
      (fun _ => Calm limits start Anything) (Reported limits start (¬ age.WithinBuffer)) :=
    check_keeps reading_anything.steady
  unfold decrypt_to_staging
  rw [hlimits]
  refine Triple.modify_bind (M := Calm limits start Unread) ?_ ?_
  · rintro w rfl
    exact ⟨fine_new limits w, rfl⟩
  refine Triple.bind (native_keys_keep reading_unread.steady document _) fun identities => ?_
  refine Triple.modify_bind (M := Quiet limits start Anything)
    (fun w h => ⟨begin_header_keeps _ h.1.2 h.2, fun _ => trivial⟩) ?_
  refine Triple.bind ((map_err_reported (library_keeps hreads (ends_any _)) _).conseq
    (fun _ => id) (fun _ _ h => h.2) fun _ _ => id) fun decryptor => ?_
  refine Triple.modify_bind (M := Quiet limits start Anything)
    (fun w h => ⟨finish_header_keeps h.1, fun _ => trivial⟩) ?_
  refine Triple.bind hcheck fun _ => ?_
  split
  · exact fail_calm _
  refine Triple.bind ((map_err_reported (library_keeps hreads (ends_any _)) _).conseq
    (fun _ => Calm.quiet) (fun _ _ h => h.2) fun _ _ => id) fun reader => ?_
  refine Triple.bind (copy_keeps (J := fun _ => Anything) reading_anything.steady
    (fun _ => reading_anything.steady) (fun _ => id) (fun reader => age_read_keeps age reader _)
    (fun _ bytes => write_all_keeps reading_anything _ bytes) _ _ _ _) fun _ => ?_
  refine Triple.bind ((map_err_reported ((flush_sound reading_anything).conseq (fun _ => Calm.quiet)
    (fun _ _ => Calm.quiet) fun _ _ => Stopped.broken) _)) fun _ => ?_
  refine Triple.bind hcheck fun _ => ?_
  exact Triple.get_bind fun w hw => Triple.pure fun _ heq => by rw [heq]; exact ⟨hw.1, rfl⟩

end openwrt_mcp_crypto_age
