-- One turn of the loop of the archive validator at each stage, and the law that
-- the split of the bytes into chunks does not change what the validator says.
import OpenwrtMcp.ArchiveStream

open text slices

namespace openwrt_mcp_device_codec.archive

/-- The validator after a call that did not fail. -/
def okState (r : ArchiveValidator × Except ArchiveError Unit) : Option ArchiveValidator :=
  match r.2 with
  | .ok () => some r.1
  | .error _ => none

/-- The validator after the loop has read `input`, when no turn fails. -/
def after (v : ArchiveValidator) (input : Bytes) : Option ArchiveValidator :=
  okState (feed_loop v input)

def AllZero (bs : Bytes) : Prop := ∀ b ∈ bs, b = 0

instance : DecidablePred AllZero := fun bs => inferInstanceAs (Decidable (∀ b ∈ bs, b = 0))

theorem any_nonzero_iff (bs : Bytes) : bs.any (· != 0) = true ↔ ¬ AllZero bs := by
  unfold AllZero
  simp

theorem allZero_append (a b : Bytes) : AllZero (a ++ b) ↔ AllZero a ∧ AllZero b := by
  unfold AllZero
  rw [List.forall_mem_append]

theorem allZero_iff (bs : Bytes) : AllZero bs ↔ bs = List.replicate bs.length 0 := by
  unfold AllZero
  exact List.eq_replicate_length.symm

@[simp] theorem after_nil (v : ArchiveValidator) : after v [] = some v := by
  unfold after feed_loop
  rfl

/-! ## The turns -/

section
variable {v : ArchiveValidator} (input : Bytes)

/-- The block is not full yet. -/
theorem after_header_short (hs : v.stage = .Header)
    (hlt : (v.header ++ input).length < BLOCK_BYTES) :
    after v input = some { v with header := v.header ++ input, header_lt := hlt } := by
  unfold after feed_loop
  rw [List.length_append] at hlt
  split
  · rename_i hnil
    subst hnil
    simp [okState]
  · have htake : min input.length (BLOCK_BYTES - v.header.length) = input.length := by omega
    rw [hs]
    simp only [htake, List.take_length, List.drop_length, List.length_append, hlt, dif_pos]
    unfold feed_loop
    rfl

/-- The block is full: `accept_header` decides. -/
theorem after_header_full (hs : v.stage = .Header)
    (hge : BLOCK_BYTES ≤ (v.header ++ input).length) :
    after v input =
      match accept_header v.expected.files v.seen
          (v.header ++ input.take (BLOCK_BYTES - v.header.length)) with
      | .error _ => none
      | .ok (seen, stage) =>
        after { v with seen := seen, stage := stage, header := [], header_lt := by decide }
          (input.drop (BLOCK_BYTES - v.header.length)) := by
  have hlt := v.header_lt
  rw [List.length_append] at hge
  have htake : min input.length (BLOCK_BYTES - v.header.length) =
      BLOCK_BYTES - v.header.length := by omega
  have hfull : ¬ (v.header ++ input.take (BLOCK_BYTES - v.header.length)).length < BLOCK_BYTES := by
    rw [List.length_append, List.length_take]
    omega
  conv_lhs => unfold after feed_loop
  rw [dif_neg (by rintro rfl; simp only [List.length_nil] at hge; omega), hs]
  simp only [htake]
  rw [dif_neg hfull]
  cases accept_header v.expected.files v.seen
      (v.header ++ input.take (BLOCK_BYTES - v.header.length)) with
  | error e => rfl
  | ok r => rfl

theorem after_body_short {remaining padding : Nat} {pos : 0 < remaining}
    (hs : v.stage = .Body remaining padding pos) (hlt : input.length < remaining) :
    after v input = some { v with
      stage := .Body (remaining - input.length) padding (Nat.sub_pos_of_lt hlt) } := by
  unfold after feed_loop
  split
  · rename_i hnil
    subst hnil
    simp [okState, ← hs]
  · have htake : min remaining input.length = input.length := by omega
    rw [hs]
    simp only [htake, List.drop_length]
    rw [dif_pos (Nat.sub_pos_of_lt hlt)]
    unfold feed_loop
    rfl

theorem after_body_full {remaining padding : Nat} {pos : 0 < remaining}
    (hs : v.stage = .Body remaining padding pos) (hge : remaining ≤ input.length) :
    after v input = after { v with stage := .after_body padding } (input.drop remaining) := by
  have htake : min remaining input.length = remaining := by omega
  conv_lhs => unfold after feed_loop
  rw [dif_neg (by rintro rfl; simp only [List.length_nil] at hge; omega), hs]
  simp only [htake, Nat.sub_self, lt_irrefl, dif_neg, not_false_eq_true]
  rfl

theorem after_padding_short {remaining : Nat} {pos : 0 < remaining}
    (hs : v.stage = .Padding remaining pos) (hlt : input.length < remaining) (hz : AllZero input) :
    after v input = some { v with
      stage := .Padding (remaining - input.length) (Nat.sub_pos_of_lt hlt) } := by
  unfold after feed_loop
  split
  · rename_i hnil
    subst hnil
    simp [okState, ← hs]
  · have htake : min remaining input.length = input.length := by omega
    rw [hs]
    simp only [htake, List.take_length, List.drop_length]
    rw [if_neg (by rw [any_nonzero_iff]; simpa using hz), dif_pos (Nat.sub_pos_of_lt hlt)]
    unfold feed_loop
    rfl

theorem after_padding_full {remaining : Nat} {pos : 0 < remaining}
    (hs : v.stage = .Padding remaining pos) (hge : remaining ≤ input.length)
    (hz : AllZero (input.take remaining)) :
    after v input = after { v with stage := .Header } (input.drop remaining) := by
  have htake : min remaining input.length = remaining := by omega
  conv_lhs => unfold after feed_loop
  rw [dif_neg (by rintro rfl; simp only [List.length_nil] at hge; omega), hs]
  simp only [htake, Nat.sub_self, lt_irrefl, dif_neg, not_false_eq_true]
  rw [if_neg (by rw [any_nonzero_iff]; simpa using hz)]
  rfl

theorem after_padding_bad {remaining : Nat} {pos : 0 < remaining}
    (hs : v.stage = .Padding remaining pos) (hz : ¬ AllZero (input.take remaining)) :
    after v input = none := by
  unfold after feed_loop
  rw [dif_neg (by rintro rfl; exact hz (by simp [AllZero])), hs]
  have htake : input.take (min remaining input.length) = input.take remaining := by
    rcases Nat.le_total remaining input.length with h | h
    · rw [Nat.min_eq_left h]
    · rw [Nat.min_eq_right h, List.take_length, List.take_of_length_le h]
  simp only [htake]
  rw [if_pos (by rw [any_nonzero_iff]; exact hz)]
  rfl

/-- The tail takes zero bytes up to its limit. -/
theorem after_tail {bytes : Nat} (hs : v.stage = .End bytes) (hne : input ≠ []) :
    after v input = if bytes + input.length ≤ MAX_TAIL_BYTES ∧ AllZero input then
      some { v with stage := .End (bytes + input.length) } else none := by
  unfold after feed_loop
  rw [dif_neg hne, hs]
  by_cases hle : bytes + input.length ≤ MAX_TAIL_BYTES
  · by_cases hz : AllZero input
    · rw [if_pos ⟨hle, hz⟩]
      dsimp only
      rw [if_pos hle, if_neg (by rw [any_nonzero_iff]; simpa using hz)]
      rfl
    · rw [if_neg (fun h => hz h.2)]
      dsimp only
      rw [if_pos hle, if_pos (by rw [any_nonzero_iff]; exact hz)]
      rfl
  · rw [if_neg (fun h => hle h.1)]
    dsimp only
    rw [if_neg hle]
    rfl

end

/-! ## Two parts of a chunk -/

/-- To feed `a` and then `b` is to feed `a ++ b`. -/
theorem after_append (v : ArchiveValidator) (a b : Bytes) :
    after v (a ++ b) = (after v a).bind fun v' => after v' b := by
  -- by strong induction on the length of `a`; each turn shortens it
  obtain ⟨n, hn⟩ : ∃ n, n = a.length := ⟨_, rfl⟩
  induction n using Nat.strongRecOn generalizing v a with
  | ind n ih =>
    by_cases hne : a = []
    · subst hne
      simp
    have hpos := List.length_pos_iff.mpr hne
    cases hs : v.stage with
    | Header =>
      have hlt := v.header_lt
      by_cases hshort : (v.header ++ a).length < BLOCK_BYTES
      · rw [after_header_short a hs hshort, Option.bind_some]
        by_cases hshort' : (v.header ++ (a ++ b)).length < BLOCK_BYTES
        · rw [after_header_short (a ++ b) hs hshort']
          rw [after_header_short (v := { v with header := v.header ++ a, header_lt := hshort })
            b hs (by simpa using hshort')]
          simp
        · have hlen : a.length ≤ BLOCK_BYTES - v.header.length := by
            rw [List.length_append] at hshort
            omega
          rw [after_header_full (a ++ b) hs (by omega)]
          rw [after_header_full (v := { v with header := v.header ++ a, header_lt := hshort })
            b hs (by simpa using Nat.le_of_not_lt hshort')]
          simp only [List.take_append, List.drop_append, List.take_of_length_le hlen,
            List.drop_of_length_le hlen, List.nil_append, List.append_assoc, List.length_append,
            Nat.sub_sub]
      · have hlen : BLOCK_BYTES - v.header.length ≤ a.length := by
          rw [List.length_append] at hshort
          omega
        rw [after_header_full a hs (by omega), after_header_full (a ++ b) hs
          (by simp only [List.length_append] at hshort ⊢; omega)]
        rw [List.take_append_of_le_length hlen, List.drop_append_of_le_length hlen]
        cases accept_header v.expected.files v.seen
            (v.header ++ a.take (BLOCK_BYTES - v.header.length)) with
        | error e => rfl
        | ok r =>
          exact ih _ (by rw [List.length_drop]; omega) _ _ rfl
    | Body remaining padding pos =>
      by_cases hshort : a.length < remaining
      · rw [after_body_short a hs hshort, Option.bind_some]
        by_cases hshort' : (a ++ b).length < remaining
        · rw [after_body_short (a ++ b) hs hshort']
          rw [after_body_short (v := { v with stage := .Body (remaining - a.length) padding _ })
            b rfl (by rw [List.length_append] at hshort'; omega)]
          simp [Nat.sub_sub]
        · rw [List.length_append] at hshort'
          rw [after_body_full (a ++ b) hs (by rw [List.length_append]; omega)]
          rw [after_body_full (v := { v with stage := .Body (remaining - a.length) padding _ })
            b rfl (by omega)]
          rw [List.drop_append, List.drop_of_length_le (Nat.le_of_lt hshort), List.nil_append]
      · rw [after_body_full a hs (by omega), after_body_full (a ++ b) hs
          (by rw [List.length_append]; omega), List.drop_append_of_le_length (by omega)]
        exact ih _ (by rw [List.length_drop]; omega) _ _ rfl
    | Padding remaining pos =>
      by_cases hshort : a.length < remaining
      · have htake : a.take remaining = a := List.take_of_length_le (by omega)
        have htake' : (a ++ b).take remaining = a ++ b.take (remaining - a.length) := by
          rw [List.take_append, htake]
        by_cases hz : AllZero a
        · rw [after_padding_short a hs hshort hz, Option.bind_some]
          by_cases hzb : AllZero (b.take (remaining - a.length))
          · by_cases hshort' : (a ++ b).length < remaining
            · have hb : b.take (remaining - a.length) = b :=
                List.take_of_length_le (by rw [List.length_append] at hshort'; omega)
              rw [hb] at hzb
              rw [after_padding_short (a ++ b) hs hshort' ((allZero_append a b).mpr ⟨hz, hzb⟩)]
              rw [after_padding_short (v := { v with stage := .Padding (remaining - a.length) _ })
                b rfl (by rw [List.length_append] at hshort'; omega) hzb]
              simp [Nat.sub_sub]
            · rw [List.length_append] at hshort'
              rw [after_padding_full (a ++ b) hs (by rw [List.length_append]; omega)
                (by rw [htake']; exact (allZero_append _ _).mpr ⟨hz, hzb⟩)]
              rw [after_padding_full (v := { v with stage := .Padding (remaining - a.length) _ })
                b rfl (by omega) hzb]
              rw [List.drop_append, List.drop_of_length_le (Nat.le_of_lt hshort), List.nil_append]
          · rw [after_padding_bad (a ++ b) hs
              (by rw [htake', allZero_append]; exact fun h => hzb h.2)]
            rw [after_padding_bad (v := { v with stage := .Padding (remaining - a.length) _ })
              b rfl hzb]
        · rw [after_padding_bad (a ++ b) hs (by rw [htake', allZero_append]; exact fun h => hz h.1)]
          rw [after_padding_bad a hs (by rw [htake]; exact hz)]
          rfl
      · have htake : (a ++ b).take remaining = a.take remaining :=
          List.take_append_of_le_length (by omega)
        by_cases hz : AllZero (a.take remaining)
        · rw [after_padding_full a hs (by omega) hz, after_padding_full (a ++ b) hs
            (by rw [List.length_append]; omega) (by rw [htake]; exact hz),
            List.drop_append_of_le_length (by omega)]
          exact ih _ (by rw [List.length_drop]; omega) _ _ rfl
        · rw [after_padding_bad a hs hz, after_padding_bad (a ++ b) hs (by rw [htake]; exact hz)]
          rfl
    | End bytes =>
      rw [after_tail (a ++ b) hs (by simp [hne]), after_tail a hs hne]
      simp only [List.length_append, allZero_append]
      by_cases ha : bytes + a.length ≤ MAX_TAIL_BYTES ∧ AllZero a
      · rw [if_pos ha, Option.bind_some]
        by_cases hb : b = []
        · subst hb
          rw [after_nil, if_pos ⟨by simpa using ha.1, ha.2, by simp [AllZero]⟩]
          simp
        · rw [after_tail (v := { v with stage := .End (bytes + a.length) }) b rfl hb]
          simp only [Nat.add_assoc, ha.2, true_and]
      · rw [if_neg ha, if_neg (by rintro ⟨h1, h2, -⟩; exact ha ⟨by omega, h2⟩)]
        rfl

/-! ## The chunks -/

theorem feed_loop_keeps (v : ArchiveValidator) (input : Bytes) :
    (feed_loop v input).1.expected = v.expected ∧ (feed_loop v input).1.total = v.total ∧
      (feed_loop v input).1.failure = v.failure := by
  fun_induction feed_loop v input <;> simp_all

theorem after_keeps {v v' : ArchiveValidator} {input : Bytes} (h : after v input = some v') :
    v'.expected = v.expected ∧ v'.total = v.total ∧ v'.failure = v.failure := by
  unfold after okState at h
  split at h
  · cases h
    exact feed_loop_keeps v input
  · cases h

/-- The loop does not read the total. -/
theorem after_total (v : ArchiveValidator) (t : Nat) (input : Bytes) :
    after { v with total := t } input = (after v input).map fun v' => { v' with total := t } := by
  obtain ⟨n, hn⟩ : ∃ n, n = input.length := ⟨_, rfl⟩
  induction n using Nat.strongRecOn generalizing v input with
  | ind n ih =>
    have hlt := v.header_lt
    obtain ⟨stage, hs⟩ : ∃ stage, v.stage = stage := ⟨_, rfl⟩
    cases stage with
    | Header =>
      by_cases hshort : (v.header ++ input).length < BLOCK_BYTES
      · rw [after_header_short input hs hshort,
          after_header_short (v := { v with total := t }) input hs hshort]
        rfl
      · rw [after_header_full input hs (by omega),
          after_header_full (v := { v with total := t }) input hs (by simpa using hshort)]
        cases accept_header v.expected.files v.seen
            (v.header ++ input.take (BLOCK_BYTES - v.header.length)) with
        | error e => rfl
        | ok r =>
          rw [List.length_append] at hshort
          exact ih _ (by rw [List.length_drop]; dsimp only; omega)
            { v with seen := r.1, stage := r.2, header := [], header_lt := by decide } _ rfl
    | Body remaining padding pos =>
      by_cases hshort : input.length < remaining
      · rw [after_body_short input hs hshort,
          after_body_short (v := { v with total := t }) input hs hshort]
        rfl
      · rw [after_body_full input hs (by omega),
          after_body_full (v := { v with total := t }) input hs (by omega)]
        exact ih _ (by rw [List.length_drop]; omega) { v with stage := .after_body padding } _ rfl
    | Padding remaining pos =>
      by_cases hz : AllZero (input.take remaining)
      · by_cases hshort : input.length < remaining
        · rw [List.take_of_length_le (Nat.le_of_lt hshort)] at hz
          rw [after_padding_short input hs hshort hz,
            after_padding_short (v := { v with total := t }) input hs hshort hz]
          rfl
        · rw [after_padding_full input hs (by omega) hz,
            after_padding_full (v := { v with total := t }) input hs (by omega) hz]
          exact ih _ (by rw [List.length_drop]; omega) { v with stage := .Header } _ rfl
      · rw [after_padding_bad input hs hz,
          after_padding_bad (v := { v with total := t }) input hs hz]
        rfl
    | End bytes =>
      by_cases hne : input = []
      · subst hne
        simp
      · rw [after_tail input hs hne, after_tail (v := { v with total := t }) input hs hne]
        split <;> rfl

/-- After a failure nothing changes any more. -/
theorem validate_failed {v : ArchiveValidator} {e : ArchiveError} (hf : v.failure = some e)
    (chunks : List Bytes) : v.validate chunks = .error e := by
  unfold ArchiveValidator.validate
  induction chunks with
  | nil =>
    unfold ArchiveValidator.finish
    simp [hf]
  | cons c chunks ih =>
    have hfeed : (v.feed c).1 = v := by
      unfold ArchiveValidator.feed
      simp [hf]
    rw [List.foldl_cons, hfeed]
    exact ih

theorem feed_after {v v' : ArchiveValidator} {c : Bytes} (hf : v.failure = none)
    (hc : c.length ≤ MAX_CHUNK_BYTES) (ht : v.total + c.length ≤ MAX_ARCHIVE_BYTES)
    (ha : after v c = some v') : v.feed c = ({ v' with total := v.total + c.length }, .ok ()) := by
  have ha' := after_total v (v.total + c.length) c
  rw [ha, Option.map_some] at ha'
  unfold ArchiveValidator.feed
  rw [hf]
  unfold feed_inner
  rw [if_neg (by omega), if_pos ht]
  unfold after okState at ha'
  split at ha'
  · rename_i hok
    cases hr : feed_loop { v with total := v.total + c.length } c with
    | mk w r =>
      rw [hr] at hok ha'
      simp only at hok ha'
      subst hok
      cases ha'
      rfl
  · cases ha'

theorem feed_fails {v : ArchiveValidator} {c : Bytes} (hf : v.failure = none)
    (hbad : ¬ v.total + c.length ≤ MAX_ARCHIVE_BYTES ∨ after v c = none) :
    ∃ e, (v.feed c).1.failure = some e ∧ (v.feed c).2 = .error e := by
  unfold ArchiveValidator.feed
  rw [hf]
  unfold feed_inner
  by_cases hc : c.length > MAX_CHUNK_BYTES
  · exact ⟨.LimitExceeded, by rw [if_pos hc]; exact ⟨rfl, rfl⟩⟩
  rw [if_neg hc]
  by_cases ht : v.total + c.length ≤ MAX_ARCHIVE_BYTES
  · rw [if_pos ht]
    have ha' := after_total v (v.total + c.length) c
    rw [hbad.resolve_left (fun h => h ht), Option.map_none] at ha'
    unfold after okState at ha'
    split at ha'
    · cases ha'
    · rename_i e he
      cases hr : feed_loop { v with total := v.total + c.length } c with
      | mk w r =>
        rw [hr] at he
        simp only at he
        subst he
        exact ⟨e, rfl, rfl⟩
  · exact ⟨.LimitExceeded, by rw [if_neg ht]; exact ⟨rfl, rfl⟩⟩

/-- The chunks pass when their bytes pass as one, within the limit of the archive. -/
theorem validate_ok_iff (chunks : List Bytes) (hc : ∀ c ∈ chunks, c.length ≤ MAX_CHUNK_BYTES)
    (v : ArchiveValidator) (hf : v.failure = none) (s : ArchiveSummary) :
    v.validate chunks = .ok s ↔
      (chunks = [] ∨ v.total + chunks.flatten.length ≤ MAX_ARCHIVE_BYTES) ∧
      ∃ v', after v chunks.flatten = some v' ∧
        { v' with total := v.total + chunks.flatten.length }.finish = .ok s := by
  induction chunks generalizing v with
  | nil =>
    unfold ArchiveValidator.validate
    simp
  | cons c chunks ih =>
    obtain ⟨hc1, hc2⟩ := List.forall_mem_cons.mp hc
    have hcons : v.validate (c :: chunks) = (v.feed c).1.validate chunks := rfl
    rw [hcons, List.flatten_cons, List.length_append, after_append]
    by_cases hbad : ¬ v.total + c.length ≤ MAX_ARCHIVE_BYTES ∨ after v c = none
    · obtain ⟨e, he, -⟩ := feed_fails hf hbad
      rw [validate_failed he]
      simp only [reduceCtorEq, false_iff]
      rintro ⟨ht, v', ha, -⟩
      rcases hbad with hb | hb
      · rcases ht with ht | ht
        · cases ht
        · omega
      · rw [hb] at ha
        cases ha
    · simp only [not_or, not_not] at hbad
      obtain ⟨ht, hsome⟩ := hbad
      obtain ⟨w, hw⟩ := Option.ne_none_iff_exists'.mp hsome
      have hkeep := after_keeps hw
      rw [congrArg Prod.fst (feed_after hf hc1 ht hw), ih hc2 { w with total := v.total + c.length }
        (hkeep.2.2.trans hf), hw, Option.bind_some, after_total]
      simp only [reduceCtorEq, false_or]
      have htot : (chunks = [] ∨ v.total + c.length + chunks.flatten.length ≤ MAX_ARCHIVE_BYTES) ↔
          v.total + (c.length + chunks.flatten.length) ≤ MAX_ARCHIVE_BYTES := by
        constructor
        · rintro (rfl | h)
          · simpa using ht
          · omega
        · intro h
          exact .inr (by omega)
      rw [htot]
      cases after w chunks.flatten with
      | none => simp
      | some u => simp [Nat.add_assoc]

/-! ## The bytes that were taken -/

/-- The validator after bytes that it took, in whatever chunks they came. -/
def archive_after (expected : ExpectedArchive) (bytes : Bytes) : Option ArchiveValidator :=
  if bytes.length ≤ MAX_ARCHIVE_BYTES then
    (after (.new expected) bytes).map fun v => { v with total := bytes.length }
  else none

theorem archive_after_nil (expected : ExpectedArchive) :
    archive_after expected [] = some (.new expected) := by
  simp [archive_after, ArchiveValidator.new]

/-- The parts of the validator after the bytes. -/
theorem archive_after_some {expected : ExpectedArchive} {bytes : Bytes} {v : ArchiveValidator} :
    archive_after expected bytes = some v ↔ bytes.length ≤ MAX_ARCHIVE_BYTES ∧
      ∃ w, after (.new expected) bytes = some w ∧ w.failure = none ∧
        { w with total := bytes.length } = v := by
  unfold archive_after
  split
  · rename_i hle
    constructor
    · intro hsome
      obtain ⟨w, hw, hv⟩ := Option.map_eq_some_iff.mp hsome
      exact ⟨hle, w, hw, (after_keeps hw).2.2, hv⟩
    · rintro ⟨-, w, hw, -, rfl⟩
      rw [hw]
      rfl
  · rename_i hle
    simp [hle]

/-- One chunk more. -/
theorem archive_after_feed {expected : ExpectedArchive} {bytes chunk : Bytes}
    {v : ArchiveValidator} (hv : archive_after expected bytes = some v)
    (hc : chunk.length ≤ MAX_CHUNK_BYTES) :
    (∃ v', archive_after expected (bytes ++ chunk) = some v' ∧ v.feed chunk = (v', .ok ())) ∨
    (archive_after expected (bytes ++ chunk) = none ∧ ∃ e, (v.feed chunk).2 = .error e) := by
  obtain ⟨hle, w, hw, hf, rfl⟩ := archive_after_some.mp hv
  have happend := after_append (.new expected) bytes chunk
  rw [hw, Option.bind_some] at happend
  have hloop := after_total w bytes.length chunk
  by_cases hbad : ¬ bytes.length + chunk.length ≤ MAX_ARCHIVE_BYTES ∨ after w chunk = none
  · refine .inr ⟨?_, ?_⟩
    · rw [Option.eq_none_iff_forall_ne_some]
      intro u hu
      obtain ⟨hle', x, hx, -⟩ := archive_after_some.mp hu
      rw [List.length_append] at hle'
      rcases hbad with hlong | hnone
      · exact hlong hle'
      · rw [happend, hnone] at hx
        cases hx
    · obtain ⟨e, -, he⟩ := feed_fails (v := { w with total := bytes.length }) (c := chunk) hf
        (hbad.imp id fun hnone => by rw [hloop, hnone]; rfl)
      exact ⟨e, he⟩
  · simp only [not_or, not_not] at hbad
    obtain ⟨u, hu⟩ := Option.ne_none_iff_exists'.mp hbad.2
    have hfu : u.failure = none := (after_keeps hu).2.2.trans hf
    refine .inl ⟨{ u with total := (bytes ++ chunk).length }, ?_, ?_⟩
    · refine archive_after_some.mpr ⟨by rw [List.length_append]; exact hbad.1, u, ?_, hfu, rfl⟩
      rw [happend, hu]
    · rw [hu, Option.map_some] at hloop
      rw [feed_after (v := { w with total := bytes.length }) hf hc hbad.1 hloop,
        List.length_append]

/-- What is in front of bytes that were taken was taken. -/
theorem archive_after_prefix {expected : ExpectedArchive} {a b : Bytes} (h : a <+: b)
    (hb : archive_after expected b ≠ none) : archive_after expected a ≠ none := by
  obtain ⟨rest, rfl⟩ := h
  obtain ⟨v, hv⟩ := Option.ne_none_iff_exists'.mp hb
  obtain ⟨hle, w, hw, -, -⟩ := archive_after_some.mp hv
  rw [after_append] at hw
  obtain ⟨u, hu, -⟩ := Option.bind_eq_some_iff.mp hw
  rw [List.length_append] at hle
  rw [archive_after_some.mpr ⟨by omega, u, hu, (after_keeps hu).2.2, rfl⟩]
  simp

end openwrt_mcp_device_codec.archive
