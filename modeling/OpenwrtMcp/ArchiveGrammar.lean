-- The laws of the archive validator: it accepts exactly the streams that hold one
-- member for each file of the manifest and a zero tail, however they are split.
import OpenwrtMcp.ArchiveTurns

open text slices

namespace openwrt_mcp_device_codec.archive

/-! ## The grammar -/

/-- The bytes of one file: a header block that names it, its body, and zero bytes up to the
next multiple of the block. -/
def Member (f : ExpectedFile) (bs : Bytes) : Prop :=
  ∃ block body padding, block.length = BLOCK_BYTES ∧ parse block = .ok ⟨f.path, f.size⟩ ∧
    body.length = f.size ∧ padding < BLOCK_BYTES ∧ BLOCK_BYTES ∣ f.size + padding ∧
    bs = block ++ body ++ List.replicate padding 0

/-- One member for each file of the manifest, in some order, and 2 to 64 zero blocks. -/
def Archive (manifest : List ExpectedFile) (bs : Bytes) : Prop :=
  ∃ members : List (ExpectedFile × Bytes), (members.map Prod.fst).Perm manifest ∧
    (∀ m ∈ members, Member m.1 m.2) ∧
    ∃ k, 2 ≤ k ∧ k ≤ 64 ∧
      bs = (members.map Prod.snd).flatten ++ List.replicate (BLOCK_BYTES * k) 0

theorem padding_of_unique {size padding : Nat} (hlt : padding < BLOCK_BYTES)
    (hd : BLOCK_BYTES ∣ size + padding) : padding = padding_of size := by
  unfold padding_of BLOCK_BYTES at *
  omega

theorem padding_of_lt (size : Nat) : padding_of size < BLOCK_BYTES := by
  unfold padding_of BLOCK_BYTES
  omega

theorem padding_of_dvd (size : Nat) : BLOCK_BYTES ∣ size + padding_of size := by
  unfold padding_of BLOCK_BYTES
  omega

/-- A block that `parse` takes is not the zero block. -/
theorem parse_nonzero {block : Bytes} {entry : Header} (hlen : block.length = BLOCK_BYTES)
    (h : parse block = .ok entry) : ¬ AllZero block := by
  intro hz
  obtain ⟨e, he⟩ := parse_zero_block
  rw [allZero_iff, hlen] at hz
  rw [hz, he] at h
  cases h

/-! ## The end of a stream -/

/-- The loop reads all of `input` and is then in the tail. -/
def Ends (v : ArchiveValidator) (input : Bytes) (v' : ArchiveValidator) (bytes : Nat) : Prop :=
  after v input = some v' ∧ v'.stage = .End bytes

section
variable {v v' : ArchiveValidator} {input : Bytes} {bytes : Nat}

theorem ends_body {size padding : Nat} (hs : v.stage =
      if h : 0 < size then .Body size padding h else .after_body padding) :
    Ends v input v' bytes ↔ size ≤ input.length ∧
      Ends { v with stage := .after_body padding } (input.drop size) v' bytes := by
  unfold Ends
  by_cases hpos : 0 < size
  · rw [dif_pos hpos] at hs
    rcases Nat.lt_or_ge input.length size with hlt | hge
    · rw [after_body_short input hs hlt]
      apply iff_of_false
      · rintro ⟨h1, h2⟩
        cases h1
        cases h2
      · rintro ⟨h1, -⟩
        omega
    · rw [after_body_full input hs hge]
      exact (and_iff_right hge).symm
  · rw [dif_neg hpos] at hs
    obtain rfl : size = 0 := by omega
    rw [← hs]
    simp

theorem ends_padding {padding : Nat} (hs : v.stage = .after_body padding) :
    Ends v input v' bytes ↔ padding ≤ input.length ∧ AllZero (input.take padding) ∧
      Ends { v with stage := .Header } (input.drop padding) v' bytes := by
  unfold Ends
  unfold Stage.after_body at hs
  by_cases hpos : 0 < padding
  · rw [dif_pos hpos] at hs
    by_cases hz : AllZero (input.take padding)
    · rcases Nat.lt_or_ge input.length padding with hlt | hge
      · rw [List.take_of_length_le (Nat.le_of_lt hlt)] at hz
        rw [after_padding_short input hs hlt hz]
        apply iff_of_false
        · rintro ⟨h1, h2⟩
          cases h1
          cases h2
        · rintro ⟨h1, -⟩
          omega
      · rw [after_padding_full input hs hge hz]
        simp [hge, hz]
    · rw [after_padding_bad input hs hz]
      simp [hz]
  · rw [dif_neg hpos] at hs
    obtain rfl : padding = 0 := by omega
    rw [← hs]
    simp [AllZero]

/-- After a header with a size: the body, the padding, and the next header. -/
theorem ends_payload {size : Nat} (hs : v.stage = .after_header size) :
    Ends v input v' bytes ↔ ∃ body rest, body.length = size ∧
      input = body ++ List.replicate (padding_of size) 0 ++ rest ∧
      Ends { v with stage := .Header } rest v' bytes := by
  have hs' : v.stage = if h : 0 < size then .Body size (padding_of size) h
      else .after_body (padding_of size) := by
    rw [hs]
    unfold Stage.after_header
    split
    · rfl
    · obtain rfl : size = 0 := by omega
      rfl
  rw [ends_body hs', ends_padding (v := { v with stage := .after_body (padding_of size) }) rfl]
  constructor
  · rintro ⟨h1, h2, h3, h4⟩
    rw [List.length_drop] at h2
    refine ⟨input.take size, (input.drop size).drop (padding_of size), by simpa using h1, ?_, h4⟩
    rw [allZero_iff, List.length_take, List.length_drop, Nat.min_eq_left h2] at h3
    rw [← h3, List.append_assoc, List.take_append_drop, List.take_append_drop]
  · rintro ⟨body, rest, rfl, rfl, h⟩
    have hdrop : (body ++ List.replicate (padding_of body.length) 0 ++ rest).drop body.length =
        List.replicate (padding_of body.length) 0 ++ rest := by
      rw [List.append_assoc, List.drop_left]
    rw [hdrop]
    refine ⟨by simp, by simp, ?_, ?_⟩
    · rw [List.take_left' (by simp), allZero_iff]
      simp
    · rw [List.drop_left' (by simp)]
      exact h

theorem ends_tail {n : Nat} (hs : v.stage = .End n) (hn : n ≤ MAX_TAIL_BYTES) :
    Ends v input v' bytes ↔ n ≤ bytes ∧ bytes ≤ MAX_TAIL_BYTES ∧
      input = List.replicate (bytes - n) 0 ∧ v' = { v with stage := .End bytes } := by
  unfold Ends
  by_cases hne : input = []
  · subst hne
    rw [after_nil]
    constructor
    · rintro ⟨h1, h2⟩
      cases h1
      rw [hs] at h2
      cases h2
      refine ⟨Nat.le_refl _, hn, by simp, ?_⟩
      rw [← hs]
    · rintro ⟨h1, h2, h3, rfl⟩
      have hb : bytes - n = 0 := by simpa using (congrArg List.length h3).symm
      obtain rfl : bytes = n := by omega
      rw [← hs]
      exact ⟨rfl, rfl⟩
  · rw [after_tail input hs hne]
    constructor
    · rintro ⟨h1, h2⟩
      split at h1
      · rename_i hb
        cases h1
        cases h2
        refine ⟨by omega, hb.1, ?_, rfl⟩
        rw [Nat.add_sub_cancel_left]
        exact (allZero_iff input).mp hb.2
      · cases h1
    · rintro ⟨h1, h2, rfl, rfl⟩
      have hlen : n + (List.replicate (bytes - n) (0 : UInt8)).length = bytes := by
        rw [List.length_replicate]
        omega
      rw [hlen, if_pos ⟨h2, by rw [allZero_iff, List.length_replicate]⟩]
      exact ⟨rfl, rfl⟩

end

/-! ## The files that were not seen -/

/-- The files of the manifest whose flag is not set. -/
def unseen : List ExpectedFile → List Bool → List ExpectedFile
  | f :: files, s :: seen => if s then unseen files seen else f :: unseen files seen
  | _, _ => []

theorem unseen_replicate (files : List ExpectedFile) :
    unseen files (List.replicate files.length false) = files := by
  induction files with
  | nil => rfl
  | cons f files ih => simp [unseen, List.replicate_succ, ih]

theorem unseen_set {files : List ExpectedFile} {seen : List Bool} {i : Nat} {f : ExpectedFile}
    (hf : files[i]? = some f) (hs : seen[i]? = some false) :
    (unseen files seen).Perm (f :: unseen files (seen.set i true)) := by
  induction files generalizing seen i with
  | nil => cases hf
  | cons g files ih =>
    cases seen with
    | nil => cases hs
    | cons s seen =>
      cases i with
      | zero =>
        cases hf
        cases hs
        exact List.Perm.refl _
      | succ i =>
        have h : (unseen files seen).Perm (f :: unseen files (seen.set i true)) :=
          ih (by simpa using hf) (by simpa using hs)
        unfold unseen
        rw [List.set_cons_succ]
        cases s with
        | false => exact (h.cons g).trans (List.Perm.swap _ _ _)
        | true => exact h

theorem mem_unseen {files : List ExpectedFile} {seen : List Bool} {f : ExpectedFile}
    (h : f ∈ unseen files seen) : ∃ i : Nat, files[i]? = some f ∧ seen[i]? = some false := by
  induction files generalizing seen with
  | nil => cases h
  | cons g files ih =>
    cases seen with
    | nil => cases h
    | cons s seen =>
      have hrest : f ∈ unseen files seen →
          ∃ i : Nat, (g :: files)[i]? = some f ∧ (s :: seen)[i]? = some false := by
        intro hm
        obtain ⟨i, h1, h2⟩ := ih hm
        exact ⟨i + 1, by simpa using h1, by simpa using h2⟩
      unfold unseen at h
      split at h
      · exact hrest h
      · rename_i hs
        rcases List.mem_cons.mp h with rfl | hm
        · exact ⟨0, rfl, by simpa using hs⟩
        · exact hrest hm

theorem unseen_eq_nil_iff {files : List ExpectedFile} {seen : List Bool}
    (hlen : seen.length = files.length) :
    unseen files seen = [] ↔ seen.any (fun s => !s) = false := by
  induction files generalizing seen with
  | nil =>
    rw [List.length_nil, List.length_eq_zero_iff] at hlen
    simp [hlen, unseen]
  | cons g files ih =>
    cases seen with
    | nil => cases hlen
    | cons s seen =>
      have h : unseen files seen = [] ↔ seen.any (fun s => !s) = false := ih (by simpa using hlen)
      unfold unseen
      cases s with
      | false => simp
      | true => simpa using h

/-! ## The members of a stream -/

/-- The members are read one after another; each is a file that was not seen before it. -/
inductive Walk (files : List ExpectedFile) :
    List Bool → List (ExpectedFile × Bytes) → List Bool → Prop
  | done (seen : List Bool) : Walk files seen [] seen
  | read {seen seen' : List Bool} {i : Nat} {f : ExpectedFile} {bs : Bytes}
      {rest : List (ExpectedFile × Bytes)} (file : files[i]? = some f)
      (new : seen[i]? = some false) (member : Member f bs)
      (next : Walk files (seen.set i true) rest seen') : Walk files seen ((f, bs) :: rest) seen'

section
variable {files : List ExpectedFile} {seen seen' : List Bool}
  {members : List (ExpectedFile × Bytes)}

theorem Walk.length_eq (h : Walk files seen members seen') : seen'.length = seen.length := by
  induction h with
  | done seen => rfl
  | read _ _ _ _ ih => rw [ih, List.length_set]

theorem Walk.all_members (h : Walk files seen members seen') : ∀ m ∈ members, Member m.1 m.2 := by
  induction h with
  | done seen => simp
  | read _ _ member _ ih => exact List.forall_mem_cons.mpr ⟨member, ih⟩

/-- What was read and what is not seen yet make up what was not seen before. -/
theorem Walk.perm (h : Walk files seen members seen') :
    (members.map Prod.fst ++ unseen files seen').Perm (unseen files seen) := by
  induction h with
  | done seen => exact List.Perm.refl _
  | read file new _ _ ih => exact (ih.cons _).trans (unseen_set file new).symm

/-- Members of all the files not seen, in any order, can be read. -/
theorem walk_of_perm (hp : (members.map Prod.fst).Perm (unseen files seen))
    (hm : ∀ m ∈ members, Member m.1 m.2) :
    ∃ seen', Walk files seen members seen' ∧ unseen files seen' = [] := by
  induction members generalizing seen with
  | nil => exact ⟨seen, .done seen, List.Perm.nil_eq hp |>.symm⟩
  | cons m members ih =>
    obtain ⟨hm1, hm2⟩ := List.forall_mem_cons.mp hm
    obtain ⟨i, hf, hs⟩ := mem_unseen (hp.subset (List.mem_cons_self ..))
    obtain ⟨seen', h1, h2⟩ := ih ((hp.trans (unseen_set hf hs)).cons_inv) hm2
    exact ⟨seen', .read hf hs hm1 h1, h2⟩

end

/-- The block is the zero block, or the header of a file that was not seen. -/
theorem accept_header_ok_iff {files : List ExpectedFile}
    (hinc : (files.map ExpectedFile.path).Pairwise (· < ·)) {seen seen' : List Bool}
    {block : Bytes} {stage : Stage} (hlen : block.length = BLOCK_BYTES) :
    accept_header files seen block = .ok (seen', stage) ↔
      (AllZero block ∧ seen' = seen ∧ stage = .End BLOCK_BYTES) ∨
      ∃ i f, files[i]? = some f ∧ seen[i]? = some false ∧ parse block = .ok ⟨f.path, f.size⟩ ∧
        seen' = seen.set i true ∧ stage = .after_header f.size := by
  have hall : block.all (· == 0) = true ↔ AllZero block := by
    unfold AllZero
    simp
  unfold accept_header
  by_cases hz : AllZero block
  · rw [if_pos (hall.mpr hz)]
    have hno : ∀ entry, parse block ≠ .ok entry := fun entry h => parse_nonzero hlen h hz
    simp [hz, hno, eq_comm]
  · rw [if_neg (by rwa [hall])]
    cases hp : parse block with
    | error e => simp [hz]
    | ok entry =>
      have hfind := find_path_ok_iff hinc entry.path
      simp only [hz, false_and, false_or]
      constructor
      · intro h
        cases hi : find_path files entry.path with
        | error j =>
          rw [hi] at h
          cases h
        | ok i =>
          rw [hi] at h
          simp only [ne_eq] at h
          split at h
          · cases h
          · rename_i hseen
            simp only [not_or, not_not] at hseen
            cases h
            have hpath := (hfind i).mp hi
            rw [Option.map_eq_some_iff] at hpath hseen
            obtain ⟨f, hf, hfp⟩ := hpath
            obtain ⟨hs1, g, hg, hgs⟩ := hseen
            rw [hf] at hg
            cases hg
            exact ⟨i, f, hf, hs1, by rw [hfp, hgs], rfl, by rw [hgs]⟩
      · rintro ⟨i, f, hf, hs, he, rfl, rfl⟩
        cases he
        have hi : find_path files f.path = .ok i := by
          rw [hfind, hf]
          rfl
        simp only [hi]
        rw [if_neg (by simp [hf, hs])]

section
variable {v v' : ArchiveValidator} {bytes : Nat}
  (hinc : (v.expected.files.map ExpectedFile.path).Pairwise (· < ·)) (hs : v.stage = .Header)
  (hh : v.header = [])
include hinc hs hh

/-- A block at the start of a header is the start of the tail, or the header of a file. -/
theorem ends_block {block rest : Bytes} (hblock : block.length = BLOCK_BYTES) :
    Ends v (block ++ rest) v' bytes ↔
      (AllZero block ∧ Ends { v with stage := .End BLOCK_BYTES } rest v' bytes) ∨
      ∃ i f, v.expected.files[i]? = some f ∧ v.seen[i]? = some false ∧
        parse block = .ok ⟨f.path, f.size⟩ ∧
        Ends { v with seen := v.seen.set i true, stage := .after_header f.size } rest v' bytes := by
  obtain ⟨expected, seen, header, header_lt, stage, total, failure⟩ := v
  obtain rfl : header = [] := hh
  have hturn := after_header_full (block ++ rest) hs (by simp [hblock])
  simp only [List.length_nil, Nat.sub_zero, List.nil_append, List.take_left' hblock,
    List.drop_left' hblock] at hturn
  unfold Ends
  rw [hturn]
  constructor
  · rintro ⟨h1, h2⟩
    split at h1
    · cases h1
    · rename_i hacc
      rcases (accept_header_ok_iff hinc hblock).mp hacc with
        ⟨hz, rfl, rfl⟩ | ⟨i, f, hf, hnew, hparse, rfl, rfl⟩
      · exact .inl ⟨hz, h1, h2⟩
      · exact .inr ⟨i, f, hf, hnew, hparse, h1, h2⟩
  · rintro (⟨hz, h1, h2⟩ | ⟨i, f, hf, hnew, hparse, h1, h2⟩)
    · rw [(accept_header_ok_iff hinc hblock).mpr (.inl ⟨hz, rfl, rfl⟩)]
      exact ⟨h1, h2⟩
    · rw [(accept_header_ok_iff hinc hblock).mpr (.inr ⟨i, f, hf, hnew, hparse, rfl, rfl⟩)]
      exact ⟨h1, h2⟩

/-- From an empty header, the loop ends in the tail only on a walk through members and a
tail of zero bytes. -/
theorem walk_of_ends {input : Bytes} (h : Ends v input v' bytes) :
    BLOCK_BYTES ≤ bytes ∧ bytes ≤ MAX_TAIL_BYTES ∧
      ∃ members seen', Walk v.expected.files v.seen members seen' ∧
        input = (members.map Prod.snd).flatten ++ List.replicate bytes 0 ∧
        v' = { v with seen := seen', stage := .End bytes } := by
  -- by strong induction on the length of the input; each member shortens it by its header
  obtain ⟨n, hn⟩ : ∃ n, n = input.length := ⟨_, rfl⟩
  induction n using Nat.strongRecOn generalizing v input with
  | ind n ih =>
    rcases Nat.lt_or_ge input.length BLOCK_BYTES with hlt | hge
    · obtain ⟨h1, h2⟩ := h
      rw [after_header_short input hs (by simpa [hh] using hlt)] at h1
      cases h1
      rw [hs] at h2
      cases h2
    obtain ⟨block, rest, hblock, rfl⟩ : ∃ block rest, block.length = BLOCK_BYTES ∧
        input = block ++ rest :=
      ⟨input.take BLOCK_BYTES, _, by rw [List.length_take]; omega,
        (List.take_append_drop BLOCK_BYTES input).symm⟩
    rcases (ends_block hinc hs hh hblock).mp h with ⟨hz, hend⟩ | ⟨i, f, hf, hnew, hparse, hend⟩
    · obtain ⟨hb, hmax, hrest, hv⟩ := (ends_tail rfl (by decide)).mp hend
      refine ⟨hb, hmax, [], v.seen, .done _, ?_, hv⟩
      rw [allZero_iff, hblock] at hz
      rw [hz, hrest, List.replicate_append_replicate, Nat.add_sub_cancel' hb]
      rfl
    · obtain ⟨body, rest, hbody, rfl, hnext⟩ := (ends_payload rfl).mp hend
      have hpos : 0 < BLOCK_BYTES := by decide
      have hlt : rest.length < n := by
        simp only [List.length_append] at hn
        omega
      obtain ⟨hb, hmax, members, seen', hwalk, rfl, rfl⟩ := ih _ hlt
        (v := { v with seen := v.seen.set i true, stage := .Header }) hinc rfl hh hnext rfl
      refine ⟨hb, hmax, (f, block ++ body ++ List.replicate (padding_of f.size) 0) :: members,
        seen', ?_, by simp, rfl⟩
      exact .read hf hnew ⟨block, body, _, hblock, hparse, hbody, padding_of_lt _,
        padding_of_dvd _, rfl⟩ hwalk

end

theorem ends_of_walk {v : ArchiveValidator} {seen' : List Bool}
    {members : List (ExpectedFile × Bytes)} (h : Walk v.expected.files v.seen members seen')
    (hinc : (v.expected.files.map ExpectedFile.path).Pairwise (· < ·)) (hs : v.stage = .Header)
    (hh : v.header = []) {bytes : Nat} (hb : BLOCK_BYTES ≤ bytes) (hmax : bytes ≤ MAX_TAIL_BYTES) :
    Ends v ((members.map Prod.snd).flatten ++ List.replicate bytes 0)
      { v with seen := seen', stage := .End bytes } bytes := by
  induction members generalizing v with
  | nil =>
    cases h
    have hzero : List.replicate bytes (0 : UInt8) =
        List.replicate BLOCK_BYTES 0 ++ List.replicate (bytes - BLOCK_BYTES) 0 := by
      rw [List.replicate_append_replicate, Nat.add_sub_cancel' hb]
    rw [List.map_nil, List.flatten_nil, List.nil_append, hzero,
      ends_block hinc hs hh List.length_replicate]
    refine .inl ⟨by rw [allZero_iff, List.length_replicate], ?_⟩
    exact (ends_tail rfl (by decide)).mpr ⟨hb, hmax, rfl, rfl⟩
  | cons m members ih =>
    obtain ⟨f, bs⟩ := m
    cases h with
    | read file new member next =>
      obtain ⟨block, body, padding, hblock, hparse, hbody, hlt, hd, rfl⟩ := member
      rw [padding_of_unique hlt hd]
      simp only [List.map_cons, List.flatten_cons, List.append_assoc]
      rw [ends_block hinc hs hh hblock]
      refine .inr ⟨_, f, file, new, hparse, ?_⟩
      rw [ends_payload rfl]
      refine ⟨body, _, hbody, by rw [List.append_assoc], ?_⟩
      exact ih next hinc rfl hh

/-! ## The archives that pass -/

/-- The header of a member is one block and its payload ends at a block. -/
theorem Member.length_le {f : ExpectedFile} {bs : Bytes} (h : Member f bs) :
    bs.length ≤ f.size + 2 * BLOCK_BYTES := by
  obtain ⟨block, body, padding, hblock, -, hbody, hlt, -, rfl⟩ := h
  simp only [List.length_append, List.length_replicate]
  omega

theorem length_members_le {members : List (ExpectedFile × Bytes)}
    (h : ∀ m ∈ members, Member m.1 m.2) : (members.map Prod.snd).flatten.length ≤
      ((members.map Prod.fst).map ExpectedFile.size).sum + members.length * (2 * BLOCK_BYTES) := by
  induction members with
  | nil => simp
  | cons m members ih =>
    obtain ⟨h1, h2⟩ := List.forall_mem_cons.mp h
    have hm := h1.length_le
    have hrest := ih h2
    simp only [List.map_cons, List.flatten_cons, List.length_append, List.sum_cons,
      List.length_cons]
    rw [Nat.add_mul]
    omega

/-- The limit on the archive never bites: the limits on its parts are below it. -/
theorem Archive.length_le {manifest : List ExpectedFile} {expected : ExpectedArchive}
    {bs : Bytes} (hm : Manifest manifest expected) (h : Archive manifest bs) :
    bs.length ≤ MAX_ARCHIVE_BYTES := by
  obtain ⟨members, hperm, hmem, k, -, hk, rfl⟩ := h
  have hlen := length_members_le hmem
  have hcount : members.length ≤ MAX_FILES := by
    have := hperm.length_eq
    rw [List.length_map] at this
    rw [this]
    exact hm.files_le
  have hsum : ((members.map Prod.fst).map ExpectedFile.size).sum ≤ MAX_PAYLOAD_BYTES := by
    rw [(hperm.map _).sum_eq, ← hm.payload]
    exact hm.payload_le
  rw [List.length_append, List.length_replicate]
  unfold MAX_FILES MAX_PAYLOAD_BYTES MAX_ARCHIVE_BYTES BLOCK_BYTES at *
  omega

/-- `finish` takes a validator in the tail, after whole blocks and with all files seen. -/
theorem finish_ok_iff {v : ArchiveValidator} {s : ArchiveSummary} (hf : v.failure = none) :
    v.finish = .ok s ↔ ∃ k, 2 ≤ k ∧ v.stage = .End (BLOCK_BYTES * k) ∧
      v.seen.any (fun seen => !seen) = false ∧
      s = ⟨v.expected.files.length, v.expected.payload_bytes, v.total⟩ := by
  have hblock : 0 < BLOCK_BYTES := by decide
  unfold ArchiveValidator.finish
  rw [hf]
  constructor
  · intro h
    split at h
    · cases h
    split at h
    · rename_i bytes hs
      split at h
      · rename_i hb
        split at h
        · cases h
        · rename_i hseen
          cases h
          refine ⟨bytes / BLOCK_BYTES, (Nat.le_div_iff_mul_le hblock).mpr hb.1, ?_,
            by simpa using hseen, rfl⟩
          rw [hs, Nat.mul_div_cancel' (Nat.dvd_of_mod_eq_zero hb.2)]
      · cases h
    · cases h
  · rintro ⟨k, hk, hs, hseen, rfl⟩
    simp only [hs]
    rw [if_pos ⟨by rw [Nat.mul_comm]; exact Nat.mul_le_mul_right _ hk, Nat.mul_mod_right _ _⟩,
      if_neg (by rw [hseen]; decide)]

/-- The bytes as one chunk, without the limit on the archive. -/
theorem finish_after_iff {manifest : List ExpectedFile} {expected : ExpectedArchive}
    (hm : Manifest manifest expected) (bs : Bytes) (s : ArchiveSummary) (total : Nat) :
    (∃ v', after (.new expected) bs = some v' ∧ { v' with total := total }.finish = .ok s) ↔
      Archive manifest bs ∧
        s = ⟨manifest.length, (manifest.map ExpectedFile.size).sum, total⟩ := by
  have hinit : unseen expected.files (ArchiveValidator.new expected).seen = expected.files :=
    unseen_replicate expected.files
  have hlen : ∀ {members seen'},
      Walk expected.files (ArchiveValidator.new expected).seen members seen' →
        seen'.length = expected.files.length :=
    fun hwalk => hwalk.length_eq.trans List.length_replicate
  constructor
  · rintro ⟨v', ha, hfin⟩
    obtain ⟨k, hk2, hs, hseen, rfl⟩ :=
      (finish_ok_iff (v := { v' with total := total }) (after_keeps ha).2.2).mp hfin
    obtain ⟨-, hmax, members, seen', hwalk, rfl, rfl⟩ :=
      walk_of_ends (v := .new expected) hm.increasing rfl rfl ⟨ha, hs⟩
    have hperm : (members.map Prod.fst ++ unseen expected.files seen').Perm
        (unseen expected.files (ArchiveValidator.new expected).seen) := hwalk.perm
    rw [hinit, (unseen_eq_nil_iff (hlen hwalk)).mpr hseen, List.append_nil] at hperm
    refine ⟨⟨members, hperm.trans hm.perm, hwalk.all_members, k, hk2, ?_, rfl⟩, ?_⟩
    · unfold BLOCK_BYTES MAX_TAIL_BYTES at hmax
      omega
    · rw [← hm.perm.length_eq, ← hm.payload]
      rfl
  · rintro ⟨⟨members, hperm, hmem, k, hk2, hk64, rfl⟩, rfl⟩
    rw [← hm.perm.length_eq, ← hm.payload]
    have hall := hperm.trans hm.perm.symm
    rw [← hinit] at hall
    obtain ⟨seen', hwalk, hnil⟩ := walk_of_perm hall hmem
    have hb : BLOCK_BYTES ≤ BLOCK_BYTES * k ∧ BLOCK_BYTES * k ≤ MAX_TAIL_BYTES := by
      unfold BLOCK_BYTES MAX_TAIL_BYTES
      omega
    obtain ⟨ha, hs⟩ := ends_of_walk (v := .new expected) hwalk hm.increasing rfl rfl hb.1 hb.2
    refine ⟨_, ha, (finish_ok_iff rfl).mpr ⟨k, hk2, hs, ?_, rfl⟩⟩
    exact (unseen_eq_nil_iff (hlen hwalk)).mp hnil

/-- The law of the validator: it takes the archives of the manifest and no other bytes, for
every split of the bytes into chunks, and the limit on the archive rejects none of them. -/
theorem the_validator_takes_the_archives_of_its_manifest {manifest : List ExpectedFile}
    {expected : ExpectedArchive} (h : ExpectedArchive.new manifest = .ok expected) :
    (∀ (chunks : List Bytes) (s : ArchiveSummary), (∀ c ∈ chunks, c.length ≤ MAX_CHUNK_BYTES) →
      ((ArchiveValidator.new expected).validate chunks = .ok s ↔
        Archive manifest chunks.flatten ∧ s = {
          files := manifest.length
          payload_bytes := (manifest.map ExpectedFile.size).sum
          archive_bytes := chunks.flatten.length })) ∧
    ∀ bs, Archive manifest bs → bs.length ≤ MAX_ARCHIVE_BYTES := by
  have hm := ExpectedArchive.new_manifest h
  refine ⟨?_, fun bs => Archive.length_le hm⟩
  intro chunks s hc
  rw [validate_ok_iff chunks hc (.new expected) rfl s]
  have hzero : (ArchiveValidator.new expected).total + chunks.flatten.length =
      chunks.flatten.length := Nat.zero_add _
  rw [hzero, finish_after_iff hm]
  apply and_iff_right_of_imp
  rintro ⟨harch, -⟩
  exact .inr (Archive.length_le hm harch)

/-- The header of a file "a" of one byte. -/
def one_byte_header : Bytes :=
  ascii "a" ++ List.replicate 99 0 ++ ascii "0000600" ++ [0] ++ ascii "0000000" ++ [0] ++
    ascii "0000000" ++ [0] ++ ascii "00000000001" ++ [0] ++ ascii "00000002322" ++ [0] ++
    ascii "0007710" ++ [0] ++ ascii "0" ++ List.replicate 100 0 ++ posix_magic ++ ascii "root" ++
    List.replicate 28 0 ++ ascii "root" ++ List.replicate 211 0

def one_byte_file : ExpectedFile := ⟨ascii "a", 1, by decide, by decide⟩

def one_byte_archive : Bytes :=
  [one_byte_header ++ [7] ++ List.replicate 511 0].flatten ++ List.replicate (BLOCK_BYTES * 2) 0

theorem one_byte_header_length : one_byte_header.length = BLOCK_BYTES := by
  decide +kernel

theorem one_byte_archive_length : one_byte_archive.length = 2048 := by
  simp only [one_byte_archive, List.flatten_cons, List.flatten_nil, List.length_append,
    List.length_replicate, one_byte_header_length]
  rfl

theorem one_byte_archive_of_its_manifest : Archive [one_byte_file] one_byte_archive := by
  refine ⟨[(one_byte_file, _)], List.Perm.refl _, ?_, 2, by decide, by decide, rfl⟩
  intro m hm
  rw [List.mem_singleton] at hm
  subst hm
  refine ⟨one_byte_header, [7], 511, one_byte_header_length, ?_, rfl, by decide, by decide, rfl⟩
  decide +kernel

/-- The members may come in two chunks that meet inside the header. -/
theorem an_archive_of_one_byte_in_two_chunks : ∃ expected,
    ExpectedArchive.new [one_byte_file] = .ok expected ∧
      (ArchiveValidator.new expected).validate [one_byte_header.take 100,
        one_byte_header.drop 100 ++ ([7] ++ List.replicate 511 0) ++
          List.replicate (BLOCK_BYTES * 2) 0] = .ok ⟨1, 1, 2048⟩ := by
  have hnew : ExpectedArchive.new [one_byte_file] = .ok ⟨[one_byte_file], 1⟩ := by rfl
  have hflat : [one_byte_header.take 100, one_byte_header.drop 100 ++
      ([7] ++ List.replicate 511 0) ++ List.replicate (BLOCK_BYTES * 2) 0].flatten =
        one_byte_archive := by
    unfold one_byte_archive
    simp only [List.flatten_cons, List.flatten_nil, List.append_nil, List.append_assoc]
    rw [← List.append_assoc, List.take_append_drop]
  refine ⟨_, hnew, ((the_validator_takes_the_archives_of_its_manifest hnew).1 _ _ ?_).mpr ⟨?_, ?_⟩⟩
  · decide +kernel
  · rw [hflat]
    exact one_byte_archive_of_its_manifest
  · decide +kernel

end openwrt_mcp_device_codec.archive
