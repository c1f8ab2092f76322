-- The descriptor of a new log file is accepted for every user, and what a verdict of the check is
-- good for.
import OpenwrtMcp.DescriptorVerdicts

open checked_bytes slices verdicts

namespace openwrt_mcp_host_platform.policy

variable {user bytes piece : Bytes} {width n start : Nat}

/-! ## The bytes of the descriptor -/

def log_head (acl_at : Nat) : Bytes :=
  [1, 0, 4, 0x90, 20, 0, 0, 0, 0, 0, 0, 0, 0, 0, 0, 0] ++ to_le_bytes 4 acl_at

def log_ace (user : Bytes) : Bytes :=
  [0, 0] ++ (to_le_bytes 2 (8 + user.length) ++ ([0xff, 0x01, 0x1f, 0] ++ user))

def log_acl (user : Bytes) : Bytes :=
  [2, 0] ++ (to_le_bytes 2 (16 + user.length) ++ ([1, 0, 0, 0] ++ log_ace user))

theorem log_bytes_eq (user : Bytes) :
    log_bytes user = log_head (20 + user.length) ++ (user ++ log_acl user) := by
  have hcontrol : to_le_bytes 2 0x9004 = [4, 0x90] := rfl
  have howner : to_le_bytes 4 20 = [20, 0, 0, 0] := rfl
  have hmask : to_le_bytes 4 0x001f01ff = [0xff, 0x01, 0x1f, 0] := rfl
  simp [log_bytes, log_head, log_acl, log_ace, copy_at, hcontrol, howner, hmask, List.replicate]
  congr 1
  omega

/-- A number that stands somewhere is read there. -/
theorem number_stands (h : to_le_bytes width n <+: bytes.drop start) (hn : n < 256 ^ width) :
    number_at bytes width start = n := by
  have hpart := stands_iff.1 h
  rw [length_to_le_bytes] at hpart
  rw [number_at, ← hpart, from_to_le_bytes hn]

theorem length_log_head (n : Nat) : (log_head n).length = 20 := by simp [log_head]

theorem length_log_ace (user : Bytes) : (log_ace user).length = 8 + user.length := by
  simp [log_ace]
  omega

theorem length_log_acl (user : Bytes) : (log_acl user).length = 16 + user.length := by
  simp [log_acl, length_log_ace]
  omega

theorem length_log_bytes (user : Bytes) : (log_bytes user).length = 36 + user.length * 2 := by
  rw [log_bytes_eq]
  simp [length_log_head, length_log_acl]
  omega

/-- A SID has whole words, and is short. -/
theorem IsSid.length_le (h : IsSid user) :
    12 ≤ user.length ∧ user.length ≤ 68 ∧ user.length % 4 = 0 := by
  obtain ⟨count, hrange, hlength, -⟩ := h
  omega

section
variable (h : IsSid user)
include h

theorem log_header : Header (log_bytes user) user := by
  have hlength := length_log_bytes user
  obtain ⟨hge, hle, -⟩ := h.length_le
  refine ⟨by omega, by unfold MAX_DESCRIPTOR; omega, ?_, ?_, ?_, h⟩
  · rw [log_bytes_eq]
    rfl
  · have hcontrol : number_at (log_bytes user) 2 2 = 0x9004 := by
      rw [log_bytes_eq]
      simp [log_head, number_at, part, from_le_bytes]
    rw [hcontrol]
    decide
  · rw [log_bytes_eq]
    rfl

theorem log_owner : SidAt (log_bytes user) 4 (20, user) := by
  have hlength := length_log_bytes user
  obtain ⟨hge, -, -⟩ := h.length_le
  refine ⟨⟨by omega, ?_, by omega, by omega, by simp only; omega⟩, h, ?_⟩
  · rw [log_bytes_eq]
    rfl
  · rw [log_bytes_eq, List.drop_left' (length_log_head _)]
    exact List.prefix_append _ _

theorem log_acl_is : IsAcl (log_bytes user) (20 + user.length, log_acl user) := by
  have hlength := length_log_bytes user
  have hacl := length_log_acl user
  obtain ⟨hge, hle, haligned⟩ := h.length_le
  have hstands : log_acl user <+: (log_bytes user).drop (20 + user.length) := by
    rw [log_bytes_eq, ← List.append_assoc, List.drop_left' (by simp [length_log_head])]
  refine ⟨⟨by omega, ?_, by simp only; omega, by simp only; omega, by simp only; omega⟩, ?_,
    hstands,
    by simp only; omega, by simp only; omega, .inl rfl, rfl, ?_⟩
  · refine (number_stands ?_ (by simp only; omega)).symm
    rw [log_bytes_eq]
    exact List.prefix_append _ _
  · simp only
    rw [number_at, part_of_piece hstands (by omega), ← number_at, hacl]
    exact number_stands (List.prefix_append _ _) (by omega)
  · simp [log_acl, part, to_le_bytes]

/-- The entry grants the user everything. -/
theorem log_ace_passes : Passes (log_flags user) (log_ace user) := by
  have hlength := length_log_ace user
  obtain ⟨hge, hle, haligned⟩ := h.length_le
  have hdrop : (log_ace user).drop 8 = user := by simp [log_ace, to_le_bytes]
  have hmask : mask_of (log_ace user) = 0x001f01ff := by
    have hnumber : number_at (log_ace user) 4 4 = 0x001f01ff := by
      refine number_stands ?_ (by omega)
      simp [log_ace, to_le_bytes]
    unfold mask_of
    rw [hnumber]
    decide
  refine ⟨⟨by omega, by omega, ?_, .inl rfl, ⟨0, rfl, rfl⟩, ?_⟩, ?_, ?_⟩
  · rw [hlength]
    exact number_stands (List.prefix_append _ _) (by omega)
  · rw [hdrop]
    exact h
  · rw [hmask]
    decide
  · intro _ huntrusted
    rw [trustee_of, hdrop] at huntrusted
    simp [trusted, log_flags] at huntrusted

theorem log_accepted : descriptor (log_bytes user) (log_flags user) = .ok () := by
  refine ((descriptor_checks _ _).ok_iff ()).2 ⟨⟨20, user, 20 + user.length, log_acl user,
    [log_ace user]⟩, log_header h, log_owner h, ?_, log_acl_is h, ?_, ?_, ?_, ?_, ?_, ?_⟩
  · simp [trusted, log_flags]
  · simp [Overlap]
  · left
    rw [log_bytes_eq]
    rfl
  · simp [log_acl, number_at, part, to_le_bytes, from_le_bytes]
  · simp
  · simp [log_acl, to_le_bytes]
  · simpa using log_ace_passes h

end

/-! ## The words of the descriptor -/

/-- Whole words spell the bytes that they are read from. -/
theorem words_spell (count : Nat) (bytes : Bytes) (h : bytes.length = count * 4) :
    ((as_chunks bytes).map from_le_bytes).flatMap (to_le_bytes 4) = bytes := by
  induction count generalizing bytes with
  | zero =>
    rw [List.length_eq_zero_iff.1 (by omega : bytes.length = 0)]
    rfl
  | succ count ih =>
    obtain ⟨a, b, c, d, rest, rfl⟩ := four_bytes (by omega : 4 ≤ bytes.length)
    have hrest : rest.length = count * 4 := by
      simp only [List.length_cons] at h
      omega
    have hword : to_le_bytes 4 (from_le_bytes [a, b, c, d]) = [a, b, c, d] :=
      to_from_le_bytes [a, b, c, d]
    rw [as_chunks, List.map_cons, List.flatMap_cons, ih rest hrest, hword]
    rfl

theorem words_lt (bytes : Bytes) : ∀ word ∈ (as_chunks bytes).map from_le_bytes, word < 2 ^ 32 := by
  fun_induction as_chunks bytes with
  | case1 a b c d rest ih =>
    simp only [List.map_cons, List.forall_mem_cons]
    have hlt : from_le_bytes [a, b, c, d] < 256 ^ 4 := from_le_bytes_lt [a, b, c, d]
    exact ⟨by omega, ih⟩
  | case2 bytes => simp

theorem log_descriptor_words (h : IsSid user) :
    log_descriptor user = .ok ((as_chunks (log_bytes user)).map from_le_bytes) := by
  have hsid : sid user = .ok user := ((sid_checks user).ok_iff user).2 ⟨h, List.prefix_rfl⟩
  have hrefuse : refuse_if (user ≠ user) = .ok () := by simp [refuse_if, verdicts.refuse_if]
  exact programs.except_bind_ok.2 ⟨user, hsid, programs.except_bind_ok.2 ⟨(), hrefuse,
    programs.except_bind_ok.2 ⟨(), log_accepted h, rfl⟩⟩⟩

/-- The check reads no byte out of bounds. What it accepts has an owner who is trusted and entries
that are well formed, and they grant those who are not trusted no right that is not harmless. The
order of the entries makes no difference. And the descriptor of a log file is accepted. -/
theorem a_descriptor_that_is_accepted_is_safe :
    (∀ bytes f, descriptor bytes f ≠ .error .panic) ∧
    (∀ bytes f, descriptor bytes f = .ok () → ∃ l, Accepts bytes f l ∧
      (l.owner = f.user ∨ l.owner = sid_of LOCAL_SYSTEM ∨ l.owner = sid_of ADMINISTRATORS ∨
        (f.root = true ∧ l.owner = sid_of TRUSTED_INSTALLER)) ∧
      ∀ sids : List Bytes, (∀ s ∈ sids, trusted s f.user f.root = false) →
        ¬ Grants l.aces sids CHANGE ∧ (f.root = false → ¬ Grants l.aces sids APPEND_DATA) ∧
        (f.secret = true → f.directory = false → ¬ Grants l.aces sids READ_DATA)) ∧
    (∀ (pre post : Bytes) (aces aces' : List Bytes) (f : Flags), Behind pre aces.length →
      (∀ ace ∈ aces, WellFormed ace) → aces.Perm aces' →
        descriptor (pre ++ aces.flatten ++ post) f = descriptor (pre ++ aces'.flatten ++ post) f) ∧
    ∀ user, sid user = .ok user → ∃ words, log_descriptor user = .ok words ∧
      (∀ word ∈ words, word < 2 ^ 32) ∧
        descriptor (words.flatMap (to_le_bytes 4)) (log_flags user) = .ok () := by
  refine ⟨fun bytes f => (descriptor_checks bytes f).no_panic, fun bytes f hok => ?_,
    fun pre post aces aces' f hbehind hwell hperm => ?_, fun user huser => ?_⟩
  · obtain ⟨l, hl⟩ := ((descriptor_checks bytes f).ok_iff ()).1 hok
    exact ⟨l, hl, (trusted_iff _ _ _).1 hl.owner_trusted, fun sids hsids =>
      ⟨hl.grants_not hsids (change_not_allowed f),
        fun hroot => hl.grants_not hsids (append_not_allowed hroot),
        fun hsecret hfile => hl.grants_not hsids (read_not_allowed hsecret hfile)⟩⟩
  · refine (descriptor_checks _ f).congr (descriptor_checks _ f) fun _ => ?_
    constructor
    · rintro ⟨l, hl⟩
      exact hl.perm hbehind hwell hperm
    · rintro ⟨l, hl⟩
      exact hl.perm (hperm.length_eq ▸ hbehind) (fun ace hace => hwell ace (hperm.mem_iff.2 hace))
        hperm.symm
  · have hsid : IsSid user := (((sid_checks user).ok_iff user).1 huser).1
    obtain ⟨-, -, haligned⟩ := hsid.length_le
    refine ⟨_, log_descriptor_words hsid, words_lt _, ?_⟩
    have hlength := length_log_bytes user
    rw [words_spell ((log_bytes user).length / 4) _ (by omega)]
    exact log_accepted hsid

/-- The identity of an account: the numbers of its domain, and its own. -/
def account : Bytes := sid_of [21, 1, 2, 3, 1001]

theorem the_descriptor_for_an_account_is_accepted : ∃ words, log_descriptor account = .ok words ∧
    (∀ word ∈ words, word < 2 ^ 32) ∧
      descriptor (words.flatMap (to_le_bytes 4)) (log_flags account) = .ok () :=
  a_descriptor_that_is_accepted_is_safe.2.2.2 account (by decide)

end openwrt_mcp_host_platform.policy
