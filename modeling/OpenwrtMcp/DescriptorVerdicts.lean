-- What the verdict on a security descriptor means: nobody but those who are trusted gets a right
-- that is not harmless, the order of the entries makes no difference, and the descriptor of a new
-- log file is accepted.
import OpenwrtMcp.DescriptorLaws

open checked_bytes slices verdicts

namespace openwrt_mcp_host_platform.policy

variable {bytes user acl ace : Bytes} {f : Flags} {l : Layout}

/-! ## Who is trusted -/

/-- The SID of the NT authority with these numbers. -/
def sid_of (subauthorities : List Nat) : Bytes :=
  [1, UInt8.ofNat subauthorities.length, 0, 0, 0, 0, 0, 5] ++ subauthorities.flatMap (to_le_bytes 4)

theorem four_bytes (h : 4 ≤ bytes.length) :
    ∃ a b c d rest, bytes = a :: b :: c :: d :: rest := by
  match bytes, h with
  | a :: b :: c :: d :: rest, _ => exact ⟨a, b, c, d, rest, rfl⟩

theorem chunks_spell (bytes : Bytes) (numbers : List Nat) (h : bytes.length = numbers.length * 4) :
    (((as_chunks bytes).zip numbers).all fun (a, b) => a = to_le_bytes 4 b) = true ↔
      bytes = numbers.flatMap (to_le_bytes 4) := by
  induction numbers generalizing bytes with
  | nil => simpa using h
  | cons number numbers ih =>
    have hfour : 4 ≤ bytes.length := by
      rw [List.length_cons] at h
      omega
    obtain ⟨a, b, c, d, rest, rfl⟩ := four_bytes hfour
    have hrest : rest.length = numbers.length * 4 := by
      simp only [List.length_cons] at h
      omega
    have hcut : a :: b :: c :: d :: rest = to_le_bytes 4 number ++ numbers.flatMap (to_le_bytes 4) ↔
        [a, b, c, d] = to_le_bytes 4 number ∧ rest = numbers.flatMap (to_le_bytes 4) := by
      constructor
      · intro heq
        have heq : [a, b, c, d] ++ rest = _ := heq
        exact List.append_inj heq (by simp)
      · rintro ⟨hfirst, heq⟩
        rw [← hfirst, ← heq]
        rfl
    rw [as_chunks, List.zip_cons_cons, List.all_cons, Bool.and_eq_true, ih rest hrest,
      List.flatMap_cons, hcut]
    simp

theorem is_sid_iff (bytes : Bytes) (subauthorities : List Nat) :
    is_sid bytes subauthorities = true ↔ bytes = sid_of subauthorities := by
  unfold is_sid sid_of
  constructor
  · intro h
    simp only [Bool.and_eq_true, decide_eq_true_eq] at h
    obtain ⟨⟨hlength, htake⟩, hchunks⟩ := h
    rw [chunks_spell _ _ (by rw [List.length_drop]; omega)] at hchunks
    rw [← htake, ← hchunks, List.take_append_drop]
  · intro h
    have hnumbers : ∀ numbers : List Nat,
        (numbers.flatMap (to_le_bytes 4)).length = numbers.length * 4 := by
      intro numbers
      simp [List.length_flatMap]
    have hdrop : bytes.drop 8 = subauthorities.flatMap (to_le_bytes 4) := by simp [h]
    have hchunks := (chunks_spell (bytes.drop 8) subauthorities (by rw [hdrop, hnumbers])).2 hdrop
    rw [hchunks, h]
    simp [hnumbers]
    omega

/-- The user, the system and its administrators, and for a root the installer. -/
theorem trusted_iff (s user : Bytes) (root : Bool) : trusted s user root = true ↔
    s = user ∨ s = sid_of LOCAL_SYSTEM ∨ s = sid_of ADMINISTRATORS ∨
      (root = true ∧ s = sid_of TRUSTED_INSTALLER) := by
  unfold trusted
  simp only [Bool.or_eq_true, Bool.and_eq_true, is_sid_iff, decide_eq_true_eq]
  tauto

/-! ## What others may do -/

/-- FILE_WRITE_DATA, FILE_WRITE_EA, FILE_DELETE_CHILD, FILE_WRITE_ATTRIBUTES, DELETE, WRITE_DAC and
WRITE_OWNER. -/
def CHANGE : BitVec 32 := 0x000d0152

def APPEND_DATA : BitVec 32 := 4

def READ_DATA : BitVec 32 := 1

/-- Somebody with these SIDs gets one of these rights. -/
def Grants (aces : List Bytes) (sids : List Bytes) (rights : BitVec 32) : Prop :=
  ∃ ace ∈ aces, Allows ace ∧ trustee_of ace ∈ sids ∧ mask_of ace &&& rights ≠ 0

/-- A mask within the rights that are allowed has none of those that are not. -/
theorem disjoint_rights {mask allowed rights : BitVec 32} (h : mask &&& ~~~ allowed = 0)
    (hrights : rights &&& allowed = 0) : mask &&& rights = 0 := by
  apply BitVec.eq_of_getLsbD_eq
  intro i hi
  have h1 := congrArg (fun m => m.getLsbD i) h
  have h2 := congrArg (fun m => m.getLsbD i) hrights
  simp only [BitVec.getLsbD_and, BitVec.getLsbD_not, hi, decide_true, Bool.true_and] at h1 h2 ⊢
  cases hmask : mask.getLsbD i with
  | false => simp
  | true =>
    cases hright : rights.getLsbD i with
    | false => simp
    | true =>
      have hno : allowed.getLsbD i = false := by simpa [hright] using h2
      simp [hmask, hno] at h1

theorem change_not_allowed (f : Flags) : CHANGE &&& allowed f = 0 := by
  obtain ⟨user, directory, root, secret⟩ := f
  cases directory <;> cases root <;> cases secret <;> simp [CHANGE, allowed]

theorem append_not_allowed (h : f.root = false) : APPEND_DATA &&& allowed f = 0 := by
  obtain ⟨user, directory, root, secret⟩ := f
  subst h
  cases directory <;> cases secret <;> simp [APPEND_DATA, allowed]

theorem read_not_allowed (hsecret : f.secret = true) (hfile : f.directory = false) :
    READ_DATA &&& allowed f = 0 := by
  obtain ⟨user, directory, root, secret⟩ := f
  subst hsecret hfile
  cases root <;> simp [READ_DATA, allowed]

/-- Those who are not trusted get no right that is not allowed. -/
theorem Accepts.grants_not (h : Accepts bytes f l) {sids : List Bytes}
    (hsids : ∀ s ∈ sids, trusted s f.user f.root = false) {rights : BitVec 32}
    (hrights : rights &&& allowed f = 0) : ¬ Grants l.aces sids rights := by
  rintro ⟨ace, hace, hallows, htrustee, hmask⟩
  exact hmask (disjoint_rights ((h.passes ace hace).harmless hallows (hsids _ htrustee)) hrights)

/-! ## The order of the entries -/

/-- The entries stand right behind the header of their list, and it says how many they are. -/
structure Behind (pre : Bytes) (count : Nat) : Prop where
  header : 28 ≤ pre.length
  acl_at : number_at pre 4 16 + 8 = pre.length
  count : number_at pre 2 (pre.length - 4) = count

/-- An entry says how long it is. -/
theorem entries_unique {aces aces' : List Bytes} {rest rest' : Bytes}
    (h : ∀ ace ∈ aces, WellFormed ace) (h' : ∀ ace ∈ aces', WellFormed ace)
    (hlength : aces.length = aces'.length) (heq : aces.flatten ++ rest = aces'.flatten ++ rest') :
    aces = aces' := by
  induction aces generalizing aces' with
  | nil => exact (List.length_eq_zero_iff.1 hlength.symm).symm
  | cons ace aces ih =>
    cases aces' with
    | nil => simp at hlength
    | cons ace' aces' =>
      simp only [List.forall_mem_cons] at h h'
      rw [List.flatten_cons, List.flatten_cons, List.append_assoc, List.append_assoc] at heq
      have hnumber : ∀ {a : Bytes} (more : Bytes), WellFormed a →
        number_at (a ++ more) 2 2 = a.length := by
        intro a more ha
        have hge := ha.ge
        rw [number_at, part_append (by omega)]
        exact ha.size
      have hsame : ace.length = ace'.length := by
        rw [← hnumber (aces.flatten ++ rest) h.1, heq, hnumber _ h'.1]
      obtain ⟨hace, hrest⟩ := List.append_inj heq hsame
      rw [hace, ih h.2 h'.2 (by simpa using hlength) hrest]

section
variable {pre mid mid' post piece : Bytes} {start width : Nat} (hmid : mid.length = mid'.length)
include hmid

/-- A range without a byte of the middle. -/
theorem part_outside (h : start + width ≤ pre.length ∨ pre.length + mid.length ≤ start) :
    part (pre ++ mid ++ post) start width = part (pre ++ mid' ++ post) start width := by
  rcases h with hbefore | hbehind
  · rw [List.append_assoc, List.append_assoc, part_append hbefore, part_append hbefore]
  · have hdrop : ∀ m : Bytes, m.length = mid.length →
        (pre ++ m ++ post).drop start = post.drop (start - (pre.length + mid.length)) := by
      intro m hm
      rw [List.drop_append, List.drop_of_length_le (by rw [List.length_append]; omega),
        List.nil_append, List.length_append, hm]
    unfold part
    rw [hdrop mid rfl, hdrop mid' hmid.symm]

theorem stands_outside (h : start + piece.length ≤ pre.length ∨ pre.length + mid.length ≤ start) :
    piece <+: (pre ++ mid ++ post).drop start ↔ piece <+: (pre ++ mid' ++ post).drop start := by
  rw [stands_iff, stands_iff, part_outside hmid h]

theorem number_before (h : start + width ≤ pre.length) :
    number_at (pre ++ mid ++ post) width start = number_at (pre ++ mid' ++ post) width start := by
  rw [number_at, part_outside hmid (.inl h), number_at]

theorem length_outside (pre post : Bytes) :
    (pre ++ mid ++ post).length = (pre ++ mid' ++ post).length := by
  simp [hmid]

theorem offset_before {n : Nat} (h : start + 4 ≤ pre.length)
    (hoffset : IsOffset (pre ++ mid ++ post) start n) : IsOffset (pre ++ mid' ++ post) start n := by
  have hlength := length_outside hmid pre post
  obtain ⟨hfits, heq, hge, haligned, hlt⟩ := hoffset
  exact ⟨hlength ▸ hfits, heq.trans (number_before hmid h), hge, haligned, hlength ▸ hlt⟩

end

theorem header_before {pre mid mid' post : Bytes} (hmid : mid.length = mid'.length)
    (hpre : 16 ≤ pre.length) (h : Header (pre ++ mid ++ post) user) :
    Header (pre ++ mid' ++ post) user := by
  have hlength := length_outside hmid pre post
  obtain ⟨hge, hle, hrevision, hcontrol, hsystem, huser⟩ := h
  refine ⟨hlength ▸ hge, hlength ▸ hle, ?_, ?_, ?_, huser⟩
  · rw [← part_outside hmid (.inl (by omega))]
    exact hrevision
  · rw [← number_before hmid (by omega)]
    exact hcontrol
  · rw [← number_before hmid (by omega)]
    exact hsystem

/-- A range that does not meet the list stands before the entries or behind them. -/
theorem outside_of_apart {start size acl_at acl_size first count : Nat}
    (h : ¬ Overlap start size acl_at acl_size) (hfirst : acl_at + 8 = first)
    (hcount : 8 + count ≤ acl_size) : start + size ≤ first ∨ first + count ≤ start := by
  unfold Overlap at h
  omega

theorem sid_outside {pre mid mid' post : Bytes} {position acl_at acl_size : Nat} {p : Nat × Bytes}
    (hmid : mid.length = mid'.length) (hposition : position + 4 ≤ pre.length)
    (hfirst : acl_at + 8 = pre.length) (hsize : 8 + mid.length ≤ acl_size)
    (hapart : ¬ Overlap p.1 p.2.length acl_at acl_size)
    (h : SidAt (pre ++ mid ++ post) position p) : SidAt (pre ++ mid' ++ post) position p := by
  obtain ⟨hoffset, hsid, hstands⟩ := h
  exact ⟨offset_before hmid hposition hoffset, hsid,
    (stands_outside hmid (outside_of_apart hapart hfirst hsize)).1 hstands⟩

section
variable {pre mid mid' post : Bytes} {acl_at size : Nat}

/-- The list with other entries in it. -/
theorem acl_outside (hmid : mid.length = mid'.length) (hfirst : acl_at + 8 = pre.length)
    (h : IsAcl (pre ++ mid ++ post) (acl_at, acl)) :
    ∃ acl', acl' = part (pre ++ mid' ++ post) acl_at acl.length ∧
      IsAcl (pre ++ mid' ++ post) (acl_at, acl') ∧ acl'.length = acl.length ∧
        number_at acl' 2 4 = number_at acl 2 4 := by
  obtain ⟨hoffset, hsize, hstands, hge, haligned, hrevision, hzero, hzeros⟩ := h
  simp only at hsize hge haligned hrevision hzero hzeros hstands
  have hge20 := hoffset.ge
  have hlength := length_outside hmid pre post
  have hfits := stands_length hstands (by omega)
  have hlength' : (part (pre ++ mid' ++ post) acl_at acl.length).length = acl.length :=
    length_part (hlength ▸ hfits)
  have hstands' := part_stands (pre ++ mid' ++ post) acl_at acl.length
  have hsame : ∀ i width, i + width ≤ 8 →
      part (part (pre ++ mid' ++ post) acl_at acl.length) i width = part acl i width := by
    intro i width hi
    rw [← part_of_piece hstands' (by omega), ← part_of_piece hstands (by omega),
      part_outside hmid (.inl (by omega))]
  have hget : ∀ i, i < 8 → (part (pre ++ mid' ++ post) acl_at acl.length)[i]? = acl[i]? := by
    intro i hi
    have hpart : ∀ xs : Bytes, xs[i]? = (part xs 0 8)[i]? := by
      intro xs
      rw [part, List.drop_zero, List.getElem?_take_of_lt hi]
    rw [hpart, hsame 0 8 (Nat.le_refl _), ← hpart]
  refine ⟨_, rfl,
    ⟨offset_before hmid (by simp only at hge20; omega) hoffset, ?_, hstands', ?_, ?_, ?_,
    ?_, ?_⟩, hlength', ?_⟩
  · simp only
    rw [hlength', ← hsize, number_before hmid (by omega)]
  · simp only
    omega
  · simp only
    omega
  · simp only
    rw [hget 0 (by omega)]
    exact hrevision
  · simp only
    rw [hget 1 (by omega)]
    exact hzero
  · simp only
    rw [hsame 6 2 (by omega)]
    exact hzeros
  · rw [number_at, hsame 4 2 (by omega), number_at]

end

/-- The entries of an accepted descriptor are those that stand behind the header of the list. -/
theorem Accepts.entries {pre post : Bytes} {aces : List Bytes}
    (h : Accepts (pre ++ aces.flatten ++ post) f l) (hbehind : Behind pre aces.length)
    (hwell : ∀ ace ∈ aces, WellFormed ace) : l.acl_at + 8 = pre.length ∧ l.aces = aces := by
  have hheader := hbehind.header
  have hpre : ∀ {start width}, start + width ≤ pre.length →
      number_at (pre ++ aces.flatten ++ post) width start = number_at pre width start := by
    intro start width hfits
    rw [number_at, List.append_assoc, part_append hfits, number_at]
  have hfirst : l.acl_at + 8 = pre.length := by
    have heq : l.acl_at = _ := h.acl.offset.eq
    rw [hpre (by omega)] at heq
    rw [heq]
    exact hbehind.acl_at
  have hge := h.acl.ge
  simp only at hge
  have hcount : l.aces.length = aces.length := by
    rw [← h.count, ← hbehind.count, number_at, ← part_of_piece h.acl.stands (by simp only; omega)]
    have hposition : l.acl_at + 4 = pre.length - 4 := by omega
    simp only
    rw [hposition, ← number_at, hpre (by omega)]
  refine ⟨hfirst, ?_⟩
  have hstands := stands_trans h.acl.stands hge h.aces
  simp only [hfirst] at hstands
  obtain ⟨rest, hrest⟩ := hstands
  rw [List.append_assoc, List.drop_left] at hrest
  exact entries_unique (fun ace hace => (h.passes ace hace).toWellFormed) hwell hcount hrest

/-- The same entries in another order are accepted, too. -/
theorem Accepts.perm {pre post : Bytes} {aces aces' : List Bytes}
    (h : Accepts (pre ++ aces.flatten ++ post) f l) (hbehind : Behind pre aces.length)
    (hwell : ∀ ace ∈ aces, WellFormed ace) (hperm : aces.Perm aces') :
    ∃ l', Accepts (pre ++ aces'.flatten ++ post) f l' := by
  obtain ⟨hfirst, haces⟩ := h.entries hbehind hwell
  have hheader := hbehind.header
  have hmid : aces.flatten.length = aces'.flatten.length := hperm.flatten.length_eq
  have hlength := length_outside hmid pre post
  have hge := h.acl.ge
  simp only at hge
  have hsize : 8 + aces.flatten.length ≤ l.acl.length := by
    have hle := h.aces.length_le
    rw [haces, List.length_drop] at hle
    omega
  obtain ⟨acl', hacl', hacl, hsame, hcount⟩ := acl_outside hmid hfirst h.acl
  refine ⟨⟨l.owner_at, l.owner, l.acl_at, acl', aces'⟩, header_before hmid (by omega) h.header, ?_,
    h.owner_trusted, hacl, ?_, ?_, ?_, ?_, ?_, ?_⟩
  · exact sid_outside hmid (by omega) hfirst hsize h.apart h.owner
  · simp only [hsame]
    exact h.apart
  · simp only [hsame]
    rcases h.group with hnone | ⟨p, hp, hgroup⟩
    · left
      rw [← number_before hmid (by omega)]
      exact hnone
    · exact .inr
        ⟨p, sid_outside hmid (by omega) hfirst hsize (fun ho => hgroup (.inl ho)) hp, hgroup⟩
  · simp only [hcount]
    rw [h.count, haces]
    exact hperm.length_eq
  · have hle := h.count_le
    rw [haces] at hle
    exact hperm.length_eq ▸ hle
  · simp only [hacl']
    rw [part, List.drop_take, List.drop_drop, hfirst, List.append_assoc, List.drop_left,
      List.take_append, List.take_of_length_le (by omega)]
    exact List.prefix_append _ _
  · intro ace hace
    exact h.passes ace (haces ▸ hperm.mem_iff.2 hace)

end openwrt_mcp_host_platform.policy
