-- The laws of the check of a security descriptor: it stays in bounds, what it accepts grants nobody
-- but those who are trusted a right that is not harmless, the order of the entries makes no
-- difference, and it accepts the descriptor of a log file.
import OpenwrtMcp.SecurityDescriptor

open checked_bytes slices verdicts

namespace openwrt_mcp_host_platform.policy

variable {bytes user acl ace : Bytes} {f : Flags}

/-- The check gives the values that are described, and else it refuses. -/
abbrev Checks {α : Type} (x : Outcome α) (P : α → Prop) : Prop := Decides .Insecure x P

/-! ## Numbers and offsets -/

theorem u16_at_checks (bytes : Bytes) (position : Nat) :
    Checks (u16_at bytes position) fun n =>
      position + 2 ≤ bytes.length ∧ n = number_at bytes 2 position :=
  (Decides.bind (get_decides position 2) fun _ _ => Decides.ok _).conseq fun n => by
    simp [number_at]

theorem u32_at_checks (bytes : Bytes) (position : Nat) :
    Checks (u32_at bytes position) fun n =>
      position + 4 ≤ bytes.length ∧ n = number_at bytes 4 position :=
  (Decides.bind (get_decides position 4) fun _ _ => Decides.ok _).conseq fun n => by
    simp [number_at]

/-- An offset that points into the bytes, behind the header. -/
structure IsOffset (bytes : Bytes) (position n : Nat) : Prop where
  fits : position + 4 ≤ bytes.length
  eq : n = number_at bytes 4 position
  ge : 20 ≤ n
  aligned : n % 4 = 0
  lt : n < bytes.length

theorem offset_checks (bytes : Bytes) (position : Nat) :
    Checks (offset bytes position) (IsOffset bytes position) := by
  refine (Decides.bind (u32_at_checks bytes position) fun n _ =>
    Decides.test fun _ => Decides.ok n).conseq fun n => ?_
  constructor
  · rintro ⟨m, ⟨hfits, heq⟩, hgood, rfl⟩
    exact ⟨hfits, heq, by omega, by omega, by omega⟩
  · rintro ⟨hfits, heq, hge, haligned, hlt⟩
    exact ⟨n, ⟨hfits, heq⟩, by omega, rfl⟩

/-! ## Security identifiers -/

/-- A revision, a count from 1 to 15, an authority and so many numbers. -/
def IsSid (s : Bytes) : Prop :=
  ∃ count : UInt8, (1 ≤ count.toNat ∧ count.toNat ≤ 15) ∧ s.length = 8 + count.toNat * 4 ∧
    s.take 2 = [1, count]

theorem IsSid.pos {s : Bytes} (h : IsSid s) : 0 < s.length := by
  obtain ⟨count, -, hlength, -⟩ := h
  omega

theorem sid_checks (bytes : Bytes) : Checks (sid bytes) fun s => IsSid s ∧ s <+: bytes := by
  have hrun : Checks (sid bytes) fun s => ¬ bytes.length < 8 ∧ ∃ revision,
    bytes[0]? = some revision ∧
      ¬ revision ≠ 1 ∧ ∃ count, bytes[1]? = some count ∧
        ¬ ¬ (1 ≤ count.toNat ∧ count.toNat ≤ 15) ∧ get bytes 0 (8 + count.toNat * 4) = some s :=
    Decides.test fun hlong => Decides.bind (Decides.index (by omega)) fun revision _ =>
      Decides.test fun _ => Decides.bind (Decides.index (by omega)) fun count _ =>
        Decides.test fun _ => Decides.ok_or _
  refine hrun.conseq fun s => ?_
  constructor
  · rintro ⟨hlong, revision, hrevision, hone, count, hcount, hrange, hget⟩
    obtain ⟨-, hlength, hs⟩ := get_eq_some.1 hget
    rw [not_not] at hone hrange
    have hs' : s = bytes.take (8 + count.toNat * 4) := by simpa [part] using hs
    refine ⟨⟨count, hrange, ?_, ?_⟩, hs' ▸ List.take_prefix _ _⟩
    · rw [hs', List.length_take]
      omega
    · rw [hs', List.take_take, Nat.min_eq_left (by omega)]
      obtain ⟨a, b, rest, rfl⟩ : ∃ a b rest, bytes = a :: b :: rest := by
        match bytes, hlong with
        | a :: b :: rest, _ => exact ⟨a, b, rest, rfl⟩
        | [_], h => simp at h
        | [], h => simp at h
      simp only [List.getElem?_cons_zero, List.getElem?_cons_succ,
        Option.some.injEq] at hrevision hcount
      simp [hrevision, hone, hcount]
  · rintro ⟨⟨count, hrange, hlength, htake⟩, rest, rfl⟩
    obtain ⟨a, b, more, rfl⟩ : ∃ a b more, s = a :: b :: more := by
      match s, hlength with
      | a :: b :: more, _ => exact ⟨a, b, more, rfl⟩
      | [_], h => simp at h; omega
      | [], h => simp at h; omega
    simp only [List.take_succ_cons, List.take_zero, List.cons.injEq, and_true] at htake
    obtain ⟨rfl, rfl⟩ := htake
    have hfits : 8 + b.toNat * 4 ≤ (1 :: b :: more ++ rest).length := by
      rw [List.length_append]
      omega
    refine ⟨by omega, 1, rfl, by simp, b, rfl, not_not.2 hrange, ?_⟩
    rw [get_eq_some]
    refine ⟨Nat.zero_le _, hfits, ?_⟩
    unfold part
    rw [List.drop_zero, Nat.sub_zero, ← hlength, List.take_left]

theorem rest_from_checks {position : Nat} (h : position ≤ bytes.length) :
    Checks (rest_from bytes position) (· = bytes.drop position) := by
  refine (Decides.slice h (Nat.le_refl _)).conseq fun rest => ?_
  rw [List.take_of_length_le (by rw [List.length_drop])]

/-- A SID that stands at an offset. -/
def SidAt (bytes : Bytes) (position : Nat) (p : Nat × Bytes) : Prop :=
  IsOffset bytes position p.1 ∧ IsSid p.2 ∧ p.2 <+: bytes.drop p.1

theorem sid_at_checks (bytes : Bytes) (position : Nat) :
    Checks (sid_at bytes position) (SidAt bytes position) := by
  refine (Decides.bind (offset_checks bytes position) fun start hstart =>
    Decides.bind (rest_from_checks (Nat.le_of_lt hstart.lt)) fun rest _ =>
      Decides.bind (sid_checks rest) fun found _ => Decides.ok (start, found)).conseq fun p => ?_
  constructor
  · rintro ⟨start, hstart, rest, rfl, found, ⟨hsid, hstands⟩, rfl⟩
    exact ⟨hstart, hsid, hstands⟩
  · rintro ⟨hstart, hsid, hstands⟩
    exact ⟨p.1, hstart, _, rfl, p.2, ⟨hsid, hstands⟩, rfl⟩

/-! ## The rights of a file -/

/-- The rights of a file that one generic right stands for. -/
theorem generic_of_one : generic 0x80000000 = 0x00120089 ∧ generic 0x40000000 = 0x00120116 ∧
    generic 0x20000000 = 0x001200a0 ∧ generic 0x10000000 = 0x001f01ff := by decide

/-- What one generic right adds. -/
def mapped (mask bit rights : BitVec 32) : BitVec 32 := if mask &&& bit ≠ 0 then rights else 0

theorem mapped_or (a b bit rights : BitVec 32) :
    mapped (a ||| b) bit rights = mapped a bit rights ||| mapped b bit rights := by
  have hbits : (a ||| b) &&& bit = (a &&& bit) ||| (b &&& bit) := by
    ext i
    simp [Bool.and_or_distrib_right]
  unfold mapped
  rw [hbits]
  by_cases ha : a &&& bit = 0#32
  · by_cases hb : b &&& bit = 0#32
    · simp [ha, hb]
    · simp [ha, hb]
  · by_cases hb : b &&& bit = 0#32
    · simp [ha, hb]
    · simp [ha, hb]

theorem generic_eq (mask : BitVec 32) : generic mask = mask &&& 0x0fffffff |||
    mapped mask 0x80000000 0x00120089 ||| mapped mask 0x40000000 0x00120116 |||
    mapped mask 0x20000000 0x001200a0 ||| mapped mask 0x10000000 0x001f01ff := by
  unfold generic mapped
  split_ifs <;> simp

/-- The rights of a mask are those of its parts. -/
theorem generic_or (a b : BitVec 32) : generic (a ||| b) = generic a ||| generic b := by
  have hbits : (a ||| b) &&& 0x0fffffff = (a &&& 0x0fffffff) ||| (b &&& 0x0fffffff) := by
    ext i
    simp [Bool.and_or_distrib_right]
  rw [generic_eq, generic_eq, generic_eq, hbits, mapped_or, mapped_or, mapped_or, mapped_or]
  ac_rfl

/-! ## The parts of the check -/

/-- What the header says, and the user is a SID. -/
structure Header (bytes user : Bytes) : Prop where
  ge : 20 ≤ bytes.length
  le : bytes.length ≤ MAX_DESCRIPTOR
  revision : part bytes 0 2 = [1, 0]
  control : number_at bytes 2 2 &&& 0x8004 = 0x8004
  system_acl : number_at bytes 4 12 = 0
  user : IsSid user

theorem check_header_checks (bytes user : Bytes) :
    Checks (check_header bytes user) fun _ => Header bytes user := by
  refine (Decides.test fun hshort => Decides.test fun hlong =>
    Decides.bind (Decides.slice (by omega) (by omega)) fun revision _ => Decides.test fun _ =>
      Decides.bind (u16_at_checks bytes 2) fun control _ => Decides.test fun _ =>
        Decides.bind (u32_at_checks bytes 12) fun system_acl _ => Decides.test fun _ =>
          Decides.bind (sid_checks user) fun whole _ => Decides.refuse_if _).conseq fun _ => ?_
  constructor
  · rintro ⟨hge, hle, revision, rfl, hrevision, control, ⟨-, rfl⟩, hcontrol, system_acl, ⟨-, rfl⟩,
      hsystem, whole, ⟨hsid, -⟩, hwhole⟩
    rw [not_not] at hrevision hcontrol hsystem hwhole
    exact ⟨by omega, by omega, hrevision, hcontrol, hsystem, hwhole ▸ hsid⟩
  · rintro ⟨hge, hle, hrevision, hcontrol, hsystem, huser⟩
    exact ⟨by omega, by omega, _, rfl, not_not.2 hrevision, _, ⟨by omega, rfl⟩,
      not_not.2 hcontrol, _,
      ⟨by omega, rfl⟩, not_not.2 hsystem, user, ⟨huser, List.prefix_rfl⟩, not_not.2 rfl⟩

/-- The list of entries stands in the bytes, with a header of its own. -/
structure IsAcl (bytes : Bytes) (p : Nat × Bytes) : Prop where
  offset : IsOffset bytes 16 p.1
  size : number_at bytes 2 (p.1 + 2) = p.2.length
  stands : p.2 <+: bytes.drop p.1
  ge : 8 ≤ p.2.length
  aligned : p.2.length % 4 = 0
  revision : p.2[0]? = some 2 ∨ p.2[0]? = some 4
  zero : p.2[1]? = some 0
  zeros : part p.2 6 2 = [0, 0]

theorem read_acl_checks (bytes : Bytes) : Checks (read_acl bytes) (IsAcl bytes) := by
  refine (Decides.bind (offset_checks bytes 16) fun acl_at _ =>
    Decides.bind (u16_at_checks bytes (acl_at + 2)) fun acl_size _ =>
      Decides.bind (get_decides acl_at acl_size) fun acl _ =>
        Decides.test fun hshort => Decides.test fun _ =>
          Decides.bind (Decides.index (by omega)) fun revision _ => Decides.test fun _ =>
            Decides.bind (Decides.index (by omega)) fun zero _ => Decides.test fun _ =>
              Decides.bind (Decides.slice (by omega) (by omega)) fun zeros _ =>
                Decides.test fun _ => Decides.ok (acl_at, acl)).conseq fun p => ?_
  constructor
  · rintro ⟨acl_at, hoffset, acl_size, ⟨-, rfl⟩, acl, ⟨hfits, rfl⟩, hge, haligned, revision,
      hrevision, hgood, zero, hzero, hnull, zeros, rfl, hnulls, rfl⟩
    rw [not_not] at hnull hnulls haligned
    have hrevision' : revision = 2 ∨ revision = 4 := by tauto
    refine ⟨hoffset, (length_part hfits).symm, part_stands _ _ _, Nat.le_of_not_lt hge,
      haligned, ?_, ?_, hnulls⟩
    · rcases hrevision' with rfl | rfl
      · exact .inl hrevision
      · exact .inr hrevision
    · rw [hzero, hnull]
  · rintro ⟨hoffset, hsize, hstands, hge, haligned, hrevision, hzero, hzeros⟩
    have hfits := stands_length hstands (by omega)
    refine ⟨p.1, hoffset, _, ⟨by omega, rfl⟩, p.2, ?_, by omega, not_not.2 haligned, ?_⟩
    · rw [hsize]
      exact ⟨hfits, stands_iff.1 hstands⟩
    · have hrest : ∃ zero, p.2[1]? = some zero ∧ ¬ zero ≠ 0 ∧ ∃ zeros,
          zeros = (p.2.drop 6).take (8 - 6) ∧ ¬ zeros ≠ [0, 0] ∧ p = (p.1, p.2) :=
        ⟨0, hzero, by simp, _, rfl, not_not.2 hzeros, rfl⟩
      rcases hrevision with h | h
      · exact ⟨2, h, by simp, hrest⟩
      · exact ⟨4, h, by simp, hrest⟩

/-- The group, if there is one, stands apart from the entries and from the owner. -/
def GroupApart (bytes : Bytes) (owner_at : Nat) (owner : Bytes) (acl_at acl_size : Nat) : Prop :=
  number_at bytes 4 8 = 0 ∨ ∃ p, SidAt bytes 8 p ∧
    ¬ (Overlap p.1 p.2.length acl_at acl_size ∨
      (p.1 ≠ owner_at ∧ Overlap p.1 p.2.length owner_at owner.length))

theorem group_checks (bytes owner : Bytes) (owner_at acl_at acl_size : Nat) :
    Checks (do
      let (start, group) ← sid_at bytes 8
      refuse_if (Overlap start group.length acl_at acl_size ∨
        (start ≠ owner_at ∧ Overlap start group.length owner_at owner.length)))
      fun _ => ∃ p, SidAt bytes 8 p ∧ ¬ (Overlap p.1 p.2.length acl_at acl_size ∨
        (p.1 ≠ owner_at ∧ Overlap p.1 p.2.length owner_at owner.length)) :=
  Decides.bind (sid_at_checks bytes 8) fun _ _ => Decides.refuse_if _

theorem check_group_checks (bytes owner : Bytes) (owner_at acl_at acl_size : Nat)
    (h : 20 ≤ bytes.length) : Checks (check_group bytes owner_at owner acl_at acl_size) fun _ =>
      GroupApart bytes owner_at owner acl_at acl_size := by
  have hgroup := group_checks bytes owner owner_at acl_at acl_size
  refine (Decides.bind (u32_at_checks bytes 8) (R := fun n _ => n = 0 ∨ ∃ p, SidAt bytes 8 p ∧
    ¬ (Overlap p.1 p.2.length acl_at acl_size ∨
      (p.1 ≠ owner_at ∧ Overlap p.1 p.2.length owner_at owner.length))) fun n _ => ?_).conseq
    fun _ => ?_
  · split
    · rename_i hsome
      exact hgroup.conseq fun _ => by simp [hsome]
    · rename_i hnone
      exact (Decides.ok ()).conseq fun _ => by simp [not_not.1 hnone]
  · unfold GroupApart
    constructor
    · rintro ⟨n, ⟨-, rfl⟩, h⟩
      exact h
    · intro hgroup
      exact ⟨_, ⟨by omega, rfl⟩, hgroup⟩

/-! ## The entries -/

/-- An entry that allows or denies, with a trustee up to its end. -/
structure WellFormed (ace : Bytes) : Prop where
  ge : 20 ≤ ace.length
  aligned : ace.length % 4 = 0
  size : number_at ace 2 2 = ace.length
  kind : ace[0]? = some 0 ∨ ace[0]? = some 1
  flags : ∃ flags, ace[1]? = some flags ∧ flags &&& ~~~ 0x1f = 0
  trustee : IsSid (ace.drop 8)

def mask_of (ace : Bytes) : BitVec 32 := generic (BitVec.ofNat 32 (number_at ace 4 4))

def trustee_of (ace : Bytes) : Bytes := ace.drop 8

/-- An entry that allows something on the object itself. -/
def Allows (ace : Bytes) : Prop :=
  ace[0]? = some 0 ∧ ∃ flags, ace[1]? = some flags ∧ flags &&& 0x08 = 0

/-- An entry that the check lets pass. -/
structure Passes (f : Flags) (ace : Bytes) : Prop extends WellFormed ace where
  file_rights : mask_of ace &&& ~~~ 0x001f01ff = 0
  harmless : Allows ace → trusted (trustee_of ace) f.user f.root = false →
    mask_of ace &&& ~~~ (allowed f) = 0

theorem read_ace_checks (acl : Bytes) (f : Flags) (cursor : Nat) :
    Checks (read_ace acl f cursor) fun ace => Passes f ace ∧ ace <+: acl.drop cursor := by
  refine (Decides.bind (u16_at_checks acl (cursor + 2)) fun size _ =>
    Decides.bind (get_decides cursor size) fun ace hace => Decides.test fun hsize =>
      have hlength : ace.length = size := hace.2 ▸ length_part hace.1
      Decides.bind (Decides.index (by omega)) fun kind _ => Decides.test fun _ =>
        Decides.bind (Decides.index (by omega)) fun flags _ => Decides.test fun _ =>
          Decides.bind (rest_from_checks (by omega)) fun rest _ =>
            Decides.bind (sid_checks rest) fun trustee _ => Decides.test fun _ =>
              Decides.bind (u32_at_checks ace 4) fun value _ => Decides.test fun _ =>
                Decides.test fun _ => Decides.ok ace).conseq fun ace => ?_
  constructor
  · rintro ⟨size, ⟨-, hsize⟩, found, ⟨hfits, hfound⟩, hgood, kind, hkind, hkinds, flags, hflags,
      hknown, rest, rfl, trustee, ⟨hsid, hstands⟩, hall, value, ⟨-, rfl⟩, hrights, hharmless, rfl⟩
    rw [not_not] at hknown hall hrights
    have hlength : ace.length = size := by
      rw [hfound]
      exact length_part hfits
    have hstands' : ace <+: acl.drop cursor := by
      rw [hfound]
      exact part_stands _ _ _
    have htrustee : trustee = ace.drop 8 :=
      hstands.eq_of_length (by rw [List.length_drop]; omega)
    refine ⟨⟨⟨by omega, by omega, ?_, ?_, ⟨flags, hflags, hknown⟩, htrustee ▸ hsid⟩, hrights, ?_⟩,
      hstands'⟩
    · rw [number_at, ← part_of_piece hstands' (by omega), hlength, hsize, number_at]
    · have hkind' : kind = 0 ∨ kind = 1 := by tauto
      rcases hkind' with rfl | rfl
      · exact .inl hkind
      · exact .inr hkind
    · rintro ⟨hallow, flags', hflags', heffective⟩ huntrusted
      have hzero : kind = 0 := by simpa [hkind] using hallow
      have hsame : flags' = flags := by simpa [hflags] using hflags'.symm
      by_contra hmask
      refine hharmless ⟨hzero, hsame ▸ heffective, ?_, hmask⟩
      rw [htrustee]
      simpa [trustee_of] using huntrusted
  · rintro ⟨⟨⟨hge, haligned, hsize, hkind, ⟨flags, hflags, hknown⟩, htrustee⟩, hrights, hharmless⟩,
      hstands⟩
    have hfits := stands_length hstands (by omega)
    have hnumber : number_at acl 2 (cursor + 2) = ace.length := by
      rw [number_at, part_of_piece hstands (by omega)]
      exact hsize
    have hrest : ∀ kind, ace[0]? = some kind → (kind = 0 ∨ kind = 1) → ∃ kind,
        ace[0]? = some kind ∧ ¬ (kind ≠ 0 ∧ kind ≠ 1) ∧ ¬ (kind = 0 ∧ flags &&& 0x08 = 0 ∧
          ¬ trusted (ace.drop 8) f.user f.root ∧ mask_of ace &&& ~~~ (allowed f) ≠ 0) := by
      intro kind hkind hkinds
      refine ⟨kind, hkind, by tauto, ?_⟩
      rintro ⟨rfl, heffective, huntrusted, hmask⟩
      exact hmask (hharmless ⟨hkind, flags, hflags, heffective⟩ (by
        simpa [trustee_of] using huntrusted))
    obtain ⟨kind, hkind, hkinds, hharmless⟩ : ∃ kind, ace[0]? = some kind ∧
        ¬ (kind ≠ 0 ∧ kind ≠ 1) ∧ ¬ (kind = 0 ∧ flags &&& 0x08 = 0 ∧
          ¬ trusted (ace.drop 8) f.user f.root ∧ mask_of ace &&& ~~~ (allowed f) ≠ 0) := by
      rcases hkind with h | h
      · exact hrest 0 h (.inl rfl)
      · exact hrest 1 h (.inr rfl)
    refine ⟨_, ⟨by omega, rfl⟩, ace, ?_, by omega, kind, hkind, hkinds, flags, hflags,
      not_not.2 hknown, _, rfl, _, ⟨htrustee, List.prefix_rfl⟩, ?_, _, ⟨by omega, rfl⟩,
      not_not.2 hrights, hharmless, rfl⟩
    · rw [hnumber]
      exact ⟨hfits, stands_iff.1 hstands⟩
    · rw [not_not, List.length_drop]
      omega

/-- The entries that the check reads stand one after the other. -/
theorem check_aces_checks (acl : Bytes) (f : Flags) (todo cursor : Nat) :
    Checks (check_aces acl f todo cursor) fun _ => ∃ aces : List Bytes, aces.length = todo ∧
      aces.flatten <+: acl.drop cursor ∧ ∀ ace ∈ aces, Passes f ace := by
  induction todo generalizing cursor with
  | zero =>
    refine (Decides.ok ()).conseq fun _ => ?_
    simp
  | succ todo ih =>
    refine (Decides.bind (read_ace_checks acl f cursor) fun ace _ => ih _).conseq fun _ => ?_
    constructor
    · rintro ⟨ace, ⟨hpasses, hstands⟩, aces, hlength, hrest, hall⟩
      obtain ⟨more, hmore⟩ := hstands
      refine ⟨ace :: aces, by simp [hlength], ?_, by simpa using ⟨hpasses, hall⟩⟩
      rw [← List.drop_drop, ← hmore, List.drop_left] at hrest
      rw [List.flatten_cons, ← hmore]
      exact List.prefix_append_right_inj _ |>.2 hrest
    · rintro ⟨aces, hlength, hstands, hall⟩
      cases aces with
      | nil => simp at hlength
      | cons ace aces =>
        rw [List.flatten_cons] at hstands
        obtain ⟨more, hmore⟩ := hstands
        simp only [List.forall_mem_cons] at hall
        rw [List.append_assoc] at hmore
        refine ⟨ace, ⟨hall.1, ⟨_, hmore⟩⟩, aces, by simpa using hlength, ?_, hall.2⟩
        rw [← List.drop_drop, ← hmore, List.drop_left]
        exact List.prefix_append _ _

/-! ## The whole check -/

/-- What stands where in a descriptor. -/
structure Layout where
  owner_at : Nat
  owner : Bytes
  acl_at : Nat
  acl : Bytes
  aces : List Bytes

/-- The descriptor has that layout, and all of it is fine. -/
structure Accepts (bytes : Bytes) (f : Flags) (l : Layout) : Prop where
  header : Header bytes f.user
  owner : SidAt bytes 4 (l.owner_at, l.owner)
  owner_trusted : trusted l.owner f.user f.root = true
  acl : IsAcl bytes (l.acl_at, l.acl)
  apart : ¬ Overlap l.owner_at l.owner.length l.acl_at l.acl.length
  group : GroupApart bytes l.owner_at l.owner l.acl_at l.acl.length
  count : number_at l.acl 2 4 = l.aces.length
  count_le : l.aces.length ≤ 4096
  aces : l.aces.flatten <+: l.acl.drop 8
  passes : ∀ ace ∈ l.aces, Passes f ace

theorem descriptor_checks (bytes : Bytes) (f : Flags) :
    Checks (descriptor bytes f) fun _ => ∃ l, Accepts bytes f l := by
  refine (Decides.bind (check_header_checks bytes f.user) fun _ hheader =>
    Decides.bind (sid_at_checks bytes 4) fun owner _ => Decides.test fun _ =>
      Decides.bind (read_acl_checks bytes) fun acl _ => Decides.test fun _ =>
        Decides.bind (check_group_checks bytes owner.2 owner.1 acl.1 acl.2.length hheader.ge)
          fun _ _ => Decides.bind (u16_at_checks acl.2 4) fun count _ => Decides.test fun _ =>
            check_aces_checks acl.2 f count 8).conseq fun _ => ?_
  constructor
  · rintro ⟨_, hheader, owner, howner, htrusted, acl, hacl, hapart, _, hgroup, count, ⟨-, rfl⟩,
      hcount, aces, hlength, hstands, hpasses⟩
    refine ⟨⟨owner.1, owner.2, acl.1, acl.2, aces⟩, hheader, howner, ?_, hacl, hapart, hgroup,
      hlength.symm, by rw [hlength]; omega, hstands, hpasses⟩
    simpa using htrusted
  · rintro ⟨l, h⟩
    have hcount := h.count
    have hle := h.count_le
    have hge := h.acl.ge
    exact ⟨(), h.header, _, h.owner, by simpa using h.owner_trusted, _, h.acl, h.apart, (),
      h.group, _,
      ⟨by simp only at hge ⊢; omega, rfl⟩, by simp only; omega, l.aces, hcount.symm, h.aces,
      h.passes⟩

end openwrt_mcp_host_platform.policy
