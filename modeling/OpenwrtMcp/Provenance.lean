-- The authentication of the record store by HMAC. The `hmac` crate is a parameter; what is fed to
-- it says for which purpose and over which parts, so a tag for one is none for another.
import OpenwrtMcp.LengthPrefixed
import OpenwrtMcp.RecordFormat

open big_endian slices text openwrt_mcp_runtime.backups openwrt_mcp_adapters.backups

namespace openwrt_mcp_crypto_age.provenance

/-- `Hmac<Sha256>` -/
structure Hmac where
  State : Type
  new_from_slice : List UInt8 → Option State
  update : State → List UInt8 → State
  finalize : State → Tag
  verify_slice : State → List UInt8 → Bool

structure HmacSha256 where
  key : List UInt8
  length_key : key.length = 32

namespace HmacSha256

def new (material : List UInt8) : Except BackupError HmacSha256 :=
  if h : material.length = 32 then .ok ⟨material, h⟩ else .error .Invalid

def label : MacPurpose → List UInt8
  | .StoreHeader => ascii "openwrt-mcp/store-header/v1" ++ [0]
  | .ArtifactRecord => ascii "openwrt-mcp/artifact-record/v1" ++ [0]

section
variable (hmac : Hmac) (self : HmacSha256)

/-- The loop over the parts. -/
def update_parts : List (List UInt8) → hmac.State → hmac.State
  | [], state => state
  | part :: rest, state =>
    let state := hmac.update state (to_be_bytes 8 part.length)
    let state := hmac.update state part
    update_parts rest state

def mac (purpose : MacPurpose) (parts : List (List UInt8)) : Except BackupError hmac.State :=
  if parts.length > 4 ∨ parts.any fun p => p.length > 1048576 then .error .Limit
  else
    match hmac.new_from_slice self.key with
    | none => .error .Invalid
    | some state => .ok (update_parts hmac parts (hmac.update state (label purpose)))

def tag (purpose : MacPurpose) (parts : List (List UInt8)) : Except BackupError Tag := do
  let state ← mac hmac self purpose parts
  .ok (hmac.finalize state)

def verify (purpose : MacPurpose) (parts : List (List UInt8)) (tag : List UInt8) :
    Except BackupError Unit := do
  let state ← mac hmac self purpose parts
  if hmac.verify_slice state tag then .ok () else .error .Integrity

end

/-! ## What is fed to HMAC -/

/-- Parts that `mac` takes. -/
def Within (parts : List (List UInt8)) : Prop :=
  parts.length ≤ 4 ∧ ∀ p ∈ parts, p.length ≤ 1048576

/-- The bytes of all updates, one after the other. -/
def input (purpose : MacPurpose) (parts : List (List UInt8)) : List UInt8 :=
  label purpose ++ parts.flatMap (prefixed 8)

/-- A state is only what was fed to it. -/
def Streams (hmac : Hmac) : Prop :=
  ∀ state a b, hmac.update (hmac.update state a) b = hmac.update state (a ++ b)

/-- An `Hmac` that only keeps what is fed to it. -/
def recorder : Hmac where
  State := List UInt8
  new_from_slice _ := some []
  update := (· ++ ·)
  finalize _ := zero_tag
  verify_slice _ _ := false

theorem recorder_streams : Streams recorder := fun _ _ _ => List.append_assoc _ _ _

variable {hmac : Hmac} {purpose purpose' : MacPurpose} {parts parts' : List (List UInt8)}

theorem update_parts_eq (hstreams : Streams hmac) (parts : List (List UInt8)) (state : hmac.State)
    (fed : List UInt8) :
    update_parts hmac parts (hmac.update state fed) =
      hmac.update state (fed ++ parts.flatMap (prefixed 8)) := by
  induction parts generalizing fed with
  | nil => simp [update_parts]
  | cons part rest ih =>
    simp only [update_parts]
    rw [hstreams, hstreams, ih, List.flatMap_cons]
    simp only [prefixed, List.append_assoc]

theorem within_iff : Within parts ↔
    ¬ (parts.length > 4 ∨ (parts.any fun p => p.length > 1048576) = true) := by
  simp [Within]

/-- `mac` feeds the input, whatever `hmac` is. -/
theorem mac_eq (hstreams : Streams hmac) (self : HmacSha256) (h : Within parts) :
    mac hmac self purpose parts = match hmac.new_from_slice self.key with
      | none => .error .Invalid
      | some state => .ok (hmac.update state (input purpose parts)) := by
  unfold mac
  rw [if_neg (within_iff.1 h)]
  cases hmac.new_from_slice self.key with
  | none => rfl
  | some state => simp [update_parts_eq hstreams, input]

theorem Within.length_lt (h : Within parts) : ∀ p ∈ parts, p.length < 256 ^ 8 := by
  intro p hp
  have hle := h.2 p hp
  omega

theorem take_label (purpose : MacPurpose) (x : List UInt8) :
    (label purpose ++ x).take 13 = (label purpose).take 13 := by
  have hlength : 13 ≤ (label purpose).length := by
    cases purpose with
    | StoreHeader => decide
    | ArtifactRecord => decide
  exact List.take_append_of_le_length hlength

/-- The labels differ in a byte that both of them have. -/
theorem label_cut {x y : List UInt8} (h : label purpose ++ x = label purpose' ++ y) :
    purpose = purpose' := by
  have hdiffer : (label .StoreHeader).take 13 ≠ (label .ArtifactRecord).take 13 := by decide
  have htake := congrArg (List.take 13) h
  rw [take_label, take_label] at htake
  cases purpose with
  | StoreHeader =>
    cases purpose' with
    | StoreHeader => rfl
    | ArtifactRecord => exact absurd htake hdiffer
  | ArtifactRecord =>
    cases purpose' with
    | StoreHeader => exact absurd htake.symm hdiffer
    | ArtifactRecord => rfl

theorem input_injective (hparts : Within parts) (hparts' : Within parts')
    (h : input purpose parts = input purpose' parts') : purpose = purpose' ∧ parts = parts' := by
  have hpurpose := label_cut h
  subst hpurpose
  exact ⟨rfl, prefixed_injective (by decide) hparts.length_lt hparts'.length_lt
    (List.append_cancel_left h)⟩

/-- A record header says which binding it is of. -/
theorem record_header_injective {binding binding' : ArtifactBinding} {count count' : Nat}
    (h : record_header binding count = record_header binding' count') : binding = binding' := by
  unfold record_header at h
  rw [List.append_assoc, List.append_assoc] at h
  obtain ⟨hencoded, -⟩ := List.append_inj (List.append_cancel_left h)
    (binding.length_encoded.trans binding'.length_encoded.symm)
  exact ArtifactBinding.ext hencoded

theorem within_record (binding : ArtifactBinding) {ciphertext : List UInt8}
    (h : ciphertext.length ≤ MAX_CIPHERTEXT) :
    Within [record_header binding ciphertext.length, ciphertext] := by
  have hheader : (record_header binding ciphertext.length).length ≤ 1048576 := by
    rw [length_record_header]
    decide
  exact ⟨by simp, by simpa using ⟨hheader, h⟩⟩

/-- What `mac` feeds to HMAC determines its arguments. So the input for the header of a store is no
input for a record, and two different records have two different inputs. -/
theorem the_mac_input_determines_its_arguments :
    (∀ (hmac : Hmac), Streams hmac → ∀ (self : HmacSha256) (purpose : MacPurpose)
      (parts : List (List UInt8)), Within parts →
        mac hmac self purpose parts = match hmac.new_from_slice self.key with
          | none => .error .Invalid
          | some state => .ok (hmac.update state (input purpose parts))) ∧
    (∀ (self : HmacSha256) (purpose purpose' : MacPurpose) (parts parts' : List (List UInt8)),
      Within parts → Within parts' →
        mac recorder self purpose parts = mac recorder self purpose' parts' →
          purpose = purpose' ∧ parts = parts') ∧
    (∀ parts parts' : List (List UInt8), Within parts → Within parts' →
      input .StoreHeader parts ≠ input .ArtifactRecord parts') ∧
    ∀ (binding binding' : ArtifactBinding) (ciphertext ciphertext' : List UInt8),
      ciphertext.length ≤ MAX_CIPHERTEXT → ciphertext'.length ≤ MAX_CIPHERTEXT →
        input .ArtifactRecord [record_header binding ciphertext.length, ciphertext] =
          input .ArtifactRecord [record_header binding' ciphertext'.length, ciphertext'] →
        binding = binding' ∧ ciphertext = ciphertext' := by
  refine ⟨fun hmac hstreams self purpose parts hparts => mac_eq hstreams self hparts, ?_, ?_, ?_⟩
  · intro self purpose purpose' parts parts' hparts hparts' h
    rw [mac_eq recorder_streams self hparts, mac_eq recorder_streams self hparts'] at h
    exact input_injective hparts hparts' (by simpa [recorder] using h)
  · intro parts parts' hparts hparts' h
    cases (input_injective hparts hparts' h).1
  · intro binding binding' ciphertext ciphertext' hle hle' h
    have hparts := (input_injective (within_record binding hle) (within_record binding' hle') h).2
    simp only [List.cons.injEq, and_true] at hparts
    exact ⟨record_header_injective hparts.1, hparts.2⟩

def sevens : HmacSha256 := ⟨List.replicate 32 7, rfl⟩

/-- The same bytes cut into other parts, or under the other purpose, have another code. -/
theorem the_parts_of_a_mac_are_seen :
    mac recorder sevens .StoreHeader [[1], [2, 3]] ≠
        mac recorder sevens .StoreHeader [[1, 2], [3]] ∧
      mac recorder sevens .StoreHeader [[1]] ≠ mac recorder sevens .ArtifactRecord [[1]] := by
  obtain ⟨-, hsame, -⟩ := the_mac_input_determines_its_arguments
  refine ⟨fun h => ?_, fun h => ?_⟩
  · have hparts := (hsame sevens _ _ _ _ ⟨by decide, by decide⟩ ⟨by decide, by decide⟩ h).2
    exact absurd hparts (by decide)
  · have hpurpose := (hsame sevens _ _ _ _ ⟨by decide, by decide⟩ ⟨by decide, by decide⟩ h).1
    exact absurd hpurpose (by decide)

end HmacSha256

end openwrt_mcp_crypto_age.provenance
