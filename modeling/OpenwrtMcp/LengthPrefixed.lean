-- Parts behind their lengths, one after the other. The lengths have a fixed width, so the bytes
-- determine the parts.
import OpenwrtMcp.BigEndian

namespace big_endian

variable {width : Nat} {p q x y : List UInt8} {parts parts' : List (List UInt8)}

/-- A part behind its length. -/
def prefixed (width : Nat) (part : List UInt8) : List UInt8 :=
  to_be_bytes width part.length ++ part

/-- The length in front says where the part ends. -/
theorem prefixed_cut (hp : p.length < 256 ^ width) (hq : q.length < 256 ^ width)
    (h : prefixed width p ++ x = prefixed width q ++ y) : p = q ∧ x = y := by
  unfold prefixed at h
  rw [List.append_assoc, List.append_assoc] at h
  obtain ⟨hlengths, hrest⟩ := List.append_inj h (by simp)
  have hlength : p.length = q.length := by
    rw [← from_to_be_bytes hp, ← from_to_be_bytes hq, hlengths]
  exact List.append_inj hrest hlength

theorem prefixed_ne_nil (hwidth : 0 < width) : prefixed width p ≠ [] := by
  intro h
  have hlength := congrArg List.length h
  simp [prefixed] at hlength
  omega

/-- The bytes of all parts determine the parts and their number. -/
theorem prefixed_injective (hwidth : 0 < width) (hparts : ∀ p ∈ parts, p.length < 256 ^ width)
    (hparts' : ∀ q ∈ parts', q.length < 256 ^ width)
    (h : parts.flatMap (prefixed width) = parts'.flatMap (prefixed width)) : parts = parts' := by
  induction parts generalizing parts' with
  | nil =>
    cases parts' with
    | nil => rfl
    | cons q parts' => simp [prefixed_ne_nil hwidth] at h
  | cons p parts ih =>
    cases parts' with
    | nil => simp [prefixed_ne_nil hwidth] at h
    | cons q parts' =>
      rw [List.flatMap_cons, List.flatMap_cons] at h
      simp only [List.forall_mem_cons] at hparts hparts'
      obtain ⟨hpq, hrest⟩ := prefixed_cut hparts.1 hparts'.1 h
      rw [hpq, ih hparts.2 hparts'.2 hrest]

end big_endian
