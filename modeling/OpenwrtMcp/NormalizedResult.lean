-- The check of a result before it is returned: the text of it is counted without being made,
-- and so are the values that it is made of.
import OpenwrtMcp.ProjectionBytes

open json programs text

namespace openwrt_mcp_core.normalized

open projection (MAX_NORMALIZED_BYTES text_bytes text_bytes_normalized)

def MAX_VALUE_DEPTH : Nat := 32
def MAX_VALUE_NODES : Nat := 65536

/-- The part of the budget that is used here. -/
structure Budget where
  bytes : Nat
  nodes : Nat
  deriving DecidableEq

def Budget.default : Budget := ⟨0, 0⟩

abbrev Charge := Prog Budget CoreError

def budget.bytes (count : Nat) : Charge Unit := fun b =>
  if b.bytes + count < 2 ^ 64 && b.bytes + count ≤ MAX_NORMALIZED_BYTES then
    (.ok (), { b with bytes := b.bytes + count })
  else (.error .OutputLimit, b)

def budget.node (depth : Nat) : Charge Unit := fun b =>
  if depth > MAX_VALUE_DEPTH || b.nodes + 1 > MAX_VALUE_NODES then (.error .OutputLimit, b)
  else (.ok (), { b with nodes := b.nodes + 1 })

def budget.text (value : Str) : Charge Unit := do
  let count ← Prog.ok_or (text_bytes .normalized value) .OutputLimit
  budget.bytes count

def budget.key (value : Str) (previous : Bool) : Charge Unit := do
  budget.text value
  budget.bytes (1 + previous.toNat)

def budget.scalar : Value → Charge Unit
  | .Null => budget.bytes 4
  | .Bool value => budget.bytes (if value then 4 else 5)
  | .Number value => budget.bytes (len value.to_string)
  | .String value => budget.text value
  | _ => Prog.stop .InvalidOutput

mutual

def visit : Value → (depth : Nat) → Charge Unit
  | .Array items, depth => do
    budget.node depth
    budget.bytes 2
    visit_items items depth false
  | .Object fields, depth => do
    budget.node depth
    budget.bytes 2
    visit_fields fields depth false
  | .Null, depth => do
    budget.node depth
    budget.scalar .Null
  | .Bool value, depth => do
    budget.node depth
    budget.scalar (.Bool value)
  | .Number value, depth => do
    budget.node depth
    budget.scalar (.Number value)
  | .String value, depth => do
    budget.node depth
    budget.scalar (.String value)

def visit_items : List Value → (depth : Nat) → (previous : Bool) → Charge Unit
  | [], _, _ => pure ()
  | item :: rest, depth, previous => do
    budget.bytes previous.toNat
    visit item (depth + 1)
    visit_items rest depth true

def visit_fields : List (Str × Value) → (depth : Nat) → (previous : Bool) → Charge Unit
  | [], _, _ => pure ()
  | (key, value) :: rest, depth, previous => do
    budget.key key previous
    visit value (depth + 1)
    visit_fields rest depth true

end

def check_normalized_result (value : Value) : Except CoreError Unit :=
  (visit value 0 Budget.default).1

/-! ## What a value takes -/

mutual

/-- How deep the values in a value are. -/
def depth : Value → Nat
  | .Array items => items_depth items
  | .Object fields => fields_depth fields
  | _ => 0

def items_depth : List Value → Nat
  | [] => 0
  | v :: rest => max (depth v + 1) (items_depth rest)

def fields_depth : List (Str × Value) → Nat
  | [] => 0
  | (_, v) :: rest => max (depth v + 1) (fields_depth rest)

end

mutual

/-- The values that a value is made of, itself among them. -/
def nodes : Value → Nat
  | .Array items => 1 + items_nodes items
  | .Object fields => 1 + fields_nodes fields
  | _ => 1

def items_nodes : List Value → Nat
  | [] => 0
  | v :: rest => nodes v + items_nodes rest

def fields_nodes : List (Str × Value) → Nat
  | [] => 0
  | (_, v) :: rest => nodes v + fields_nodes rest

end

/-- The bytes of the elements, with a comma before each but the first. -/
def items_size : List Value → (previous : Bool) → Nat
  | [], _ => 0
  | v :: rest, previous => previous.toNat + size v + items_size rest true

def fields_size : List (Str × Value) → (previous : Bool) → Nat
  | [], _ => 0
  | (key, v) :: rest, previous =>
    text_cost key + (1 + previous.toNat) + size v + fields_size rest true

theorem items_size_eq (items : List Value) (previous : Bool) :
    items_size items previous = (items.map size).sum + (items.length - (!previous).toNat) := by
  induction items generalizing previous with
  | nil => simp [items_size]
  | cons v rest ih =>
    rw [items_size, ih, List.map_cons, List.sum_cons, List.length_cons]
    cases previous <;> simp <;> omega

theorem fields_size_eq (fields : Map) (previous : Bool) :
    fields_size fields previous =
      (fields.map field_size).sum + (fields.length - (!previous).toNat) := by
  induction fields generalizing previous with
  | nil => simp [fields_size]
  | cons f rest ih =>
    obtain ⟨key, v⟩ := f
    rw [fields_size, ih, List.map_cons, List.sum_cons, List.length_cons, field_size]
    cases previous <;> simp <;> omega

theorem size_array_eq (items : List Value) :
    size (.Array items) = 2 + items_size items false := by
  rw [size_array, items_size_eq]
  simp [Nat.add_assoc]

theorem size_object_eq (fields : Map) :
    size (.Object fields) = 2 + fields_size fields false := by
  rw [size_object, fields_size_eq]
  simp [Nat.add_assoc]

/-! ## The check -/

/-- What is spent is what is asked for, and the program stops exactly when that is too much or
something does not fit. -/
structure Costs (x : Charge Unit) (fits : Prop) (bytes nodes : Nat) : Prop where
  run : ∀ b b', b.bytes ≤ MAX_NORMALIZED_BYTES → b.nodes ≤ MAX_VALUE_NODES →
    (x b = (.ok (), b') ↔ fits ∧ b.bytes + bytes ≤ MAX_NORMALIZED_BYTES ∧
      b.nodes + nodes ≤ MAX_VALUE_NODES ∧ b' = ⟨b.bytes + bytes, b.nodes + nodes⟩)

namespace Costs

variable {x y : Charge Unit} {p q : Prop} {m m' n n' : Nat}

theorem bind (hx : Costs x p m n) (hy : p → Costs y q m' n') :
    Costs (x >>= fun _ => y) (p ∧ q) (m + m') (n + n') where
  run b b' hbytes hnodes := by
    rw [Prog.bind_ok]
    constructor
    · rintro ⟨_, mid, hrun, hrest⟩
      obtain ⟨hp, hm, hn, rfl⟩ := (hx.run b mid hbytes hnodes).1 hrun
      obtain ⟨hq, hm', hn', rfl⟩ := ((hy hp).run _ b' hm hn).1 hrest
      simp only [Nat.add_assoc] at hm' hn'
      exact ⟨⟨hp, hq⟩, hm', hn', by simp only [Nat.add_assoc]⟩
    · rintro ⟨⟨hp, hq⟩, hm, hn, rfl⟩
      simp only [← Nat.add_assoc] at hm hn ⊢
      refine ⟨(), ⟨b.bytes + m, b.nodes + n⟩, ?_, ?_⟩
      · exact (hx.run b _ hbytes hnodes).2 ⟨hp, by omega, by omega, rfl⟩
      · exact ((hy hp).run _ _ (by simp; omega) (by simp; omega)).2 ⟨hq, hm, hn, rfl⟩

theorem cast (h : Costs x p m n) (hp : p ↔ q) (hm : m = m') (hn : n = n') : Costs x q m' n' := by
  subst hm hn
  exact ⟨fun b b' hbytes hnodes => by rw [h.run b b' hbytes hnodes, hp]⟩

theorem bytes (count : Nat) : Costs (budget.bytes count) True count 0 where
  run b b' _ hnodes := by
    unfold budget.bytes MAX_NORMALIZED_BYTES
    by_cases hle : b.bytes + count ≤ 65536
    · have hwide : b.bytes + count < 18446744073709551616 := by omega
      simp [hle, hwide, hnodes, eq_comm]
    · simp [hle]

theorem node (depth : Nat) : Costs (budget.node depth) (depth ≤ MAX_VALUE_DEPTH) 0 1 where
  run b b' hbytes _ := by
    unfold budget.node
    by_cases hdepth : depth > MAX_VALUE_DEPTH
    · simp [hdepth]
    · by_cases hnodes : b.nodes + 1 > MAX_VALUE_NODES
      · have hmore : ¬ b.nodes + 1 ≤ MAX_VALUE_NODES := Nat.not_le_of_lt hnodes
        simp [hnodes, hmore]
      · have hle : b.nodes + 1 ≤ MAX_VALUE_NODES := Nat.le_of_not_lt hnodes
        simp [hdepth, hnodes, hle, hbytes, Nat.le_of_not_lt hdepth, eq_comm]

theorem text (value : Str) : Costs (budget.text value) True (text_cost value) 0 where
  run b b' hbytes hnodes := by
    unfold budget.text
    rw [text_bytes_normalized]
    by_cases hle : text_cost value ≤ MAX_NORMALIZED_BYTES
    · rw [if_pos hle]
      exact (bytes (text_cost value)).run b b' hbytes hnodes
    · rw [if_neg hle]
      have hmore : ¬ b.bytes + text_cost value ≤ MAX_NORMALIZED_BYTES := by omega
      simp [hmore]

theorem key (value : Str) (previous : Bool) :
    Costs (budget.key value previous) True (text_cost value + (1 + previous.toNat)) 0 :=
  ((text value).bind fun _ => bytes _).cast (by simp) rfl rfl

theorem nothing : Costs (pure ()) True 0 0 where
  run b b' hbytes hnodes := by
    rw [Prog.pure_ok]
    simp only [true_and, Nat.add_zero, hbytes, hnodes]
    exact eq_comm

end Costs

/-- A scalar takes the bytes of its text. -/
theorem scalar_costs {v : Value} (harray : as_array v = none) (hobject : as_object v = none) :
    Costs (budget.scalar v) True (size v) 0 := by
  cases v with
  | Null => exact Costs.bytes 4
  | Bool value =>
    refine (Costs.bytes _).cast Iff.rfl ?_ rfl
    cases value <;> decide
  | Number value => exact Costs.bytes _
  | String value => exact (Costs.text value).cast Iff.rfl (len_encode_text value).symm rfl
  | Array items => cases harray
  | Object fields => cases hobject

mutual

theorem visit_costs : (v : Value) → (d : Nat) →
    Costs (visit v d) (d + depth v ≤ MAX_VALUE_DEPTH) (size v) (nodes v)
  | .Array items, d => by
    unfold visit
    refine ((Costs.node d).bind fun hd => (Costs.bytes 2).bind fun _ =>
      items_costs items d false hd).cast ?_ ?_ ?_
    · rw [depth, true_and]
      omega
    · rw [size_array_eq]
      omega
    · simp [nodes]
  | .Object fields, d => by
    unfold visit
    refine ((Costs.node d).bind fun hd => (Costs.bytes 2).bind fun _ =>
      fields_costs fields d false hd).cast ?_ ?_ ?_
    · rw [depth, true_and]
      omega
    · rw [size_object_eq]
      omega
    · simp [nodes]
  | .Null, d =>
    ((Costs.node d).bind fun _ => scalar_costs rfl rfl).cast (by simp [depth]) (by simp) rfl
  | .Bool value, d =>
    ((Costs.node d).bind fun _ => scalar_costs rfl rfl).cast (by simp [depth]) (by simp) rfl
  | .Number value, d =>
    ((Costs.node d).bind fun _ => scalar_costs rfl rfl).cast (by simp [depth]) (by simp) rfl
  | .String value, d =>
    ((Costs.node d).bind fun _ => scalar_costs rfl rfl).cast (by simp [depth]) (by simp) rfl

theorem items_costs : (items : List Value) → (d : Nat) → (previous : Bool) →
    d ≤ MAX_VALUE_DEPTH →
    Costs (visit_items items d previous) (d + items_depth items ≤ MAX_VALUE_DEPTH)
      (items_size items previous) (items_nodes items)
  | [], d, previous, hd => by
    unfold visit_items
    exact Costs.nothing.cast (by simp [items_depth, hd]) rfl rfl
  | v :: rest, d, previous, hd => by
    unfold visit_items
    refine ((Costs.bytes _).bind fun _ => (visit_costs v (d + 1)).bind fun _ =>
      items_costs rest d true hd).cast ?_ ?_ ?_
    · rw [items_depth, true_and]
      omega
    · rw [items_size]
      omega
    · rw [items_nodes]
      omega

theorem fields_costs : (fields : List (Str × Value)) → (d : Nat) → (previous : Bool) →
    d ≤ MAX_VALUE_DEPTH →
    Costs (visit_fields fields d previous) (d + fields_depth fields ≤ MAX_VALUE_DEPTH)
      (fields_size fields previous) (fields_nodes fields)
  | [], d, previous, hd => by
    unfold visit_fields
    exact Costs.nothing.cast (by simp [fields_depth, hd]) rfl rfl
  | (key, v) :: rest, d, previous, hd => by
    unfold visit_fields
    refine ((Costs.key key previous).bind fun _ => (visit_costs v (d + 1)).bind fun _ =>
      fields_costs rest d true hd).cast ?_ ?_ ?_
    · rw [fields_depth, true_and]
      omega
    · rw [fields_size]
      omega
    · rw [fields_nodes]
      omega

end

/-- A result passes the check exactly when its text, its depth and its values are within the
limits. -/
theorem check_normalized_result_ok {v : Value} : check_normalized_result v = .ok () ↔
    depth v ≤ MAX_VALUE_DEPTH ∧ size v ≤ MAX_NORMALIZED_BYTES ∧ nodes v ≤ MAX_VALUE_NODES := by
  have hrun := (visit_costs v 0).run Budget.default
  simp only [Budget.default, Nat.zero_add, Nat.zero_le, forall_const] at hrun
  unfold check_normalized_result
  constructor
  · intro h
    have hok : visit v 0 ⟨0, 0⟩ = (.ok (), (visit v 0 ⟨0, 0⟩).2) := Prod.ext h rfl
    obtain ⟨hdepth, hsize, hnodes, -⟩ := (hrun _).1 hok
    exact ⟨hdepth, hsize, hnodes⟩
  · rintro ⟨hdepth, hsize, hnodes⟩
    have hok := (hrun ⟨size v, nodes v⟩).2 ⟨hdepth, hsize, hnodes, rfl⟩
    exact congrArg Prod.fst hok

end openwrt_mcp_core.normalized
