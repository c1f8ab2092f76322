-- The check of a result in the words of the machine: a sum that does not fit in 64 bits is a
-- fault. There are none, and so the check with numbers of any size is the same.
import OpenwrtMcp.NormalizedResult

open json programs text

namespace openwrt_mcp_core.normalized

open projection (MAX_NORMALIZED_BYTES text_bytes text_bytes_normalized len_le_text_cost)

namespace words

/-- An overflow is told apart from the errors of the check. -/
inductive Fault
  | Overflow
  | Error (e : CoreError)
  deriving DecidableEq

abbrev Charge := Prog Budget Fault

def add (a b : Nat) : Except Fault Nat := if a + b < 2 ^ 64 then .ok (a + b) else .error .Overflow

def bytes (count : Nat) : Charge Unit := fun b =>
  match add b.bytes count with
  | .error e => (.error e, b)
  | .ok sum =>
    (if sum > MAX_NORMALIZED_BYTES then .error (.Error .OutputLimit) else .ok (),
      { b with bytes := sum })

def node (depth : Nat) : Charge Unit := fun b =>
  match add b.nodes 1 with
  | .error e => (.error e, b)
  | .ok sum =>
    (if depth > MAX_VALUE_DEPTH || sum > MAX_VALUE_NODES then .error (.Error .OutputLimit)
      else .ok (), { b with nodes := sum })

def count_text : List UInt8 → (count : Nat) → Except Fault Nat
  | [], count => .ok count
  | byte :: rest, count => do
    let sum ← add count (byte_cost byte)
    if sum > MAX_NORMALIZED_BYTES then .error (.Error .OutputLimit) else count_text rest sum

def text (value : Str) : Charge Unit := do
  Prog.when (len value > MAX_NORMALIZED_BYTES) (Prog.stop (.Error .OutputLimit))
  let count ← Prog.lift (count_text (text.bytes value) 2)
  bytes count

def key (value : Str) (previous : Bool) : Charge Unit := do
  text value
  let count ← Prog.lift (add 1 previous.toNat)
  bytes count

def scalar : Value → Charge Unit
  | .Null => bytes 4
  | .Bool value => bytes (if value then 4 else 5)
  | .Number value => bytes (len value.to_string)
  | .String value => text value
  | _ => Prog.stop (.Error .InvalidOutput)

mutual

def visit : Value → (depth : Nat) → Charge Unit
  | .Array items, depth => do
    node depth
    bytes 2
    visit_items items depth false
  | .Object fields, depth => do
    node depth
    bytes 2
    visit_fields fields depth false
  | .Null, depth => do
    node depth
    scalar .Null
  | .Bool value, depth => do
    node depth
    scalar (.Bool value)
  | .Number value, depth => do
    node depth
    scalar (.Number value)
  | .String value, depth => do
    node depth
    scalar (.String value)

def visit_items : List Value → (depth : Nat) → (previous : Bool) → Charge Unit
  | [], _, _ => pure ()
  | item :: rest, depth, previous => do
    bytes previous.toNat
    let inner ← Prog.lift (add depth 1)
    visit item inner
    visit_items rest depth true

def visit_fields : List (Str × Value) → (depth : Nat) → (previous : Bool) → Charge Unit
  | [], _, _ => pure ()
  | (name, value) :: rest, depth, previous => do
    key name previous
    let inner ← Prog.lift (add depth 1)
    visit value inner
    visit_fields rest depth true

end

def check_normalized_result (value : Value) : Except Fault Unit :=
  (visit value 0 Budget.default).1

end words

mutual

/-- The text of every number is one that a string can hold. -/
def Held : Value → Prop
  | .Number value => len value.to_string < 2 ^ 63
  | .Array items => held_items items
  | .Object fields => held_fields fields
  | _ => True

def held_items : List Value → Prop
  | [] => True
  | v :: rest => Held v ∧ held_items rest

def held_fields : List (Str × Value) → Prop
  | [] => True
  | (_, v) :: rest => Held v ∧ held_fields rest

end

/-- Both counters are within their limits. -/
def Within (b : Budget) : Prop := b.bytes ≤ MAX_NORMALIZED_BYTES ∧ b.nodes ≤ MAX_VALUE_NODES

/-- Two programs end alike: with a value in one state, where `p` holds, or with one error. -/
structure Agrees (p : Prop) (x : words.Charge Unit) (y : Charge Unit) : Prop where
  run : ∀ b, Within b →
    (∃ b', x b = (.ok (), b') ∧ y b = (.ok (), b') ∧ Within b' ∧ p) ∨
      ∃ e b₁ b₂, x b = (.error (.Error e), b₁) ∧ y b = (.error e, b₂)

namespace Agrees

variable {x x' : words.Charge Unit} {y y' : Charge Unit} {p q : Prop}

theorem bind (hx : Agrees p x y) (hy : p → Agrees q x' y') :
    Agrees q (x >>= fun _ => x') (y >>= fun _ => y') where
  run b hb := by
    rcases hx.run b hb with ⟨b', hxrun, hyrun, hb', hp⟩ | ⟨e, b₁, b₂, hxrun, hyrun⟩
    · have hxeq : (x >>= fun _ => x') b = x' b' := by
        show Prog.bind x (fun _ => x') b = _
        simp only [Prog.bind, hxrun]
      have hyeq : (y >>= fun _ => y') b = y' b' := by
        show Prog.bind y (fun _ => y') b = _
        simp only [Prog.bind, hyrun]
      rw [hxeq, hyeq]
      exact (hy hp).run b' hb'
    · refine .inr ⟨e, b₁, b₂, ?_, ?_⟩
      · show Prog.bind x (fun _ => x') b = _
        simp only [Prog.bind, hxrun]
      · show Prog.bind y (fun _ => y') b = _
        simp only [Prog.bind, hyrun]

theorem pure (hp : p) : Agrees p (pure ()) (pure ()) where
  run b hb := .inl ⟨b, rfl, rfl, hb, hp⟩

end Agrees

theorem words.add_fits {a b : Nat} (h : a + b < 2 ^ 64) : words.add a b = .ok (a + b) := if_pos h

theorem bytes_agrees {count : Nat} (h : count < 2 ^ 63) :
    Agrees True (words.bytes count) (budget.bytes count) where
  run b hb := by
    have hle : b.bytes ≤ 65536 := hb.1
    have hwide : b.bytes + count < 2 ^ 64 := by omega
    unfold words.bytes budget.bytes
    rw [words.add_fits hwide]
    by_cases hfits : b.bytes + count ≤ MAX_NORMALIZED_BYTES
    · refine .inl ⟨{ b with bytes := b.bytes + count }, ?_, ?_, ⟨hfits, hb.2⟩, trivial⟩
      · simp [Nat.not_lt.2 hfits]
      · simp only [hwide, hfits, decide_true, Bool.and_self, if_true]
    · refine .inr ⟨.OutputLimit, { b with bytes := b.bytes + count }, b, ?_, ?_⟩
      · simp [Nat.lt_of_not_le hfits]
      · simp [hfits]

theorem node_agrees (depth : Nat) :
    Agrees (depth ≤ MAX_VALUE_DEPTH) (words.node depth) (budget.node depth) where
  run b hb := by
    have hle : b.nodes ≤ 65536 := hb.2
    unfold words.node budget.node
    rw [words.add_fits (by omega)]
    by_cases hover : (depth > MAX_VALUE_DEPTH || b.nodes + 1 > MAX_VALUE_NODES) = true
    · refine .inr ⟨.OutputLimit, { b with nodes := b.nodes + 1 }, b, ?_, ?_⟩
      · simp only [hover, if_true]
      · simp only [hover, if_true]
    · refine .inl ⟨{ b with nodes := b.nodes + 1 }, ?_, ?_, ?_⟩
      · simp only [hover, Bool.false_eq_true, if_false]
      · simp only [hover, Bool.false_eq_true, if_false]
      · simp only [Bool.or_eq_true, decide_eq_true_eq, not_or, Nat.not_lt] at hover
        exact ⟨⟨hb.1, hover.2⟩, hover.1⟩

/-- The loop over a text counts its cost, or stops at the limit. -/
theorem count_text_words (value : List UInt8) {count : Nat} (h : count ≤ MAX_NORMALIZED_BYTES) :
    words.count_text value count =
      if count + (value.map byte_cost).sum ≤ MAX_NORMALIZED_BYTES then
        .ok (count + (value.map byte_cost).sum)
      else .error (.Error .OutputLimit) := by
  induction value generalizing count with
  | nil => simp [words.count_text, h]
  | cons byte rest ih =>
    have hcost : byte_cost byte ≤ 6 := by
      unfold byte_cost
      split
      · omega
      · split <;> omega
    have hle : count ≤ 65536 := h
    have hadd : words.add count (byte_cost byte) = .ok (count + byte_cost byte) :=
      words.add_fits (by omega)
    rw [words.count_text, hadd, List.map_cons, List.sum_cons, ← Nat.add_assoc]
    by_cases hover : count + byte_cost byte > MAX_NORMALIZED_BYTES
    · have hmore : ¬ count + byte_cost byte + (rest.map byte_cost).sum ≤ MAX_NORMALIZED_BYTES := by
        omega
      rw [if_neg hmore]
      exact if_pos hover
    · rw [← ih (Nat.le_of_not_lt hover)]
      exact if_neg hover

theorem text_agrees (value : Str) : Agrees True (words.text value) (budget.text value) := by
  have hcost : 2 + ((text.bytes value).map byte_cost).sum = text_cost value := rfl
  unfold words.text budget.text
  rw [text_bytes_normalized, count_text_words _ (by decide), hcost]
  by_cases hle : text_cost value ≤ MAX_NORMALIZED_BYTES
  · have hlen : ¬ len value > MAX_NORMALIZED_BYTES :=
      Nat.not_lt.2 ((len_le_text_cost value).trans hle)
    have hbound : text_cost value ≤ 65536 := hle
    rw [if_pos hle, if_pos hle, decide_eq_false hlen]
    exact bytes_agrees (by omega)
  · rw [if_neg hle, if_neg hle]
    refine ⟨fun b _ => .inr ⟨.OutputLimit, b, b, ?_, rfl⟩⟩
    by_cases hlen : len value > MAX_NORMALIZED_BYTES
    · rw [decide_eq_true hlen]
      rfl
    · rw [decide_eq_false hlen]
      rfl

theorem key_agrees (value : Str) (previous : Bool) :
    Agrees True (words.key value previous) (budget.key value previous) := by
  have hone : previous.toNat ≤ 1 := by cases previous <;> decide
  refine (text_agrees value).bind fun _ => ?_
  rw [words.add_fits (by omega)]
  exact bytes_agrees (by omega)

theorem scalar_agrees {v : Value} (hv : Held v) :
    Agrees True (words.scalar v) (budget.scalar v) := by
  cases v with
  | Null => exact bytes_agrees (by omega)
  | Bool value => cases value <;> exact bytes_agrees (by decide)
  | Number value => exact bytes_agrees hv
  | String value => exact text_agrees value
  | Array items => exact ⟨fun b _ => .inr ⟨.InvalidOutput, b, b, rfl, rfl⟩⟩
  | Object fields => exact ⟨fun b _ => .inr ⟨.InvalidOutput, b, b, rfl, rfl⟩⟩

theorem inner_depth {d : Nat} (hd : d ≤ MAX_VALUE_DEPTH) : words.add d 1 = .ok (d + 1) := by
  have hle : d ≤ 32 := hd
  exact words.add_fits (by omega)

mutual

theorem visit_agrees : (v : Value) → Held v → (d : Nat) →
    Agrees True (words.visit v d) (visit v d)
  | .Array items, hv, d =>
    (node_agrees d).bind fun hd => (bytes_agrees (by omega)).bind fun _ =>
      items_agree items hv d hd false
  | .Object fields, hv, d =>
    (node_agrees d).bind fun hd => (bytes_agrees (by omega)).bind fun _ =>
      fields_agree fields hv d hd false
  | .Null, hv, d => (node_agrees d).bind fun _ => scalar_agrees hv
  | .Bool _, hv, d => (node_agrees d).bind fun _ => scalar_agrees hv
  | .Number _, hv, d => (node_agrees d).bind fun _ => scalar_agrees hv
  | .String _, hv, d => (node_agrees d).bind fun _ => scalar_agrees hv

theorem items_agree : (items : List Value) → held_items items → (d : Nat) →
    d ≤ MAX_VALUE_DEPTH → (previous : Bool) →
    Agrees True (words.visit_items items d previous) (visit_items items d previous)
  | [], _, d, hd, previous => Agrees.pure trivial
  | item :: rest, hv, d, hd, previous => by
    have hone : previous.toNat ≤ 1 := by cases previous <;> decide
    unfold words.visit_items visit_items
    refine (bytes_agrees (by omega)).bind fun _ => ?_
    rw [inner_depth hd]
    exact (visit_agrees item hv.1 (d + 1)).bind fun _ => items_agree rest hv.2 d hd true

theorem fields_agree : (fields : List (Str × Value)) → held_fields fields → (d : Nat) →
    d ≤ MAX_VALUE_DEPTH → (previous : Bool) →
    Agrees True (words.visit_fields fields d previous) (visit_fields fields d previous)
  | [], _, d, hd, previous => Agrees.pure trivial
  | (name, v) :: rest, hv, d, hd, previous => by
    unfold words.visit_fields visit_fields
    refine (key_agrees name previous).bind fun _ => ?_
    rw [inner_depth hd]
    exact (visit_agrees v hv.1 (d + 1)).bind fun _ => fields_agree rest hv.2 d hd true

end

/-- The check in words ends as the check in numbers, and so without a fault. -/
theorem check_words {v : Value} (hv : Held v) : words.check_normalized_result v =
    (check_normalized_result v).mapError words.Fault.Error := by
  have hzero : Within Budget.default := ⟨Nat.zero_le _, Nat.zero_le _⟩
  unfold words.check_normalized_result check_normalized_result
  rcases (visit_agrees v hv 0).run Budget.default hzero with ⟨b', hx, hy, -⟩ | ⟨e, b₁, b₂, hx, hy⟩
  · rw [hx, hy]
    rfl
  · rw [hx, hy]
    rfl

/-! ## The values of a text -/

theorem items_size_le (items : List Value) : items_size items true ≤ items_size items
    false + 1 := by
  cases items with
  | nil => simp [items_size]
  | cons v rest =>
    rw [items_size, items_size, Bool.toNat_true, Bool.toNat_false]
    omega

theorem fields_size_le (fields : Map) : fields_size fields true ≤ fields_size fields false + 1 := by
  cases fields with
  | nil => simp [fields_size]
  | cons f rest =>
    rw [fields_size, fields_size, Bool.toNat_true, Bool.toNat_false]
    omega

mutual

/-- Every value but the first has a bracket or a comma of its own in the text. -/
theorem nodes_le_size : (v : Value) → nodes v ≤ size v + 1
  | .Array items => by
    have hnodes := items_nodes_le items
    have hsize := items_size_le items
    rw [nodes, size_array_eq]
    omega
  | .Object fields => by
    have hnodes := fields_nodes_le fields
    have hsize := fields_size_le fields
    rw [nodes, size_object_eq]
    omega
  | .Null => by simp [nodes]
  | .Bool _ => by simp [nodes]
  | .Number _ => by simp [nodes]
  | .String _ => by simp [nodes]

theorem items_nodes_le : (items : List Value) → items_nodes items ≤ items_size items true
  | [] => by simp [items_nodes]
  | v :: rest => by
    have hv := nodes_le_size v
    have hrest := items_nodes_le rest
    rw [items_nodes, items_size, Bool.toNat_true]
    omega

theorem fields_nodes_le : (fields : List (Str × Value)) →
    fields_nodes fields ≤ fields_size fields true
  | [] => by simp [fields_nodes]
  | (_, v) :: rest => by
    have hv := nodes_le_size v
    have hrest := fields_nodes_le rest
    rw [fields_nodes, fields_size, Bool.toNat_true]
    omega

end

/-- A text within the limit has no more values than the limit of values. -/
theorem nodes_within {v : Value} (h : size v ≤ MAX_NORMALIZED_BYTES) :
    nodes v ≤ MAX_VALUE_NODES := by
  have hlimit : MAX_NORMALIZED_BYTES = 65536 := rfl
  have hvalues : MAX_VALUE_NODES = 65536 := rfl
  have hnodes := nodes_le_size v
  cases v with
  | Array items =>
    have := items_nodes_le items
    have := items_size_le items
    rw [size_array_eq] at h
    rw [nodes]
    omega
  | Object fields =>
    have := fields_nodes_le fields
    have := fields_size_le fields
    rw [size_object_eq] at h
    rw [nodes]
    omega
  | Null => simp [nodes, hvalues]
  | Bool _ => simp [nodes, hvalues]
  | Number _ => simp [nodes, hvalues]
  | String _ => simp [nodes, hvalues]

/-- The check accepts exactly the values of a short text that are not nested too deep: the limit
on the number of values decides nothing. In words of 64 bits it is the same check, with no
overflow. -/
theorem the_check_is_on_bytes_and_depth (v : Value) :
    (check_normalized_result v = .ok () ↔ size v ≤ 65536 ∧ depth v ≤ 32) ∧
      (size v ≤ 65536 → nodes v ≤ 65536) ∧
      (Held v → words.check_normalized_result v =
          (check_normalized_result v).mapError words.Fault.Error ∧
        words.check_normalized_result v ≠ .error .Overflow) := by
  refine ⟨?_, nodes_within, ?_⟩
  · rw [check_normalized_result_ok]
    constructor
    · rintro ⟨hdepth, hsize, -⟩
      exact ⟨hsize, hdepth⟩
    · rintro ⟨hsize, hdepth⟩
      exact ⟨hdepth, hsize, nodes_within hsize⟩
  · intro hv
    refine ⟨check_words hv, ?_⟩
    rw [check_words hv]
    cases check_normalized_result v with
    | ok _ => simp [Except.mapError]
    | error e => simp [Except.mapError]

theorem a_number_in_a_list_is_counted_in_words :
    words.check_normalized_result (.Array [.Number (.PosInt 7)]) =
        (check_normalized_result (.Array [.Number (.PosInt 7)])).mapError words.Fault.Error ∧
      words.check_normalized_result (.Array [.Number (.PosInt 7)]) ≠ .error .Overflow :=
  (the_check_is_on_bytes_and_depth (.Array [.Number (.PosInt 7)])).2.2
    ⟨by rw [Held]; decide, trivial⟩

end openwrt_mcp_core.normalized
