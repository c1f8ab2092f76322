-- The projection by pointers is written twice: once with a budget that it charges while it
-- filters, once with none. The one with the budget returns what the other returns, or stops at a
-- limit that is known beforehand.
import OpenwrtMcp.NormalizedWords
import OpenwrtMcp.PrepareLaws

open json maps programs text

namespace openwrt_mcp_core

open normalized (budget.node budget.bytes budget.key budget.scalar Budget MAX_VALUE_DEPTH
  MAX_VALUE_NODES)
open projection (MAX_NORMALIZED_BYTES segments)

/-! ## The projection without a budget -/

mutual

def redact : Value → Value
  | .Object fields => .Object (redact_fields fields [])
  | .Array items => .Array (redact_items items)
  | .Null => .Null
  | .Bool value => .Bool value
  | .Number value => .Number value
  | .String value => .String value

/-- The members that are left are collected into a new map. -/
def redact_fields : List (Str × Value) → Map → Map
  | [], result => result
  | (key, value) :: rest, result =>
    if sensitive_key key then redact_fields rest result
    else redact_fields rest (result.insert key (redact value))

def redact_items : List Value → List Value
  | [] => []
  | value :: rest => redact value :: redact_items rest

end

namespace Operation

def project_fields (operation : Operation) (output : Value) : List Str → Map → Map
  | [], projected => projected
  | path :: rest, projected =>
    if !valid_pointer path || (segments path).any sensitive_key then
      project_fields operation output rest projected
    else match legacy.pointer output path with
      | none => project_fields operation output rest projected
      | some value =>
        if operation.output_mode = .Scalars && legacy.is_container value then
          project_fields operation output rest projected
        else project_fields operation output rest (projected.insert path (redact value))

def project (operation : Operation) (output : Value) : Value :=
  match operation.output_mode with
  | .Typed _ => .Object []
  | _ =>
    if !disjoint_output_fields operation.output_fields then .Object []
    else .Object (operation.project_fields output operation.output_fields [])

end Operation

/-! ## What the traversal of a value takes -/

mutual

/-- One visit for a value, and one more for each member of an object. -/
def visits : Value → Nat
  | .Object fields => 1 + fields_visits fields
  | .Array items => 1 + items_visits items
  | _ => 1

def fields_visits : List (Str × Value) → Nat
  | [] => 0
  | (key, value) :: rest =>
    1 + (if sensitive_key key then 0 else visits value) + fields_visits rest

def items_visits : List Value → Nat
  | [] => 0
  | value :: rest => visits value + items_visits rest

end

mutual

/-- How far down the traversal goes: to the members of every object, and into those whose key is
not sensitive. -/
def reach : Value → Nat
  | .Object fields => fields_reach fields
  | .Array items => items_reach items
  | _ => 0

def fields_reach : List (Str × Value) → Nat
  | [] => 0
  | (key, value) :: rest =>
    max (1 + (if sensitive_key key then 0 else reach value)) (fields_reach rest)

def items_reach : List Value → Nat
  | [] => 0
  | value :: rest => max (1 + reach value) (items_reach rest)

end

mutual

/-- No key that is met is longer than a whole result. -/
def ShortKeys : Value → Prop
  | .Object fields => short_keys_fields fields
  | .Array items => short_keys_items items
  | _ => True

def short_keys_fields : List (Str × Value) → Prop
  | [] => True
  | (key, value) :: rest => len key ≤ MAX_NORMALIZED_BYTES ∧
    (sensitive_key key = false → ShortKeys value) ∧ short_keys_fields rest

def short_keys_items : List Value → Prop
  | [] => True
  | value :: rest => ShortKeys value ∧ short_keys_items rest

end

mutual

/-- No member of an object has a sensitive key, at any depth. -/
def Clean : Value → Prop
  | .Object fields => clean_fields fields
  | .Array items => clean_items items
  | _ => True

def clean_fields : List (Str × Value) → Prop
  | [] => True
  | (key, value) :: rest => sensitive_key key = false ∧ Clean value ∧ clean_fields rest

def clean_items : List Value → Prop
  | [] => True
  | value :: rest => Clean value ∧ clean_items rest

end

theorem clean_fields_iff {fields : Map} : clean_fields fields ↔
    ∀ f ∈ fields, sensitive_key f.1 = false ∧ Clean f.2 := by
  induction fields with
  | nil => simp [clean_fields]
  | cons f fields ih => simp [clean_fields, ih, and_assoc]

mutual

theorem clean_redact : (v : Value) → Clean (redact v)
  | .Object fields => by
    rw [redact, Clean]
    exact clean_redact_fields fields [] trivial
  | .Array items => by
    rw [redact, Clean]
    exact clean_redact_items items
  | .Null => trivial
  | .Bool _ => trivial
  | .Number _ => trivial
  | .String _ => trivial

theorem clean_redact_fields : (fields : List (Str × Value)) → (result : Map) →
    clean_fields result → clean_fields (redact_fields fields result)
  | [], result, h => h
  | (key, value) :: rest, result, h => by
    rw [redact_fields]
    by_cases hkey : sensitive_key key = true
    · rw [if_pos hkey]
      exact clean_redact_fields rest result h
    · rw [if_neg hkey]
      refine clean_redact_fields rest _ (clean_fields_iff.2 fun f hf => ?_)
      rcases Map.mem_insert hf with rfl | hf
      · exact ⟨Bool.eq_false_iff.2 hkey, clean_redact value⟩
      · exact clean_fields_iff.1 h f hf

theorem clean_redact_items : (items : List Value) → clean_items (redact_items items)
  | [] => trivial
  | value :: rest => ⟨clean_redact value, clean_redact_items rest⟩

end

/-! ## Charges that end with a value -/

theorem Prog.bind_error {S ε α β : Type} {x : Prog S ε α} {f : α → Prog S ε β} {s s' : S} {e : ε} :
    (x >>= f) s = (.error e, s') ↔
      x s = (.error e, s') ∨ ∃ a m, x s = (.ok a, m) ∧ f a m = (.error e, s') := by
  show Prog.bind x f s = _ ↔ _
  unfold Prog.bind
  cases x s with
  | mk r m =>
    cases r with
    | ok a => simp
    | error e => simp

variable {α β : Type}

/-- What is spent is what is asked for, the value is known, and the program stops exactly when
that is too much or something does not fit. -/
structure Yields (x : legacy.Charge α) (fits : Prop) (bytes nodes : Nat) (a : α) : Prop where
  run : ∀ b a' b', normalized.Within b →
    (x b = (.ok a', b') ↔ a = a' ∧ fits ∧ b.bytes + bytes ≤ MAX_NORMALIZED_BYTES ∧
      b.nodes + nodes ≤ MAX_VALUE_NODES ∧ b' = ⟨b.bytes + bytes, b.nodes + nodes⟩)
  stops : ∀ b e b', normalized.Within b → x b = (.error e, b') → e = .OutputLimit

namespace Yields

variable {x : legacy.Charge α} {f : α → legacy.Charge β} {p q : Prop} {m m' n n' : Nat} {a : α}
  {c : β}

theorem bind (hx : Yields x p m n a) (hf : p → Yields (f a) q m' n' c) :
    Yields (x >>= f) (p ∧ q) (m + m') (n + n') c where
  run b c' b' hb := by
    rw [Prog.bind_ok]
    constructor
    · rintro ⟨a', mid, hrun, hrest⟩
      obtain ⟨rfl, hp, hm, hn, rfl⟩ := (hx.run b a' mid hb).1 hrun
      obtain ⟨rfl, hq, hm', hn', rfl⟩ := ((hf hp).run _ c' b' ⟨hm, hn⟩).1 hrest
      simp only [Nat.add_assoc] at hm' hn'
      exact ⟨rfl, ⟨hp, hq⟩, hm', hn', by simp only [Nat.add_assoc]⟩
    · rintro ⟨rfl, ⟨hp, hq⟩, hm, hn, rfl⟩
      simp only [← Nat.add_assoc] at hm hn ⊢
      have hmid : normalized.Within ⟨b.bytes + m, b.nodes + n⟩ :=
        ⟨(Nat.le_add_right _ _).trans hm, (Nat.le_add_right _ _).trans hn⟩
      refine ⟨a, ⟨b.bytes + m, b.nodes + n⟩, ?_, ?_⟩
      · exact (hx.run b a _ hb).2 ⟨rfl, hp, hmid.1, hmid.2, rfl⟩
      · exact ((hf hp).run _ c _ hmid).2 ⟨rfl, hq, hm, hn, rfl⟩
  stops b e b' hb h := by
    rcases Prog.bind_error.1 h with hstop | ⟨a', mid, hrun, hrest⟩
    · exact hx.stops b e b' hb hstop
    · obtain ⟨rfl, hp, hm, hn, rfl⟩ := (hx.run b a' mid hb).1 hrun
      exact (hf hp).stops _ e b' ⟨hm, hn⟩ hrest

theorem cast (h : Yields x p m n a) (hp : p ↔ q) (hm : m = m') (hn : n = n') {a₂ : α}
    (ha : a = a₂) : Yields x q m' n' a₂ := by
  subst hm hn ha
  exact ⟨fun b a' b' hb => by rw [h.run b a' b' hb, hp], h.stops⟩

theorem pure (a : α) : Yields (pure a) True 0 0 a where
  run b a' b' hb := by
    rw [Prog.pure_ok]
    simp only [true_and, Nat.add_zero, hb.1, hb.2]
    exact and_congr_right fun _ => eq_comm
  stops b e b' _ h := by cases h

/-- The value that comes first is not looked at. -/
theorem seq {y : legacy.Charge β} (hx : Yields x p m n a) (hy : p → Yields y q m' n' c) :
    Yields (x >>= fun _ => y) (p ∧ q) (m + m') (n + n') c := hx.bind hy

theorem map (g : α → β) (hx : Yields x p m n a) :
    Yields (x >>= fun a => Pure.pure (g a)) p m n (g a) :=
  (hx.bind (f := fun a => Pure.pure (g a)) fun _ => pure (g a)).cast (and_iff_left trivial) rfl rfl
    rfl

/-- From an empty budget, the program ends with its value or at a limit. -/
theorem ends (h : Yields x p m n a) :
    (p ∧ m ≤ MAX_NORMALIZED_BYTES ∧ n ≤ MAX_VALUE_NODES) ∧ (x Budget.default).1 = .ok a ∨
      ¬ (p ∧ m ≤ MAX_NORMALIZED_BYTES ∧ n ≤ MAX_VALUE_NODES) ∧
        (x Budget.default).1 = .error .OutputLimit := by
  have hzero : normalized.Within Budget.default := ⟨Nat.zero_le _, Nat.zero_le _⟩
  have hrun := fun a' b' => h.run Budget.default a' b' hzero
  simp only [Budget.default, Nat.zero_add] at hrun
  by_cases hfits : p ∧ m ≤ MAX_NORMALIZED_BYTES ∧ n ≤ MAX_VALUE_NODES
  · exact .inl
      ⟨hfits, congrArg Prod.fst ((hrun a ⟨m, n⟩).2 ⟨rfl, hfits.1, hfits.2.1, hfits.2.2, rfl⟩)⟩
  · refine .inr ⟨hfits, ?_⟩
    cases hend : x Budget.default with
    | mk r b =>
      cases r with
      | error e => rw [h.stops _ e b hzero hend]
      | ok a' =>
        obtain ⟨-, hp, hm, hn, -⟩ := (hrun a' b).1 hend
        exact absurd ⟨hp, hm, hn⟩ hfits

theorem refuse (h : ¬ p) : Yields (Prog.stop .OutputLimit : legacy.Charge α) p m n a where
  run b a' b' _ := by simp [h]
  stops b e b' _ hstop := by
    cases hstop
    rfl

theorem of_costs {x : legacy.Charge Unit} (h : normalized.Costs x p m n)
    (hstops : ∀ b e b', x b = (.error e, b') → e = .OutputLimit) : Yields x p m n () where
  run b _ b' hb := by
    rw [h.run b b' hb.1 hb.2]
    simp
  stops b e b' _ := hstops b e b'

theorem bytes_stops {count : Nat} {b b' : Budget} {e : CoreError}
    (h : budget.bytes count b = (.error e, b')) : e = .OutputLimit := by
  unfold normalized.budget.bytes at h
  split at h
  · cases h
  · cases h
    rfl

theorem bytes (count : Nat) : Yields (budget.bytes count) True count 0 () :=
  of_costs (normalized.Costs.bytes count) fun _ _ _ => bytes_stops

theorem node (depth : Nat) : Yields (budget.node depth) (depth ≤ MAX_VALUE_DEPTH) 0 1 () := by
  refine of_costs (normalized.Costs.node depth) fun b e b' h => ?_
  unfold normalized.budget.node at h
  split at h
  · cases h
    rfl
  · cases h

theorem text_stops {value : Str} {b b' : Budget} {e : CoreError}
    (h : normalized.budget.text value b = (.error e, b')) : e = .OutputLimit := by
  unfold normalized.budget.text at h
  cases htext : projection.text_bytes .normalized value with
  | none =>
    rw [htext] at h
    cases h
    rfl
  | some count =>
    rw [htext] at h
    exact bytes_stops h

theorem text (value : Str) :
    Yields (normalized.budget.text value) True (text_cost value) 0 () :=
  of_costs (normalized.Costs.text value) fun _ _ _ => text_stops

theorem key (value : Str) (previous : Bool) :
    Yields (budget.key value previous) True (text_cost value + (1 + previous.toNat)) 0 () :=
  ((text value).seq fun _ => bytes _).cast and_self_iff rfl rfl rfl

end Yields

/-! ## The two projections -/

theorem size_insert {m : Map} {key : Str} {v : Value} (h : key ∉ m.keys) :
    size (.Object (m.insert key v)) =
      size (.Object m) + (text_cost key + (1 + (!m.isEmpty).toNat) + size v) := by
  have hperm := Map.insert_perm v h
  rw [size_object, size_object, (hperm.map field_size).sum_eq, hperm.length_eq, List.map_cons,
    List.sum_cons, List.length_cons, field_size]
  cases m with
  | nil => simp
  | cons f m =>
    simp only [List.map_cons, List.sum_cons, List.length_cons, List.isEmpty_cons, Bool.not_false,
      Bool.toNat_true]
    omega

theorem insert_not_empty (m : Map) (key : Str) (v : Value) : (m.insert key v).isEmpty = false := by
  cases m with
  | nil => rfl
  | cons f m =>
    unfold Map.insert
    split
    · rfl
    · split <;> rfl

/-- The bytes of the members that are left, with a comma before each but the first. -/
def kept_size : List (Str × Value) → (previous : Bool) → Nat
  | [], _ => 0
  | (key, value) :: rest, previous =>
    if sensitive_key key then kept_size rest previous
    else text_cost key + (1 + previous.toNat) + size (redact value) + kept_size rest true

/-- No key of the members is one of the map, and none comes twice. -/
def Fresh (fields : List (Str × Value)) (result : Map) : Prop :=
  (fields.map Prod.fst).Nodup ∧ ∀ key ∈ fields.map Prod.fst, key ∉ result.keys

theorem mem_keys_insert {m : Map} {key k : Str} {v : Value} (h : k ∈ (m.insert key v).keys) :
    k = key ∨ k ∈ m.keys := by
  obtain ⟨f, hf, rfl⟩ := List.mem_map.1 h
  rcases Map.mem_insert hf with rfl | hf
  · exact .inl rfl
  · exact .inr (List.mem_map_of_mem hf)

theorem Fresh.skip {f : Str × Value} {fields : List (Str × Value)} {result : Map}
    (h : Fresh (f :: fields) result) : Fresh fields result := by
  obtain ⟨hnodup, hfresh⟩ := h
  rw [List.map_cons, List.nodup_cons] at hnodup
  rw [List.map_cons, List.forall_mem_cons] at hfresh
  exact ⟨hnodup.2, hfresh.2⟩

theorem Fresh.insert {f : Str × Value} {fields : List (Str × Value)} {result : Map}
    (h : Fresh (f :: fields) result) (v : Value) : Fresh fields (result.insert f.1 v) := by
  obtain ⟨hnodup, hfresh⟩ := h.skip
  have hnot := (List.nodup_cons.1 h.1).1
  refine ⟨hnodup, fun key hkey hmem => ?_⟩
  rcases mem_keys_insert hmem with rfl | hmem
  · exact hnot hkey
  · exact hfresh key hkey hmem

theorem Fresh.head {f : Str × Value} {fields : List (Str × Value)} {result : Map}
    (h : Fresh (f :: fields) result) : f.1 ∉ result.keys := h.2 f.1 (by simp)

theorem size_redact_fields (fields : List (Str × Value)) {result : Map} (h : Fresh fields result) :
    size (.Object (redact_fields fields result)) =
      size (.Object result) + kept_size fields (!result.isEmpty) := by
  induction fields generalizing result with
  | nil => simp [redact_fields, kept_size]
  | cons f fields ih =>
    obtain ⟨key, value⟩ := f
    rw [redact_fields, kept_size]
    by_cases hkey : sensitive_key key = true
    · rw [if_pos hkey, if_pos hkey]
      exact ih h.skip
    · rw [if_neg hkey, if_neg hkey, ih (h.insert _), size_insert h.head, insert_not_empty]
      simp only [Bool.not_false]
      omega

theorem scalar_yields {v : Value} {d : Nat} (harray : as_array v = none)
    (hobject : as_object v = none) :
    Yields (legacy.redact_scalar v d) (d + 0 ≤ MAX_VALUE_DEPTH ∧ True) (size v) 1 v := by
  have hscalar : Yields (budget.scalar v) True (size v) 0 () := by
    refine .of_costs (normalized.scalar_costs harray hobject) fun b e b' h => ?_
    cases v with
    | Null => exact Yields.bytes_stops h
    | Bool value => exact Yields.bytes_stops h
    | Number value => exact Yields.bytes_stops h
    | String value => exact Yields.text_stops h
    | Array items => cases harray
    | Object fields => cases hobject
  exact ((Yields.node d).seq fun _ => hscalar.map fun _ => v).cast (by simp) (by simp) rfl rfl

mutual

theorem redact_yields : (v : Value) → Sorted v → (d : Nat) →
    Yields (legacy.redact v d) (d + reach v ≤ MAX_VALUE_DEPTH ∧ ShortKeys v) (size (redact v))
      (visits v) (redact v)
  | .Object fields, hv, d => by
    have hfresh : Fresh fields [] := ⟨hv.keys_nodup, by simp [Map.keys]⟩
    refine ((Yields.node d).seq fun hd => (Yields.bytes 2).seq fun _ =>
      (redact_fields_yields fields hv.2 d hd [] hfresh).map Value.Object).cast ?_ ?_ ?_ ?_
    · rw [reach, ShortKeys]
      constructor
      · rintro ⟨-, -, hdepth, hshort⟩
        exact ⟨hdepth, hshort⟩
      · rintro ⟨hdepth, hshort⟩
        exact ⟨by omega, trivial, hdepth, hshort⟩
    · rw [redact, size_redact_fields fields hfresh]
      have hempty : size (.Object []) = 2 := by simp [size_object]
      rw [hempty]
      simp
    · simp [visits]
    · rw [redact]
  | .Array items, hv, d => by
    refine ((Yields.node d).seq fun hd => (Yields.bytes 2).seq fun _ =>
      (redact_items_yields items hv d hd []).map Value.Array).cast ?_ ?_ ?_ ?_
    · rw [reach, ShortKeys]
      constructor
      · rintro ⟨-, -, hdepth, hshort⟩
        exact ⟨hdepth, hshort⟩
      · rintro ⟨hdepth, hshort⟩
        exact ⟨by omega, trivial, hdepth, hshort⟩
    · rw [redact, normalized.size_array_eq]
      simp
    · simp [visits]
    · rw [redact, List.nil_append]
  | .Null, hv, d => scalar_yields rfl rfl
  | .Bool value, hv, d => scalar_yields rfl rfl
  | .Number value, hv, d => scalar_yields rfl rfl
  | .String value, hv, d => scalar_yields rfl rfl

theorem redact_fields_yields : (fields : List (Str × Value)) → sorted_fields fields →
    (d : Nat) → d ≤ MAX_VALUE_DEPTH → (result : Map) → Fresh fields result →
    Yields (legacy.redact_fields fields d result)
      (d + fields_reach fields ≤ MAX_VALUE_DEPTH ∧ short_keys_fields fields)
      (kept_size fields (!result.isEmpty)) (fields_visits fields) (redact_fields fields result)
  | [], hv, d, hd, result, hfresh =>
    (Yields.pure result).cast (by simp [fields_reach, short_keys_fields, hd]) rfl rfl rfl
  | (key, value) :: rest, hv, d, hd, result, hfresh => by
    rw [legacy.redact_fields, kept_size, fields_visits, redact_fields]
    by_cases hlong : len key > MAX_NORMALIZED_BYTES
    · rw [if_pos hlong]
      refine ((Yields.node (d + 1)).seq fun _ => Yields.refuse not_false).cast ?_ (Nat.zero_add _)
        (Nat.add_assoc 1 _ _).symm rfl
      rw [short_keys_fields]
      constructor
      · rintro ⟨-, hfalse⟩
        exact hfalse.elim
      · rintro ⟨-, hshort, -⟩
        omega
    rw [if_neg hlong]
    have hshort : len key ≤ MAX_NORMALIZED_BYTES := Nat.le_of_not_lt hlong
    by_cases hkey : sensitive_key key = true
    · rw [if_pos hkey, if_pos hkey, if_pos hkey, if_pos hkey]
      refine ((Yields.node (d + 1)).seq fun _ =>
        redact_fields_yields rest hv.2 d hd result hfresh.skip).cast ?_ (Nat.zero_add _) ?_ rfl
      · rw [fields_reach, short_keys_fields, if_pos hkey]
        constructor
        · rintro ⟨hdepth, hrest, hrest_short⟩
          exact ⟨by omega, hshort, by simp [hkey], hrest_short⟩
        · rintro ⟨hdepth, -, -, hrest_short⟩
          exact ⟨by omega, by omega, hrest_short⟩
      · omega
    · rw [if_neg hkey, if_neg hkey, if_neg hkey, if_neg hkey]
      refine ((Yields.node (d + 1)).seq fun _ => (Yields.key key _).seq fun _ =>
        (redact_yields value hv.1 (d + 1)).bind fun _ =>
          redact_fields_yields rest hv.2 d hd (result.insert key (redact value))
            (hfresh.insert _)).cast ?_ ?_ ?_ rfl
      · rw [fields_reach, short_keys_fields, if_neg hkey]
        constructor
        · rintro ⟨hdepth, -, ⟨hinner, hinner_short⟩, hrest, hrest_short⟩
          exact ⟨by omega, hshort, fun _ => hinner_short, hrest_short⟩
        · rintro ⟨hdepth, -, hinner_short, hrest_short⟩
          exact ⟨by omega, trivial, ⟨by omega, hinner_short (Bool.eq_false_iff.2 hkey)⟩, by omega,
            hrest_short⟩
      · rw [insert_not_empty]
        simp only [Bool.not_false]
        omega
      · omega

theorem redact_items_yields : (items : List Value) → sorted_items items →
    (d : Nat) → d ≤ MAX_VALUE_DEPTH → (result : List Value) →
    Yields (legacy.redact_items items d result)
      (d + items_reach items ≤ MAX_VALUE_DEPTH ∧ short_keys_items items)
      (normalized.items_size (redact_items items) (!result.isEmpty)) (items_visits items)
      (result ++ redact_items items)
  | [], hv, d, hd, result =>
    (Yields.pure result).cast (by simp [items_reach, short_keys_items, hd]) rfl rfl
      (by simp [redact_items])
  | value :: rest, hv, d, hd, result => by
    refine ((Yields.bytes _).seq fun _ => (redact_yields value hv.1 (d + 1)).bind fun _ =>
      redact_items_yields rest hv.2 d hd (result ++ [redact value])).cast ?_ ?_ ?_ ?_
    · rw [items_reach, short_keys_items, true_and]
      constructor
      · rintro ⟨⟨hdepth, hshort⟩, hrest, hrest_short⟩
        exact ⟨by omega, hshort, hrest_short⟩
      · rintro ⟨hdepth, hshort, hrest_short⟩
        exact ⟨⟨by omega, hshort⟩, by omega, hrest_short⟩
    · have hmore : (!(result ++ [redact value]).isEmpty) = true := by simp
      rw [redact_items, normalized.items_size, hmore, Nat.add_assoc]
    · rw [items_visits]
      omega
    · simp [redact_items]

end

/-! ## The depth of what is left -/

theorem fields_depth_insert (m : Map) (key : Str) (v : Value) :
    normalized.fields_depth (m.insert key v) ≤
      max (normalized.depth v + 1) (normalized.fields_depth m) := by
  induction m with
  | nil => simp [Map.insert, normalized.fields_depth]
  | cons f m ih =>
    unfold Map.insert
    split
    · simp [normalized.fields_depth]
    · split
      · simp only [normalized.fields_depth]
        omega
      · simp only [normalized.fields_depth]
        omega

mutual

theorem depth_redact : (v : Value) → normalized.depth (redact v) ≤ reach v
  | .Object fields => by
    have := depth_redact_fields fields []
    rw [redact, normalized.depth, reach]
    simpa [normalized.fields_depth] using this
  | .Array items => by
    rw [redact, normalized.depth, reach]
    exact depth_redact_items items
  | .Null => Nat.zero_le _
  | .Bool _ => Nat.zero_le _
  | .Number _ => Nat.zero_le _
  | .String _ => Nat.zero_le _

theorem depth_redact_fields : (fields : List (Str × Value)) → (result : Map) →
    normalized.fields_depth (redact_fields fields result) ≤
      max (normalized.fields_depth result) (fields_reach fields)
  | [], result => Nat.le_max_left _ _
  | (key, value) :: rest, result => by
    rw [redact_fields, fields_reach]
    by_cases hkey : sensitive_key key = true
    · have := depth_redact_fields rest result
      rw [if_pos hkey, if_pos hkey]
      omega
    · have hrest := depth_redact_fields rest (result.insert key (redact value))
      have hinsert := fields_depth_insert result key (redact value)
      have hvalue := depth_redact value
      rw [if_neg hkey, if_neg hkey]
      omega

theorem depth_redact_items : (items : List Value) →
    normalized.items_depth (redact_items items) ≤ items_reach items
  | [] => Nat.zero_le _
  | value :: rest => by
    have hvalue := depth_redact value
    have hrest := depth_redact_items rest
    rw [redact_items, normalized.items_depth, items_reach]
    omega

end

/-! ## The paths of an operation -/

/-- The value that a path selects, if there is one and it may be shown. -/
def select (scalars : Bool) (output : Value) (path : Str) : Option Value :=
  if (segments path).any sensitive_key then none
  else (legacy.pointer output path).bind fun value =>
    if scalars && legacy.is_container value then none else some value

def selection (scalars : Bool) (output : Value) (paths : List Str) : List (Str × Value) :=
  paths.filterMap fun path => (select scalars output path).map fun value => (path, value)

theorem selection_cons_none {scalars : Bool} {output : Value} {path : Str} {paths : List Str}
    (h : select scalars output path = none) :
    selection scalars output (path :: paths) = selection scalars output paths := by
  simp [selection, h]

theorem selection_cons_some {scalars : Bool} {output value : Value} {path : Str}
    {paths : List Str} (h : select scalars output path = some value) :
    selection scalars output (path :: paths) =
      (path, value) :: selection scalars output paths := by
  simp [selection, h]

theorem mem_selection {scalars : Bool} {output : Value} {paths : List Str} {s : Str × Value} :
    s ∈ selection scalars output paths ↔ s.1 ∈ paths ∧ select scalars output s.1 = some s.2 := by
  unfold selection
  rw [List.mem_filterMap]
  constructor
  · rintro ⟨path, hmem, hselect⟩
    obtain ⟨value, hvalue, rfl⟩ := Option.map_eq_some_iff.1 hselect
    exact ⟨hmem, hvalue⟩
  · rintro ⟨hmem, hselect⟩
    exact ⟨s.1, hmem, by rw [hselect]; rfl⟩

/-- The values that an operation selects are collected without what is sensitive. -/
def collect (selected : List (Str × Value)) (projected : Map) : Map :=
  selected.foldl (fun projected s => projected.insert s.1 (redact s.2)) projected

theorem legacy_fields_eq (scalars : Bool) (source : Value) (path : Str) (rest : List Str)
    (result : Map) : legacy.project_fields scalars source (path :: rest) result =
      match select scalars source path with
      | none => legacy.project_fields scalars source rest result
      | some value => budget.key path (!result.isEmpty) >>= fun _ =>
        legacy.redact value 1 >>= fun value =>
          legacy.project_fields scalars source rest (result.insert path value) := by
  rw [legacy.project_fields, select]
  by_cases hpath : (segments path).any sensitive_key = true
  · rw [if_pos hpath, if_pos hpath]
  rw [if_neg hpath, if_neg hpath]
  cases legacy.pointer source path with
  | none => rfl
  | some value =>
    rw [Option.bind_some]
    by_cases hscalars : (scalars && legacy.is_container value) = true
    · simp only [hscalars, if_true]
    · simp only [hscalars, Bool.false_eq_true, if_false]

theorem project_fields_eq {operation : Operation} {output : Value} {paths : List Str}
    (hvalid : ∀ path ∈ paths, valid_pointer path = true) (projected : Map) :
    operation.project_fields output paths projected =
      collect (selection (operation.output_mode = .Scalars) output paths) projected := by
  induction paths generalizing projected with
  | nil => rfl
  | cons path rest ih =>
    rw [List.forall_mem_cons] at hvalid
    rw [Operation.project_fields, hvalid.1, Bool.not_true, Bool.false_or]
    by_cases hpath : (segments path).any sensitive_key = true
    · have hnone : select (operation.output_mode = .Scalars) output path = none := if_pos hpath
      rw [if_pos hpath, selection_cons_none hnone]
      exact ih hvalid.2 projected
    have hselect : select (operation.output_mode = .Scalars) output path =
        (legacy.pointer output path).bind fun value =>
          if operation.output_mode = .Scalars && legacy.is_container value then none
          else some value := if_neg hpath
    rw [if_neg hpath]
    cases hpointer : legacy.pointer output path with
    | none =>
      rw [hpointer] at hselect
      rw [selection_cons_none hselect]
      exact ih hvalid.2 projected
    | some value =>
      rw [hpointer, Option.bind_some] at hselect
      by_cases hscalars : (operation.output_mode = .Scalars && legacy.is_container value) = true
      · rw [if_pos hscalars] at hselect
        rw [selection_cons_none hselect]
        simp only [hscalars, if_true]
        exact ih hvalid.2 projected
      · rw [if_neg hscalars] at hselect
        rw [selection_cons_some hselect]
        simp only [hscalars, Bool.false_eq_true, if_false]
        exact ih hvalid.2 _

/-- A selection of paths without any twice. -/
theorem selection_keys {scalars : Bool} {output : Value} (paths : List Str) :
    ((selection scalars output paths).map Prod.fst).Sublist paths := by
  induction paths with
  | nil => exact .slnil
  | cons path rest ih =>
    cases hselect : select scalars output path with
    | none =>
      rw [selection_cons_none hselect]
      exact ih.cons path
    | some value =>
      rw [selection_cons_some hselect, List.map_cons]
      exact ih.cons_cons path

/-- What was redacted, with its paths. -/
def redacted (selected : List (Str × Value)) : Map := selected.map fun s => (s.1, redact s.2)

theorem redacted_cons (s : Str × Value) (selected : List (Str × Value)) :
    redacted (s :: selected) = (s.1, redact s.2) :: redacted selected := rfl

theorem size_collect {selected : List (Str × Value)} {projected : Map}
    (h : Fresh selected projected) : size (.Object (collect selected projected)) =
      size (.Object projected) +
        normalized.fields_size (redacted selected) (!projected.isEmpty) := by
  induction selected generalizing projected with
  | nil => simp [collect, redacted, normalized.fields_size]
  | cons s selected ih =>
    have hrest := ih (h.insert (redact s.2))
    rw [insert_not_empty, size_insert h.head] at hrest
    rw [redacted_cons, normalized.fields_size]
    refine hrest.trans ?_
    simp only [Bool.not_false]
    omega

theorem mem_collect {selected : List (Str × Value)} {projected : Map} {f : Str × Value}
    (h : f ∈ collect selected projected) : f ∈ redacted selected ∨ f ∈ projected := by
  induction selected generalizing projected with
  | nil => exact .inr h
  | cons s selected ih =>
    rcases ih h with hmem | hmem
    · exact .inl (List.mem_cons_of_mem _ hmem)
    · rcases Map.mem_insert hmem with rfl | hmem
      · exact .inl List.mem_cons_self
      · exact .inr hmem

theorem project_fields_yields {scalars : Bool} {source : Value} (paths : List Str)
    (hsorted : ∀ s ∈ selection scalars source paths, Sorted s.2) {result : Map}
    (hfresh : Fresh (selection scalars source paths) result) :
    Yields (legacy.project_fields scalars source paths result)
      (∀ s ∈ selection scalars source paths, 1 + reach s.2 ≤ MAX_VALUE_DEPTH ∧ ShortKeys s.2)
      (normalized.fields_size (redacted (selection scalars source paths)) (!result.isEmpty))
      ((selection scalars source paths).map fun s => visits s.2).sum
      (collect (selection scalars source paths) result) := by
  induction paths generalizing result with
  | nil => exact (Yields.pure result).cast (by simp [selection]) rfl rfl rfl
  | cons path rest ih =>
    rw [legacy_fields_eq]
    cases hselect : select scalars source path with
    | none =>
      rw [selection_cons_none hselect] at hsorted hfresh ⊢
      exact ih hsorted hfresh
    | some value =>
      rw [selection_cons_some hselect] at hsorted hfresh ⊢
      rw [List.forall_mem_cons] at hsorted
      refine ((Yields.key path _).seq fun _ => (redact_yields value hsorted.1 1).bind fun _ =>
        ih hsorted.2 (hfresh.insert (redact value))).cast ?_ ?_ ?_ rfl
      · rw [List.forall_mem_cons, true_and]
      · rw [insert_not_empty, redacted_cons, normalized.fields_size]
        simp only [Bool.not_false]
        omega
      · simp

/-! ## What a pointer leads to -/

theorem walk_sorted {v w : Value} {tokens : List Str} (hv : Sorted v)
    (h : legacy.walk v tokens = some w) : Sorted w := by
  induction tokens generalizing v with
  | nil =>
    cases v <;> simp [legacy.walk] at h <;> exact h ▸ hv
  | cons token rest ih =>
    cases v with
    | Object fields =>
      rw [legacy.walk] at h
      obtain ⟨next, hnext, hwalk⟩ := Option.bind_eq_some_iff.1 h
      exact ih (hv.get hnext) hwalk
    | Array items =>
      rw [legacy.walk] at h
      obtain ⟨next, hnext, hwalk⟩ := Option.bind_eq_some_iff.1 h
      obtain ⟨index, -, hitem⟩ := Option.bind_eq_some_iff.1 hnext
      by_cases hindex : index < 2 ^ 64
      · rw [if_pos hindex] at hitem
        exact ih (hv.item hitem) hwalk
      · rw [if_neg hindex] at hitem
        cases hitem
    | Null => simp [legacy.walk] at h
    | Bool value => simp [legacy.walk] at h
    | Number value => simp [legacy.walk] at h
    | String value => simp [legacy.walk] at h

theorem select_sorted {scalars : Bool} {output value : Value} {path : Str} (hv : Sorted output)
    (h : select scalars output path = some value) : Sorted value := by
  unfold select at h
  split at h
  · cases h
  · obtain ⟨found, hfound, hvalue⟩ := Option.bind_eq_some_iff.1 h
    split at hvalue
    · cases hvalue
    · cases hvalue
      unfold legacy.pointer at hfound
      split at hfound
      · cases hfound
        exact hv
      · split at hfound
        · exact walk_sorted hv hfound
        · cases hfound

/-- What is selected has no sensitive name on its way, and is a scalar where only scalars may
be shown. -/
theorem select_shown {scalars : Bool} {output value : Value} {path : Str}
    (h : select scalars output path = some value) :
    (segments path).any sensitive_key = false ∧
      (scalars = true → legacy.is_container value = false) := by
  unfold select at h
  by_cases hpath : (segments path).any sensitive_key = true
  · rw [if_pos hpath] at h
    cases h
  · rw [if_neg hpath] at h
    obtain ⟨found, -, hvalue⟩ := Option.bind_eq_some_iff.1 h
    refine ⟨Bool.eq_false_iff.2 hpath, ?_⟩
    rintro rfl
    cases hcontainer : legacy.is_container found with
    | true => simp [hcontainer] at hvalue
    | false =>
      simp [hcontainer] at hvalue
      rw [← hvalue, hcontainer]

theorem is_container_redact (v : Value) : legacy.is_container (redact v) =
    legacy.is_container v := by
  cases v <;> simp [redact, legacy.is_container]

/-! ## The projection of an invocation -/

/-- The paths of an accepted operation are different, and each is a pointer. -/
theorem disjoint_paths {paths : List Str} (h : disjoint_output_fields paths = true) :
    (∀ path ∈ paths, valid_pointer path = true) ∧ paths.Nodup := by
  simp only [disjoint_output_fields, Bool.and_eq_true, decide_eq_true_eq, List.all_eq_true] at h
  obtain ⟨⟨-, hvalid⟩, hdisjoint⟩ := h
  refine ⟨hvalid, ?_⟩
  have hlt := slices.sort_by_key_lt id (paths.map segments) fun pair hpair heq => by
    have hprefix_free : (slices.windows2 (slices.sort_by_key id (paths.map segments))).any
        (fun pair => pair.1.isPrefixOf pair.2) = false := by
      simpa [projection.disjoint] using hdisjoint
    have hpair := List.any_eq_false.1 hprefix_free pair hpair
    simp only [id_eq] at heq
    rw [heq] at hpair
    simp at hpair
  have hnodup : (slices.sort_by_key id (paths.map segments)).Nodup := by
    rw [List.map_id] at hlt
    exact hlt.imp ne_of_lt
  exact List.Nodup.of_map segments
    ((slices.sort_by_key_perm id (paths.map segments)).nodup_iff.1 hnodup)

/-- What an operation selects of an output. -/
def Operation.selected (operation : Operation) (output : Value) : List (Str × Value) :=
  selection (operation.output_mode = .Scalars) output operation.output_fields

/-- The result fits: its text is short enough, and so is the way through the values that are
selected. A selected value is one container deep. -/
structure Fits (operation : Operation) (output : Value) : Prop where
  bytes : size (operation.project output) ≤ MAX_NORMALIZED_BYTES
  depth : ∀ s ∈ operation.selected output, 1 + reach s.2 ≤ MAX_VALUE_DEPTH
  visits : ((operation.selected output).map fun s => visits s.2).sum ≤ MAX_VALUE_NODES
  keys : ∀ s ∈ operation.selected output, ShortKeys s.2

theorem project_eq {operation : Operation} {output : Value}
    (hmode : operation.output_mode = .Scalars ∨ operation.output_mode = .Structured)
    (hpaths : disjoint_output_fields operation.output_fields = true) :
    operation.project output = .Object (collect (operation.selected output) []) := by
  have hproject : operation.project output =
      .Object (operation.project_fields output operation.output_fields []) := by
    unfold Operation.project
    rcases hmode with h | h <;> simp [h, hpaths]
  rw [hproject, project_fields_eq (disjoint_paths hpaths).1]
  rfl

theorem selected_fresh {operation : Operation} {output : Value}
    (hpaths : disjoint_output_fields operation.output_fields = true) :
    Fresh (operation.selected output) [] :=
  ⟨(disjoint_paths hpaths).2.sublist (selection_keys _), by simp [Map.keys]⟩

theorem legacy_project_ends {operation : Operation} {output : Value} (hsorted : Sorted output)
    (hmode : operation.output_mode = .Scalars ∨ operation.output_mode = .Structured)
    (hpaths : disjoint_output_fields operation.output_fields = true) :
    Fits operation output ∧ legacy.project operation output = .ok (operation.project output) ∨
      ¬ Fits operation output ∧ legacy.project operation output = .error .OutputLimit := by
  have hfresh := @selected_fresh operation output hpaths
  have hproject := @project_eq operation output hmode hpaths
  have hyields := (Yields.bytes 2).seq fun _ => (project_fields_yields operation.output_fields
    (fun s hs => select_sorted hsorted (mem_selection.1 hs).2) hfresh).map Value.Object
  have hsize : size (operation.project output) =
      2 + normalized.fields_size (redacted (operation.selected output)) false := by
    have hempty : size (.Object []) = 2 := by simp [size_object]
    rw [hproject, size_collect hfresh, hempty]
    rfl
  have hfits : Fits operation output ↔
      (∀ s ∈ operation.selected output, 1 + reach s.2 ≤ MAX_VALUE_DEPTH ∧ ShortKeys s.2) ∧
        2 + normalized.fields_size (redacted (operation.selected output)) false ≤
          MAX_NORMALIZED_BYTES ∧
        ((operation.selected output).map fun s => visits s.2).sum ≤ MAX_VALUE_NODES := by
    rw [← hsize]
    constructor
    · rintro ⟨hbytes, hdepth, hvisits, hkeys⟩
      exact ⟨fun s hs => ⟨hdepth s hs, hkeys s hs⟩, hbytes, hvisits⟩
    · rintro ⟨hall, hbytes, hvisits⟩
      exact ⟨hbytes, fun s hs => (hall s hs).1, hvisits, fun s hs => (hall s hs).2⟩
  rcases hyields.ends with ⟨⟨⟨-, hall⟩, hbytes, hvisits⟩, hrun⟩ | ⟨hnot, hrun⟩
  · left
    rw [hproject]
    rw [Nat.zero_add] at hvisits
    exact ⟨hfits.2 ⟨hall, hbytes, hvisits⟩, hrun⟩
  · right
    refine ⟨fun h => hnot ?_, hrun⟩
    obtain ⟨hall, hbytes, hvisits⟩ := hfits.1 h
    rw [Nat.zero_add]
    exact ⟨⟨trivial, hall⟩, hbytes, hvisits⟩

/-- The action of the operation is a call of `ubus` or a program. -/
def Action.is_call : Action → Bool
  | .Ubus .. | .Process .. => true
  | _ => false

theorem invocation_legacy {operation : Operation} {input : Value} {invocation : PreparedInvocation}
    (h : operation.prepare_invocation input = .ok invocation)
    (hmode : operation.output_mode = .Scalars ∨ operation.output_mode = .Structured)
    (haction : operation.action.is_call = true) :
    disjoint_output_fields operation.output_fields = true ∧
      ∀ output, invocation.project output = legacy.project operation output := by
  obtain ⟨action, hprepare, hbound⟩ := except_bind_ok.1 h
  obtain ⟨_, hvalid, -⟩ := except_bind_ok.1 hprepare
  obtain ⟨hheader, -⟩ := Operation.validate_ok.1 hvalid
  have hpaths : disjoint_output_fields operation.output_fields = true := by
    simp only [Operation.valid_header, Bool.and_eq_true] at hheader
    exact hheader.2
  have hpage : action.package_page = none := by
    obtain ⟨values, -, -, -, -, hrun⟩ := (Operation.prepare_ok hvalid).1 hprepare
    cases hcall : operation.action with
    | Ubus object method arguments =>
      rw [hcall] at hrun
      cases hrun
      rfl
    | Process program args =>
      rw [hcall] at hrun
      obtain ⟨_, -, hrun⟩ := except_bind_ok.1 hrun
      cases hrun
      rfl
    | ApkInstalledPage => simp [hcall, Action.is_call] at haction
    | OpkgStatusPage => simp [hcall, Action.is_call] at haction
  have hinvocation : invocation = ⟨action, .Legacy operation⟩ := by
    rcases hmode with hmode | hmode
    · rw [hmode] at hbound
      cases hbound
      rfl
    · rw [hmode] at hbound
      cases hbound
      rfl
  refine ⟨hpaths, fun output => ?_⟩
  rw [hinvocation, PreparedInvocation.project, hpage]
  rfl

/-- What may be shown of a result: every path is one that the operation names, with no sensitive
name on it, and no selected value has a member of a sensitive name at any depth. -/
def Shown (operation : Operation) : Value → Prop
  | .Object fields => ∀ f ∈ fields, f.1 ∈ operation.output_fields ∧
      (segments f.1).any sensitive_key = false ∧ Clean f.2 ∧
      (operation.output_mode = .Scalars → legacy.is_container f.2 = false)
  | _ => False

theorem project_shown {operation : Operation} {output : Value}
    (hmode : operation.output_mode = .Scalars ∨ operation.output_mode = .Structured)
    (hpaths : disjoint_output_fields operation.output_fields = true) :
    Shown operation (operation.project output) := by
  rw [project_eq hmode hpaths, Shown]
  intro f hf
  rcases mem_collect hf with hf | hf
  · obtain ⟨s, hs, rfl⟩ := List.mem_map.1 hf
    obtain ⟨hmem, hselect⟩ := mem_selection.1 hs
    obtain ⟨hname, hscalars⟩ := select_shown hselect
    refine ⟨hmem, hname, clean_redact s.2, fun hmode => ?_⟩
    rw [is_container_redact]
    exact hscalars (by simpa using hmode)
  · cases hf

theorem fields_depth_collect (selected : List (Str × Value)) (projected : Map) {d : Nat}
    (hprojected : normalized.fields_depth projected ≤ d) (h : ∀ s ∈ selected, 1 + reach s.2 ≤ d) :
    normalized.fields_depth (collect selected projected) ≤ d := by
  induction selected generalizing projected with
  | nil => exact hprojected
  | cons s selected ih =>
    rw [List.forall_mem_cons] at h
    have hinsert := fields_depth_insert projected s.1 (redact s.2)
    have hvalue := depth_redact s.2
    refine ih (projected.insert s.1 (redact s.2)) ?_ h.2
    omega

theorem project_checked {operation : Operation} {output : Value}
    (hmode : operation.output_mode = .Scalars ∨ operation.output_mode = .Structured)
    (hpaths : disjoint_output_fields operation.output_fields = true)
    (h : Fits operation output) :
    normalized.check_normalized_result (operation.project output) = .ok () := by
  rw [normalized.check_normalized_result_ok]
  refine ⟨?_, h.bytes, normalized.nodes_within h.bytes⟩
  rw [project_eq hmode hpaths, normalized.depth]
  exact fields_depth_collect _ [] (Nat.zero_le _) h.depth

/-- The projection of an invocation is the one without a budget as long as that fits, and stops at
a limit otherwise. What is returned shows nothing that is sensitive, and passes the check of a
result. -/
theorem the_projection_with_a_budget_is_the_one_without {operation : Operation} {input : Value}
    {invocation : PreparedInvocation} (h : operation.prepare_invocation input = .ok invocation)
    (hmode : operation.output_mode = .Scalars ∨ operation.output_mode = .Structured)
    (haction : operation.action.is_call = true) (output : Document) :
    (Fits operation output.1 ∧ invocation.project output.1 = .ok (operation.project output.1) ∧
        normalized.check_normalized_result (operation.project output.1) = .ok () ∨
      ¬ Fits operation output.1 ∧ invocation.project output.1 = .error .OutputLimit) ∧
    Shown operation (operation.project output.1) := by
  obtain ⟨hpaths, hlegacy⟩ := invocation_legacy h hmode haction
  refine ⟨?_, project_shown hmode hpaths⟩
  rw [hlegacy]
  rcases legacy_project_ends output.2 hmode hpaths with ⟨hfits, hrun⟩ | hnot
  · exact .inl ⟨hfits, hrun, project_checked hmode hpaths hfits⟩
  · exact .inr hnot

/-- A call with one path. The name of its result is the path, in which a slash stands inside of a
word that is sensitive. -/
def split_word : Operation where
  name := "status".toList
  description := "Reads one value.".toList
  requirements := [⟨.Diagnostics, .Read⟩]
  parameters := .empty
  action := .Process "/usr/bin/status".toList []
  capability := .Unverified
  output_fields := ["/p/sk".toList]
  output_mode := .Structured

def split_output : Value := .Object [("p".toList, .Object [("sk".toList, .Null)])]

theorem split_word_prepared : ∃ invocation, split_word.prepare_invocation (.Object []) =
    .ok invocation := by
  have hok : (split_word.prepare_invocation (.Object [])).toOption.isSome = true := by
    decide +kernel
  cases h : split_word.prepare_invocation (.Object []) with
  | error e =>
    rw [h] at hok
    cases hok
  | ok invocation => exact ⟨invocation, rfl⟩

theorem split_output_sorted : Sorted split_output := by
  simp [split_output, Sorted, sorted_fields, Map.keys]

theorem a_path_may_be_sensitive_as_a_whole : ∃ invocation v,
    split_word.prepare_invocation (.Object []) = .ok invocation ∧
      invocation.project split_output = .ok v ∧ ¬ Clean v := by
  obtain ⟨invocation, h⟩ := split_word_prepared
  obtain ⟨-, hlegacy⟩ := invocation_legacy h (.inr rfl) rfl
  refine ⟨invocation, .Object [("/p/sk".toList, .Null)], h, ?_, ?_⟩
  · rw [hlegacy]
    rfl
  · rintro ⟨hkey, -⟩
    exact absurd hkey (by decide)

theorem a_path_is_projected_with_a_budget : ∃ invocation,
    split_word.prepare_invocation (.Object []) = .ok invocation ∧
      Fits split_word split_output ∧
      invocation.project split_output = .ok (split_word.project split_output) ∧
      normalized.check_normalized_result (split_word.project split_output) = .ok () ∧
      Shown split_word (split_word.project split_output) := by
  obtain ⟨invocation, h⟩ := split_word_prepared
  obtain ⟨-, hlegacy⟩ := invocation_legacy h (.inr rfl) rfl
  have hok : invocation.project split_output = .ok (.Object [("/p/sk".toList, .Null)]) := by
    rw [hlegacy]
    rfl
  obtain ⟨⟨hfits, hproject, hcheck⟩ | ⟨-, hstop⟩, hshown⟩ :=
    the_projection_with_a_budget_is_the_one_without h (.inr rfl) rfl
      ⟨split_output, split_output_sorted⟩
  · exact ⟨invocation, h, hfits, hproject, hcheck, hshown⟩
  · rw [show invocation.project split_output = _ from hstop] at hok
    cases hok

end openwrt_mcp_core
