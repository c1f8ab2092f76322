-- The arguments of an action: where each comes from, and what is known of it once the operation
-- and the input have passed their checks.
import OpenwrtMcp.InputLaws

open decimals json maps programs text

namespace openwrt_mcp_core

/-! ## Where a value comes from -/

/-- What a literal stands for: itself, or the value of the parameter that it refers to. -/
def given (values : Map) (literal : Value) : Option Value :=
  match (as_str literal).bind parameter_reference with
  | none => some literal
  | some name => values.get name

/-- The text that an argument stands for. -/
def given_text (values : Map) (arg : Str) : Option Str :=
  match parameter_reference arg with
  | none => some arg
  | some name => (values.get name).bind scalar_text

theorem prepare_arguments_cons (values : Map) (key : Str) (literal : Value)
    (rest : List (Str × Value)) (prepared : Map) :
    prepare_arguments values ((key, literal) :: rest) prepared =
      prepare_arguments values rest
        ((given values literal).elim prepared (prepared.insert key ·)) := by
  unfold given
  rw [prepare_arguments]
  cases (as_str literal).bind parameter_reference with
  | none => rfl
  | some name =>
    simp only
    cases values.get name <;> rfl

/-- The object that is sent: each literal, and under a key that refers to a parameter the value
that was given for it, if one was. -/
def sent (values : Map) (entries : List (Str × Value)) : Map :=
  entries.filterMap fun e => (given values e.2).map (e.1, ·)

theorem insert_last {m : Map} {key : Str} (value : Value) (h : ∀ k ∈ m.keys, k < key) :
    m.insert key value = m ++ [(key, value)] := by
  induction m with
  | nil => rfl
  | cons e m ih =>
    rw [Map.keys, List.map_cons, List.forall_mem_cons] at h
    have hlt : ¬ key < e.1 := lt_asymm h.1
    have hne : key ≠ e.1 := ne_of_gt h.1
    rw [Map.insert, if_neg hlt, if_neg hne, ih h.2, List.cons_append]

theorem prepare_arguments_eq (values : Map) {entries : List (Str × Value)} {prepared : Map}
    (hsorted : (entries.map Prod.fst).Pairwise (· < ·))
    (hlater : ∀ k ∈ prepared.keys, ∀ e ∈ entries, k < e.1) :
    prepare_arguments values entries prepared = prepared ++ sent values entries := by
  induction entries generalizing prepared with
  | nil => simp [prepare_arguments, sent]
  | cons entry entries ih =>
    obtain ⟨key, literal⟩ := entry
    rw [List.map_cons, List.pairwise_cons] at hsorted
    have hfirst : ∀ k ∈ prepared.keys, k < key := fun k hk => hlater k hk _ List.mem_cons_self
    have hrest : ∀ k ∈ prepared.keys, ∀ e ∈ entries, k < e.1 := fun k hk e he =>
      hlater k hk e (List.mem_cons_of_mem _ he)
    rw [prepare_arguments_cons]
    cases hgiven : given values literal with
    | none =>
      rw [Option.elim_none, ih hsorted.2 hrest]
      simp [sent, hgiven]
    | some v =>
      rw [Option.elim_some, insert_last v hfirst, ih hsorted.2]
      · simp [sent, hgiven]
      · intro k hk e he
        rw [Map.keys, List.map_append, List.mem_append] at hk
        rcases hk with hk | hk
        · exact hrest k hk e he
        · rw [List.map_singleton, List.mem_singleton] at hk
          rw [hk]
          exact hsorted.1 e.1 (List.mem_map_of_mem he)

/-- What is prepared is what is sent. -/
theorem prepare_arguments_sent (values : Map) (arguments : BTreeMap Str Value) :
    prepare_arguments values arguments.entries [] = sent values arguments.entries :=
  prepare_arguments_eq values arguments.sorted (by simp [Map.keys])

theorem mem_sent {values : Map} {entries : List (Str × Value)} {e : Str × Value}
    (h : e ∈ sent values entries) :
    ∃ literal, (e.1, literal) ∈ entries ∧ given values literal = some e.2 := by
  obtain ⟨entry, hentry, heq⟩ := List.mem_filterMap.1 h
  obtain ⟨v, hv, rfl⟩ := Option.map_eq_some_iff.1 heq
  exact ⟨entry.2, hentry, hv⟩

theorem lookup_sent {values : Map} {entries : List (Str × Value)}
    (hnodup : (entries.map Prod.fst).Nodup) (key : Str) :
    (sent values entries).get key = (entries.lookup key).bind (given values) := by
  unfold Map.get sent
  induction entries with
  | nil => rfl
  | cons entry entries ih =>
    obtain ⟨first, literal⟩ := entry
    rw [List.map_cons, List.nodup_cons] at hnodup
    have ih := ih hnodup.2
    rw [List.lookup_cons]
    by_cases hkey : key = first
    · have hnone : entries.lookup key = none := by
        rw [List.lookup_eq_none_iff]
        intro e he
        have hne : key ≠ e.1 := by
          intro heq
          exact hnodup.1 (List.mem_map.2 ⟨e, he, heq.symm.trans hkey⟩)
        simpa using hne
      rw [hnone, Option.bind_none] at ih
      cases hgiven : given values literal with
      | none => simpa [hgiven, hkey] using ih
      | some v => simp [hgiven, hkey]
    · rw [beq_false_of_ne hkey]
      cases hgiven : given values literal with
      | none => simp [hgiven, ih]
      | some v => simpa [hgiven, List.lookup_cons, beq_false_of_ne hkey] using ih

/-- Under each key of the action there is what its literal stands for. -/
theorem get_sent (values : Map) (arguments : BTreeMap Str Value) (key : Str) :
    (sent values arguments.entries).get key = (arguments.get key).bind (given values) := by
  rw [lookup_sent arguments.nodup_keys]
  -- The two lookups compare the keys by two instances.
  congr 2
  exact lawful_beq_subsingleton _ _

theorem prepare_args_cons_ok {values : Map} {arg : Str} {args prepared : List Str} :
    prepare_args values (arg :: args) = .ok prepared ↔ ∃ word words,
      given_text values arg = some word ∧ prepare_args values args = .ok words ∧
        prepared = word :: words := by
  unfold given_text
  rw [prepare_args]
  cases parameter_reference arg with
  | none =>
    simp only [except_bind_ok, Except.ok.injEq, Option.some.injEq, exists_eq_left',
      exists_and_left, @eq_comm _ _ prepared]
  | some name =>
    cases hget : values.get name with
    | none => simp [hget, except_bind_ok]
    | some v =>
      cases htext : scalar_text v with
      | none => simp [hget, htext, except_bind_ok]
      | some text =>
        simp only [hget, htext, except_bind_ok, Except.ok.injEq, Option.bind_some,
          Option.some.injEq, exists_eq_left', exists_and_left, @eq_comm _ _ prepared]

/-- Each word is what its argument stands for, and there is one for every argument. -/
theorem prepare_args_eq_ok {values : Map} {args prepared : List Str} :
    prepare_args values args = .ok prepared ↔
      List.Forall₂ (fun arg word => given_text values arg = some word) args prepared := by
  induction args generalizing prepared with
  | nil => simp [prepare_args, eq_comm]
  | cons arg args ih =>
    rw [prepare_args_cons_ok, List.forall₂_cons_left_iff]
    simp only [ih]

/-! ## The values that are taken -/

/-- The check of a capability is the one of a call on the bus. -/
theorem value_matches_eq (value : Value) (kind : ParameterKind) :
    value_matches value kind = valid_type true kind value := by
  cases kind <;> rfl

theorem len_decimal_le {n : Nat} (h : n < 2 ^ 64) : len (decimal n) ≤ 20 := by
  rw [len_digits fun c => decimal_digits]
  exact (Nat.length_toDigits_le_iff (by decide) (by decide)).2 (by omega)

theorem signed_decimal_bounded {n : Int} (hlow : -2 ^ 63 ≤ n) (hhigh : n < 2 ^ 64) :
    bounded_string (signed_decimal n) MAX_VALUE_BYTES = true := by
  have hmax : MAX_VALUE_BYTES = 1024 := by decide
  have hnul : ∀ n, '\x00' ∉ decimal n := fun n hmem => absurd (decimal_digits hmem) (by decide)
  rw [bounded_string_iff, hmax]
  unfold signed_decimal
  by_cases hn : 0 ≤ n
  · have := len_decimal_le (n := n.toNat) (by omega)
    rw [if_pos hn]
    exact ⟨by omega, hnul _⟩
  · have := len_decimal_le (n := n.natAbs) (by omega)
    have hminus : len ['-'] = 1 := by decide
    rw [if_neg hn, ← List.singleton_append, len_append, hminus]
    refine ⟨by omega, ?_⟩
    simp [hnul]

/-- The text of a value is as short as any text. -/
theorem scalar_text_bounded {ubus : Bool} {kind : ParameterKind} {value : Value} {s : Str}
    (htype : valid_type ubus kind value = true) (htext : scalar_text value = some s) :
    bounded_string s MAX_VALUE_BYTES = true := by
  cases kind with
  | String =>
    obtain ⟨t, ht, hbounded⟩ := (Option.any_eq_true _ _).1 htype
    rw [as_str_eq_some.1 ht] at htext
    rw [← Option.some.inj htext]
    exact hbounded
  | Integer =>
    obtain ⟨number, _, rfl, hn, -⟩ := valid_type_integer.1 htype
    obtain ⟨n, -, hlow, hhigh, heq⟩ := Integral.of_number hn.1
    rw [htext] at heq
    rw [Option.some.inj heq]
    exact signed_decimal_bounded hlow hhigh
  | Boolean =>
    obtain ⟨b, rfl⟩ := typed_of_valid_type htype
    rw [← Option.some.inj htext]
    cases b <;> decide

/-- Each value that is given is of the kind of its parameter. -/
def Taken (operation : Operation) (values : Map) : Prop :=
  ∀ name parameter v, operation.parameters.get name = some parameter →
    values.get name = some v → valid_type operation.action.is_ubus parameter.kind v = true

namespace Operation

theorem taken_of_prepare {operation : Operation} (hvalid : operation.validate = .ok ())
    {input : Value} {action : PreparedAction} (h : operation.prepare input = .ok action) :
    ∃ values, input = .Object values ∧ Taken operation values ∧
      prepare_action values operation.action = .ok action := by
  obtain ⟨values, rfl, -, hvalues, -, haction⟩ := (prepare_ok hvalid).1 h
  refine ⟨values, rfl, ?_, haction⟩
  intro name parameter v hparameter hv
  have hmem := BTreeMap.get_eq_some.1 hparameter
  exact (check_value_ok.1 ((check_values_ok.1 hvalues).2 _ hmem v hv)).1

end Operation

/-! ## Calls on the bus -/

/-- What is known of an argument of an accepted call: its name, and its kind in the
requirement. -/
structure Reviewed (operation : Operation) (kinds : BTreeMap Str ParameterKind)
    (argument : Str × Value) : Prop where
  name : identifier argument.1 = true
  bounded : ∀ s, argument.2 = .String s → bounded_string s MAX_VALUE_BYTES = true
  kind : ∃ kind, CapabilityRequirement.argument_kind operation.parameters argument.2 = .ok kind ∧
    kinds.get argument.1 = some kind

theorem bounded_of_reference {parameters : BTreeMap Str Parameter} {value : Str}
    {used used' : List Str} (h : validate_reference parameters value used = .ok used') :
    bounded_string value MAX_VALUE_BYTES = true := by
  unfold validate_reference at h
  split at h
  · cases h
  · rename_i hbounded
    simpa using hbounded

theorem arguments_of_validate {parameters : BTreeMap Str Parameter} {entries : List (Str × Value)}
    {used used' : List Str} (h : validate_arguments parameters entries used = .ok used') :
    ∀ e ∈ entries, identifier e.1 = true ∧
      ∀ s, e.2 = .String s → bounded_string s MAX_VALUE_BYTES = true := by
  induction entries generalizing used with
  | nil => simp
  | cons e entries ih =>
    obtain ⟨key, value⟩ := e
    unfold validate_arguments at h
    rw [List.forall_mem_cons]
    split at h
    · cases h
    rename_i hkey
    rw [Bool.not_eq_true', Bool.not_eq_false] at hkey
    split at h
    · rename_i s
      obtain ⟨next, hreference, h⟩ := except_bind_ok.1 h
      refine ⟨⟨hkey, ?_⟩, ih h⟩
      intro t ht
      rw [← Value.String.inj ht]
      exact bounded_of_reference hreference
    · exact ⟨⟨hkey, by simp⟩, ih h⟩
    · split at h
      · exact ⟨⟨hkey, by simp⟩, ih h⟩
      · cases h
    · cases h

theorem kinds_of_check {kinds : BTreeMap Str ParameterKind} {parameters : BTreeMap Str Parameter}
    {entries : List (Str × Value)}
    (h : CapabilityRequirement.check_arguments kinds parameters entries = .ok ()) :
    ∀ e ∈ entries, ∃ kind, CapabilityRequirement.argument_kind parameters e.2 = .ok kind ∧
      kinds.get e.1 = some kind := by
  induction entries with
  | nil => simp
  | cons e entries ih =>
    obtain ⟨key, value⟩ := e
    unfold CapabilityRequirement.check_arguments at h
    obtain ⟨kind, hkind, h⟩ := except_bind_ok.1 h
    rw [List.forall_mem_cons]
    split at h
    · cases h
    · rename_i hsame
      exact ⟨⟨kind, hkind, not_not.1 hsame⟩, ih h⟩

/-- A requirement that is right for a call is one on its method. -/
theorem method_of_validate_for {requirement : CapabilityRequirement} {object method : Str}
    {arguments : BTreeMap Str Value} {parameters : BTreeMap Str Parameter}
    (h : requirement.validate_for (.Ubus object method arguments) parameters = .ok ()) :
    ∃ kinds response_contract,
      requirement = .UbusMethod object method kinds response_contract ∧
        kinds.len = arguments.len ∧
        CapabilityRequirement.check_arguments kinds parameters arguments.entries = .ok () := by
  unfold CapabilityRequirement.validate_for at h
  split at h
  · cases h
  cases requirement with
  | UbusMethod object' method' kinds response_contract =>
    simp only at h
    split at h
    · rename_i hsame
      obtain ⟨rfl, rfl, hlen⟩ := hsame
      exact ⟨kinds, response_contract, rfl, hlen, h⟩
    · cases h
  | ApkInstalledQuery => cases h
  | OpkgRootStatusFile => cases h
  | Unverified => cases h

theorem Operation.call_of_validate {operation : Operation} (h : operation.validate = .ok ())
    {object method : Str} {arguments : BTreeMap Str Value}
    (haction : operation.action = .Ubus object method arguments) :
    ubus_identifier object = true ∧ ubus_identifier method = true ∧
      arguments.len ≤ MAX_ARGUMENTS ∧ ∃ kinds response_contract,
        operation.capability = .UbusMethod object method kinds response_contract ∧
          kinds.len = arguments.len ∧ ∀ e ∈ arguments.entries, Reviewed operation kinds e := by
  obtain ⟨-, -, ⟨selected, used, -, hused, -⟩, -, hcapability, -⟩ := validate_ok.1 h
  unfold validate_action at hused
  simp only [haction] at hused
  split at hused
  · cases hused
  · rename_i hparts
    simp only [Bool.or_eq_true, Bool.not_eq_true', decide_eq_true_eq, not_or, Bool.not_eq_false,
      Nat.not_lt] at hparts
    rw [haction] at hcapability
    obtain ⟨kinds, response_contract, hrequirement, hlen, hkinds⟩ :=
      method_of_validate_for hcapability
    refine ⟨hparts.1.1, hparts.1.2, hparts.2, kinds, response_contract, hrequirement, hlen, ?_⟩
    intro e he
    obtain ⟨hname, hbounded⟩ := arguments_of_validate hused e he
    exact ⟨hname, hbounded, kinds_of_check hkinds e he⟩

/-- What is sent for an argument is of the kind that the requirement has for it. -/
theorem Reviewed.given {operation : Operation} {kinds : BTreeMap Str ParameterKind}
    {argument : Str × Value} (h : Reviewed operation kinds argument)
    (hubus : operation.action.is_ubus = true) {values : Map} (htaken : Taken operation values)
    {v : Value} (hgiven : given values argument.2 = some v) :
    ∃ kind, kinds.get argument.1 = some kind ∧ valid_type true kind v = true := by
  obtain ⟨kind, hkind, hget⟩ := h.kind
  refine ⟨kind, hget, ?_⟩
  obtain ⟨key, literal⟩ := argument
  unfold CapabilityRequirement.argument_kind at hkind
  cases literal with
  | String s =>
    simp only [openwrt_mcp_core.given, as_str, Option.bind_some] at hgiven hkind
    cases hreference : parameter_reference s with
    | none =>
      simp only [hreference] at hgiven hkind
      rw [← Option.some.inj hgiven, ← Except.ok.inj hkind]
      exact h.bounded s rfl
    | some name =>
      simp only [hreference] at hgiven hkind
      cases hparameter : operation.parameters.get name with
      | none => simp [hparameter] at hkind
      | some parameter =>
        simp only [hparameter, Except.ok.injEq] at hkind
        have htype := htaken name parameter v hparameter hgiven
        rw [hubus] at htype
        rw [← hkind]
        exact htype
  | Bool b =>
    rw [← Except.ok.inj hkind, ← Option.some.inj hgiven]
    rfl
  | Number number =>
    simp only at hkind
    split at hkind
    · rename_i hinteger
      rw [← Except.ok.inj hkind, ← Option.some.inj hgiven]
      exact hinteger
    · cases hkind
  | Null => cases hkind
  | Array items => cases hkind
  | Object fields => cases hkind

section
variable {operation : Operation} {kinds : BTreeMap Str ParameterKind}
  {arguments : BTreeMap Str Value} {values : Map}

/-- Everything that is sent has a name and a kind that the requirement knows. -/
theorem reviewed_sent (h : ∀ e ∈ arguments.entries, Reviewed operation kinds e)
    (hubus : operation.action.is_ubus = true) (htaken : Taken operation values)
    {e : Str × Value} (he : e ∈ sent values arguments.entries) :
    identifier e.1 = true ∧ ∃ kind, kinds.get e.1 = some kind ∧
      valid_type true kind e.2 = true := by
  obtain ⟨literal, hmem, hgiven⟩ := mem_sent he
  have hreviewed := h _ hmem
  exact ⟨hreviewed.name, hreviewed.given hubus htaken hgiven⟩

/-- The capability finds the arguments in order. -/
theorem actual_arguments_sent {object method : Str} (hlen : kinds.len = arguments.len)
    (h : ∀ e ∈ arguments.entries, Reviewed operation kinds e)
    (hubus : operation.action.is_ubus = true) (htaken : Taken operation values) :
    CapabilityRequirement.actual_arguments object method kinds
        (some (.Ubus object method (.Object (sent values arguments.entries)))) =
      .ok (some (sent values arguments.entries)) := by
  have hshort : ¬ (sent values arguments.entries).length > kinds.len := by
    rw [hlen]
    exact Nat.not_lt.2 (List.length_filterMap_le _ _)
  have hmatches : ((sent values arguments.entries).any fun e =>
      !(kinds.get e.1).any (value_matches e.2)) = false := by
    rw [List.any_eq_false]
    intro e he
    obtain ⟨-, kind, hkind, htype⟩ := reviewed_sent h hubus htaken he
    rw [hkind, Option.any_some, value_matches_eq, htype]
    decide
  unfold CapabilityRequirement.actual_arguments
  simp only [and_self, if_true, as_object, hshort, hmatches, decide_false, Bool.or_false,
    Bool.false_eq_true, if_false]

end

/-! ## Programs -/

theorem args_of_validate {parameters : BTreeMap Str Parameter} {args used used' : List Str}
    (h : validate_args parameters args used = .ok used') :
    ∀ arg ∈ args, bounded_string arg MAX_VALUE_BYTES = true := by
  induction args generalizing used with
  | nil => simp
  | cons arg args ih =>
    unfold validate_args at h
    obtain ⟨next, hreference, h⟩ := except_bind_ok.1 h
    rw [List.forall_mem_cons]
    split at h
    · cases h
    · exact ⟨bounded_of_reference hreference, ih h⟩

/-- An accepted program: its path, and its words when it is run. -/
theorem Operation.program_of_validate {operation : Operation} (h : operation.validate = .ok ())
    {program : Str} {args : List Str} (haction : operation.action = .Process program args)
    {values : Map} (htaken : Taken operation values) {words : List Str}
    (hwords : prepare_args values args = .ok words) :
    valid_program program = true ∧ words.length ≤ MAX_ARGUMENTS ∧
      (∀ word ∈ words, bounded_string word MAX_VALUE_BYTES = true) ∧
      operation.capability = .Unverified := by
  obtain ⟨-, -, ⟨selected, used, -, hused, -⟩, -, hcapability, -⟩ := validate_ok.1 h
  have hrequirement : operation.capability = .Unverified := by
    rw [haction] at hcapability
    unfold CapabilityRequirement.validate_for at hcapability
    split at hcapability
    · cases hcapability
    · cases hkind : operation.capability with
      | Unverified => rfl
      | ApkInstalledQuery => simp [hkind] at hcapability
      | OpkgRootStatusFile => simp [hkind] at hcapability
      | UbusMethod object method kinds response_contract => simp [hkind] at hcapability
  unfold validate_action at hused
  simp only [haction] at hused
  split at hused
  · cases hused
  · rename_i hparts
    simp only [Bool.or_eq_true, Bool.not_eq_true', decide_eq_true_eq, not_or, Bool.not_eq_false,
      Nat.not_lt] at hparts
    have heach := prepare_args_eq_ok.1 hwords
    refine ⟨hparts.1, heach.length_eq ▸ hparts.2, ?_, hrequirement⟩
    intro word hword
    obtain ⟨arg, harg, hgiven⟩ := uci.forall₂_right heach hword
    unfold given_text at hgiven
    split at hgiven
    · rw [← Option.some.inj hgiven]
      exact args_of_validate hused arg harg
    · rename_i name hname
      obtain ⟨v, hv, htext⟩ := Option.bind_eq_some_iff.1 hgiven
      obtain ⟨parameter, hmem, -⟩ := reference_of_validate hused arg harg name hname
      exact scalar_text_bounded (htaken name parameter v (BTreeMap.get_eq_some.2 hmem) hv) htext

/-! ## The verdict -/

theorem observed_verdict_ne {reviewed : ReviewedObject} {method : Str}
    {kinds : BTreeMap Str ParameterKind} {actual : Option Map}
    (observation : CapabilityObservation) :
    CapabilityRequirement.observed_verdict reviewed method kinds actual observation ≠
      .Incompatible .InvalidPreparedAction := by
  unfold CapabilityRequirement.observed_verdict
  intro h
  split at h
  · cases h
  split at h
  · cases h
  split at h
  · cases h
  split at h
  · cases h
  split at h
  · cases h
  split at h
  · cases h
  · cases h

/-- What is prepared from an accepted operation is an action that its requirement knows. -/
theorem Operation.evaluate_prepared_ne {operation : Operation}
    (hvalid : operation.validate = .ok ())
    {input : Value} {action : PreparedAction} (hprepare : operation.prepare input = .ok action)
    (hpage : action.package_page = none) (observation : CapabilityObservation) :
    operation.capability.evaluate observation (some action) ≠
      .Incompatible .InvalidPreparedAction := by
  obtain ⟨values, rfl, htaken, haction⟩ := taken_of_prepare hvalid hprepare
  cases hkind : operation.action with
  | ApkInstalledPage =>
    rw [hkind] at haction
    obtain ⟨cursor, -, heq⟩ := except_bind_ok.1 haction
    rw [← Except.ok.inj heq] at hpage
    cases hpage
  | OpkgStatusPage =>
    rw [hkind] at haction
    obtain ⟨cursor, -, heq⟩ := except_bind_ok.1 haction
    rw [← Except.ok.inj heq] at hpage
    cases hpage
  | Ubus object method arguments =>
    rw [hkind] at haction
    obtain ⟨-, -, -, kinds, response_contract, hrequirement, hlen, hreviewed⟩ :=
      call_of_validate hvalid hkind
    have hubus : operation.action.is_ubus = true := by
      rw [hkind]
      rfl
    rw [← Except.ok.inj haction, hrequirement, prepare_arguments_sent]
    unfold CapabilityRequirement.evaluate
    intro h
    simp only [actual_arguments_sent hlen hreviewed hubus htaken] at h
    split at h
    · cases h
    split at h
    · cases h
    · exact observed_verdict_ne observation h
  | Process program args =>
    rw [hkind] at haction
    obtain ⟨words, hwords, -⟩ := except_bind_ok.1 haction
    obtain ⟨-, -, -, hrequirement⟩ := program_of_validate hvalid hkind htaken hwords
    rw [hrequirement]
    intro h
    cases h

end openwrt_mcp_core
