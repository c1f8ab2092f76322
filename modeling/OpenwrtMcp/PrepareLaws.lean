-- What is enforced of the input of an operation: an input is accepted just when its members are
-- known, those that may not be left out are there, and each has a value that is taken.
import OpenwrtMcp.InputSchema
import OpenwrtMcp.UciLaws

open json maps programs text

namespace openwrt_mcp_core

open projection

/-! ## What is enforced -/

theorem check_value_ok {ubus : Bool} {parameter : Parameter} {value : Value} :
    check_value ubus parameter value = .ok () ↔ valid_type ubus parameter.kind value = true ∧
      (parameter.allowed_values ≠ [] →
        ∃ s, scalar_text value = some s ∧ s ∈ parameter.allowed_values) := by
  unfold check_value
  by_cases htype : valid_type ubus parameter.kind value = true
  · by_cases hallowed : parameter.allowed_values = []
    · simp [htype, hallowed]
    · rw [htype, if_neg (by decide), if_neg hallowed]
      cases htext : scalar_text value with
      | none => simp [hallowed]
      | some s => simp [hallowed]
  · simp [htype]

theorem check_values_ok {ubus : Bool} {values : Map} {parameters : List (Str × Parameter)} :
    check_values ubus values parameters = .ok () ↔
      (∀ p ∈ parameters, p.2.required = true → (values.get p.1).isSome = true) ∧
      ∀ p ∈ parameters, ∀ v, values.get p.1 = some v → check_value ubus p.2 v = .ok () := by
  induction parameters with
  | nil => simp [check_values]
  | cons p parameters ih =>
    unfold check_values
    rw [List.forall_mem_cons, List.forall_mem_cons]
    cases hget : values.get p.1 with
    | none =>
      by_cases hrequired : p.2.required = true
      · simp [hrequired]
      · simp [hrequired, ih]
    | some v =>
      simp only [except_bind_ok, ih, Option.isSome_some, implies_true, true_and,
        Option.some.injEq, forall_eq']
      constructor
      · intro h
        obtain ⟨_, hvalue, hrequired, hrest⟩ := h
        exact ⟨hrequired, hvalue, hrest⟩
      · intro h
        exact ⟨(), h.2.1, h.1, h.2.2⟩

namespace Operation

theorem selector_limit_eq_some {operation : Operation} {name : Str} {max : Nat} :
    operation.selector_limit name = some max ↔
      ∃ definition, operation.output_mode = .Typed definition ∧
        definition.selector = some (name, max) := by
  unfold selector_limit
  cases hmode : operation.output_mode with
  | Scalars => simp
  | Structured => simp
  | Typed definition =>
    simp only [OutputMode.Typed.injEq, exists_eq_left', Option.map_eq_some_iff,
      Option.filter_eq_some_iff, decide_eq_true_eq]
    constructor
    · intro h
      obtain ⟨s, ⟨hselector, rfl⟩, rfl⟩ := h
      exact hselector
    · intro h
      exact ⟨(name, max), ⟨h, rfl⟩, rfl⟩

theorem check_selector_ok {operation : Operation} {values : Map} :
    check_selector values operation.output_mode = .ok () ↔
      ∀ name max, operation.selector_limit name = some max →
        ∃ s, values.get name = some (.String s) ∧ s ≠ [] ∧ bounded_string s max = true := by
  unfold check_selector
  cases hmode : operation.output_mode with
  | Scalars => simp [selector_limit, hmode]
  | Structured => simp [selector_limit, hmode]
  | Typed definition =>
    simp only [selector_limit_eq_some, hmode, OutputMode.Typed.injEq, exists_eq_left']
    cases hselector : definition.selector with
    | none => simp
    | some selected =>
      obtain ⟨name, max⟩ := selected
      simp only [Option.some.injEq, Prod.mk.injEq, and_imp, forall_apply_eq_imp_iff, forall_eq']
      cases hget : values.get name with
      | none => simp
      | some v =>
        cases hstr : as_str v with
        | none =>
          have hother : ∀ s, v ≠ .String s := by
            intro s heq
            rw [heq] at hstr
            cases hstr
          simp [hstr, hother]
        | some s =>
          rw [as_str_eq_some.1 hstr]
          by_cases hempty : s = []
          · simp [as_str, hempty]
          · simp [as_str, hempty]

theorem prepare_ok {operation : Operation} (hvalid : operation.validate = .ok ()) {input : Value}
    {action : PreparedAction} : operation.prepare input = .ok action ↔
      ∃ values, input = .Object values ∧
        (∀ name ∈ Map.keys values, name ∈ operation.parameters.keys) ∧
        check_values operation.action.is_ubus values operation.parameters.entries = .ok () ∧
        check_selector values operation.output_mode = .ok () ∧
        prepare_action values operation.action = .ok action := by
  unfold prepare
  rw [hvalid]
  cases hobject : as_object input with
  | none =>
    have hother : ∀ values, input ≠ .Object values := by
      intro values heq
      rw [heq] at hobject
      cases hobject
    simp [except_bind_ok, hother]
  | some values =>
    rw [as_object_eq_some.1 hobject]
    have hkeys : (values.keys.any fun name => !operation.parameters.contains_key name) = true ↔
        ¬ ∀ name ∈ values.keys, name ∈ operation.parameters.keys := by
      simp [← BTreeMap.contains_key_iff]
    by_cases hknown : ∀ name ∈ values.keys, name ∈ operation.parameters.keys
    · have hnone := (not_congr hkeys).2 (not_not.2 hknown)
      simp only [except_bind_ok, if_neg hnone, Value.Object.injEq, exists_eq_left']
      constructor
      · intro h
        obtain ⟨_, -, _, hvalues, _, hselector, haction⟩ := h
        exact ⟨hknown, hvalues, hselector, haction⟩
      · intro h
        exact ⟨(), trivial, (), h.2.1, (), h.2.2.1, h.2.2.2⟩
    · simp only [except_bind_ok, if_pos (hkeys.2 hknown), Value.Object.injEq, exists_eq_left',
        hknown, false_and, iff_false]
      intro h
      obtain ⟨_, -, h⟩ := h
      cases h

/-! ## What an accepted operation has -/

/-- A page of packages takes one text, which may be left out. -/
theorem cursor_of_validate {operation : Operation} (h : operation.validate = .ok ())
    (hpage : operation.action.package_profile.isSome = true) : ∃ cursor : Parameter,
      operation.parameters.entries = [("cursor".toList, cursor)] ∧ cursor.kind = .String ∧
        cursor.allowed_values = [] ∧ operation.output_mode = .Scalars := by
  obtain ⟨-, -, ⟨selected, used, -, haction, -⟩, -⟩ := validate_ok.1 h
  have hvalidated : operation.validate_page selected = .ok used := by
    unfold validate_action at haction
    cases hkind : operation.action with
    | ApkInstalledPage => simpa only [hkind] using haction
    | OpkgStatusPage => simpa only [hkind] using haction
    | Ubus object method arguments =>
      rw [hkind] at hpage
      cases hpage
    | Process program args =>
      rw [hkind] at hpage
      cases hpage
  unfold validate_page at hvalidated
  split at hvalidated
  · cases hvalidated
  · rename_i cursor hcursor
    split at hvalidated
    · cases hvalidated
    · rename_i hparts
      simp only [Bool.or_eq_true, decide_eq_true_eq, not_or, not_not] at hparts
      obtain ⟨⟨⟨⟨⟨⟨hone, -⟩, hkind⟩, hallowed⟩, -⟩, hmode⟩, -⟩ := hparts
      obtain ⟨entry, hentry⟩ := List.length_eq_one_iff.1 hone
      have hmem := BTreeMap.get_eq_some.1 hcursor
      rw [hentry, List.mem_singleton] at hmem
      exact ⟨cursor, by rw [hentry, hmem], hkind, hallowed, hmode⟩

/-- The parameter that selects a row is a text that may not be left out. -/
theorem selected_of_validate {operation : Operation} (h : operation.validate = .ok ())
    {name : Str} {max : Nat} (hselector : operation.selector_limit name = some max) :
    ∃ parameter, (name, parameter) ∈ operation.parameters.entries ∧
      parameter.required = true ∧ parameter.kind = .String := by
  obtain ⟨definition, hmode, hdefinition⟩ := selector_limit_eq_some.1 hselector
  have haccepted := uci.projection_accepted h hmode
  cases definition with
  | Record guards record => cases hdefinition
  | Collection guards collection selection =>
    cases selection with
    | All => cases hdefinition
    | ExactOne selected =>
      obtain ⟨limit, hlimit, heq⟩ := Option.map_eq_some_iff.1 hdefinition
      cases heq
      unfold TypedProjection.validate at haccepted
      split at haccepted
      · cases haccepted
      · obtain ⟨paths, -, haccepted⟩ := except_bind_ok.1 haccepted
        split at haccepted
        · cases haccepted
        · obtain ⟨nodes, -, haccepted⟩ := except_bind_ok.1 haccepted
          unfold TypedProjection.validate_selection at haccepted
          simp only [hlimit] at haccepted
          split at haccepted
          · rename_i _ _ limit' parameter hsome hlookup
            split at haccepted
            · cases haccepted
            · rename_i hparts
              simp only [Bool.or_eq_true, decide_eq_true_eq, not_or, not_not, Bool.not_eq_true',
                Bool.not_eq_false] at hparts
              obtain ⟨before, after, hentries, -⟩ := List.lookup_eq_some_iff.1 hlookup
              exact ⟨parameter, by simp [hentries], hparts.1.1, hparts.1.2⟩
          · cases haccepted

/-- The bytes of a row's identity are bounded, like those of any text. -/
theorem identity_limit_le {collection : projection.Collection InnerRecord}
    (h : collection.Accepted) {max : Nat} (hlimit : collection.identity_limit = some max) :
    max ≤ MAX_TEXT_BYTES := by
  have hparts := projection.Collection.accepted_spec h
  cases collection with
  | TextOption => cases hlimit
  | RowArray => cases hlimit
  | ScalarArray => cases hlimit
  | ObjectArray source max_items identity record =>
    obtain ⟨field, hfield, hmatch⟩ := List.exists_of_findSome?_eq_some hlimit
    have hkind := (projection.Record.accepted_spec hparts.2).1.kinds field hfield
    split at hmatch
    · rename_i max_bytes htext
      split at hmatch
      · cases hmatch
        rw [htext] at hkind
        unfold ScalarKind.validate at hkind
        by_cases hrange : 1 ≤ max ∧ max ≤ MAX_TEXT_BYTES
        · exact hrange.2
        · simp [hrange] at hkind
      · cases hmatch
    · cases hmatch
  | ObjectEntries source max_items key record =>
    cases hlimit
    obtain ⟨depth, nodes, nodes', hrecord⟩ := hparts
    obtain ⟨_, hfields, -⟩ := except_bind_ok.1 hrecord
    unfold validate_fields at hfields
    split at hfields
    · cases hfields
    · obtain ⟨names, hnames, -⟩ := except_bind_ok.1 hfields
      unfold key_names at hnames
      dsimp only at hnames
      split at hnames
      · cases hnames
      · rename_i hrange
        simp only [Bool.or_eq_true, not_or, Bool.not_eq_true', Bool.not_eq_false,
          Bool.and_eq_true, decide_eq_true_eq] at hrange
        exact hrange.2.2

theorem text_limit_le {operation : Operation} (h : operation.validate = .ok ()) (name : Str) :
    operation.text_limit name ≤ MAX_VALUE_BYTES := by
  unfold text_limit
  split
  · decide
  · cases hselector : operation.selector_limit name with
    | none => exact Nat.le_refl _
    | some max =>
      obtain ⟨definition, hmode, hdefinition⟩ := selector_limit_eq_some.1 hselector
      have hparts := TypedProjection.validate_spec (uci.projection_accepted h hmode)
      cases definition with
      | Record guards record => cases hdefinition
      | Collection guards collection selection =>
        cases selection with
        | All => cases hdefinition
        | ExactOne selected =>
          obtain ⟨limit, hlimit, heq⟩ := Option.map_eq_some_iff.1 hdefinition
          cases heq
          exact identity_limit_le hparts hlimit

theorem reference_of_validate {parameters : BTreeMap Str Parameter} {args used used' : List Str}
    (h : validate_args parameters args used = .ok used') :
    ∀ arg ∈ args, ∀ name, parameter_reference arg = some name →
      ∃ parameter, (name, parameter) ∈ parameters.entries ∧ parameter.required = true := by
  induction args generalizing used with
  | nil => simp
  | cons arg args ih =>
    unfold validate_args at h
    obtain ⟨next, hreference, h⟩ := except_bind_ok.1 h
    split at h
    · cases h
    · rename_i hrequired
      rw [List.forall_mem_cons]
      refine ⟨?_, ih h⟩
      intro name hname
      unfold validate_reference at hreference
      split at hreference
      · cases hreference
      · simp only [hname] at hreference
        split at hreference
        · cases hreference
        · rename_i hknown
          simp only [Bool.or_eq_true, not_or, Bool.not_eq_true', Bool.not_eq_false] at hknown
          obtain ⟨parameter, hparameter⟩ := Option.isSome_iff_exists.1 hknown.2
          simp only [hname, Option.bind_some, hparameter, Option.any_some, Bool.not_eq_true',
            Bool.not_eq_false] at hrequired
          exact ⟨parameter, BTreeMap.get_eq_some.1 hparameter, hrequired⟩

theorem allowed_of_validate {operation : Operation} (h : operation.validate = .ok ())
    {name : Str} {parameter : Parameter} (hmem : (name, parameter) ∈ operation.parameters.entries)
    {s : Str} (hs : s ∈ parameter.allowed_values) :
    allowed_value operation.action.is_ubus parameter.kind s = true := by
  have hparameter := (validate_ok.1 h).2.1 _ hmem
  unfold valid_parameter at hparameter
  rw [Bool.and_eq_true] at hparameter
  exact List.all_eq_true.1 hparameter.2 s hs

end Operation

end openwrt_mcp_core
