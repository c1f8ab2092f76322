-- An operation that reaches the object `uci` is a reviewed read: it sends what its profile says,
-- whatever the client sends, and returns rows of one type of section or nothing.
import OpenwrtMcp.Catalog
import OpenwrtMcp.Prepare
import OpenwrtMcp.ProjectionResults

open json maps programs text

namespace openwrt_mcp_core.uci

open projection

/-! ## The recipe -/

/-- What a read sends. -/
def read_action (profile : UciReadProfile) : PreparedAction :=
  .Ubus "uci".toList "get".toList (.Object [("config".toList, .String profile.config),
    ("type".toList, .String profile.section_type)])

/-- The parts of a read that is accepted. -/
structure Recipe (profile : UciReadProfile) (operation : Operation) (method : Str)
    (arguments : BTreeMap Str Value) : Prop where
  config : argument arguments "config" = some profile.config
  type : argument arguments "type" = some profile.section_type
  method : method = "get".toList
  two : arguments.len = 2
  parameters : operation.parameters.entries = []
  requirement : ⟨profile.category, .Read⟩ ∈ operation.requirements
  rows : reads_rows profile operation.output_mode = true

theorem validate_read_ok {operation : Operation} {method : Str} {arguments : BTreeMap Str Value}
    (haction : operation.action = .Ubus "uci".toList method arguments)
    (h : validate_read operation = .ok ()) : ∃ profile,
    Recipe profile operation method arguments := by
  unfold validate_read at h
  simp only [haction, ne_eq, not_true, if_false] at h
  split at h
  · cases h
  · rename_i profile hfound
    have hmatch := List.find?_some hfound
    rw [Bool.and_eq_true, decide_eq_true_eq, decide_eq_true_eq] at hmatch
    split at h
    · cases h
    · rename_i hparts
      split at h
      · cases h
      · rename_i hrows
        simp only [Bool.or_eq_true, decide_eq_true_eq, not_or, not_not, Bool.not_eq_true',
          Bool.not_eq_false] at hparts hrows
        obtain ⟨⟨⟨hmethod, htwo⟩, hparameters⟩, hrequirement⟩ := hparts
        refine ⟨profile, hmatch.1, hmatch.2, hmethod, htwo, ?_, hrequirement, hrows⟩
        simpa [BTreeMap.is_empty] using hparameters

theorem argument_eq_some {arguments : BTreeMap Str Value} {key : String} {text : Str} :
    argument arguments key = some text ↔ (key.toList, .String text) ∈ arguments.entries := by
  unfold argument
  rw [Option.bind_eq_some_iff]
  constructor
  · rintro ⟨value, hget, hvalue⟩
    rw [as_str_eq_some] at hvalue
    rw [← hvalue]
    exact BTreeMap.get_eq_some.1 hget
  · intro hmem
    exact ⟨.String text, BTreeMap.get_eq_some.2 hmem, rfl⟩

/-- The arguments are the two of the profile, and nothing else. -/
theorem Recipe.entries {profile : UciReadProfile} {operation : Operation} {method : Str}
    {arguments : BTreeMap Str Value} (h : Recipe profile operation method arguments) :
    arguments.entries = [("config".toList, .String profile.config),
      ("type".toList, .String profile.section_type)] := by
  have hconfig := argument_eq_some.1 h.config
  have htype := argument_eq_some.1 h.type
  have hsorted := arguments.sorted
  have htwo := h.two
  unfold BTreeMap.len at htwo
  obtain ⟨first, second, hentries⟩ := List.length_eq_two.1 htwo
  rw [hentries] at hconfig htype hsorted ⊢
  have hlt : first.1 < second.1 := by simpa using hsorted
  have horder : ¬ ("type".toList : Str) < "config".toList := by decide
  have hne : ("config".toList : Str) ≠ "type".toList := by decide
  simp only [List.mem_cons, List.not_mem_nil, or_false] at hconfig htype
  rcases hconfig with hconfig | hconfig
  · rcases htype with htype | htype
    · rw [← hconfig] at htype
      exact absurd (congrArg Prod.fst htype).symm hne
    · rw [← hconfig, ← htype]
  · rcases htype with htype | htype
    · rw [← hconfig, ← htype] at hlt
      exact absurd hlt horder
    · rw [← hconfig] at htype
      exact absurd (congrArg Prod.fst htype).symm hne

/-- The texts of a profile are no references, and no type of a section is a number. -/
theorem profile_texts (profile : UciReadProfile) :
    parameter_reference profile.config = none ∧ parameter_reference profile.section_type = none ∧
      (bytes profile.section_type).all is_ascii_digit = false := by
  cases profile <;> decide

theorem Recipe.no_selector {profile : UciReadProfile} {operation : Operation} {method : Str}
    {arguments : BTreeMap Str Value} (h : Recipe profile operation method arguments) :
    ∃ guards max_items key record, operation.output_mode = .Typed (.Collection guards
      (.ObjectEntries "/values".toList max_items key record) .All) ∧
      "/error".toList ∈ guards ∧ record.fields.any (holds_type profile) = true := by
  have hrows := h.rows
  unfold reads_rows at hrows
  split at hrows
  · rename_i guards source max_items key record hmode
    simp only [Bool.and_eq_true, decide_eq_true_eq] at hrows
    obtain ⟨⟨⟨⟨⟨hsource, -⟩, -⟩, -⟩, hguard⟩, hany⟩ := hrows
    rw [hsource] at hmode
    exact ⟨guards, max_items, key, record, hmode, hguard, hany⟩
  · cases hrows

/-- A read takes no input, and sends the arguments of its profile. -/
theorem Recipe.prepare {profile : UciReadProfile} {operation : Operation} {method : Str}
    {arguments : BTreeMap Str Value} (h : Recipe profile operation method arguments)
    (hvalid : operation.validate = .ok ())
    (haction : operation.action = .Ubus "uci".toList method arguments) (input : Value)
    (action : PreparedAction) :
    operation.prepare input = .ok action ↔ input = .Object [] ∧ action = read_action profile := by
  obtain ⟨guards, max_items, key, record, hmode, -⟩ := h.no_selector
  obtain ⟨hconfig, htype, -⟩ := profile_texts profile
  have hprepared : prepare_action [] operation.action = .ok (read_action profile) := by
    have hlt : ¬ ("type".toList : Str) < "config".toList := by decide
    have hne : ¬ ("type".toList : Str) = "config".toList := by decide
    rw [haction, prepare_action, h.entries, h.method]
    simp only [prepare_arguments, as_str, Option.bind_some, hconfig, htype, Map.insert, if_neg hlt,
      if_neg hne]
    rfl
  have hselector : check_selector [] operation.output_mode = .ok () := by
    rw [hmode]
    rfl
  have hvalues : check_values operation.action.is_ubus [] operation.parameters.entries =
    .ok () := by
    rw [h.parameters]
    rfl
  have hkeys : ∀ name, operation.parameters.contains_key name = false := by
    intro name
    simp [BTreeMap.contains_key, BTreeMap.get, h.parameters]
  unfold Operation.prepare
  rw [hvalid]
  constructor
  · intro hrun
    obtain ⟨_, -, hrun⟩ := except_bind_ok.1 hrun
    cases input with
    | Object values =>
      cases values with
      | nil =>
        simp only [as_object, Map.keys, List.map_nil, List.any_nil, Bool.false_eq_true, if_false,
          hselector, hvalues] at hrun
        have heq : Except.ok (read_action profile) = Except.ok action := hprepared.symm.trans hrun
        cases heq
        exact ⟨rfl, rfl⟩
      | cons f values =>
        simp [as_object, Map.keys, hkeys] at hrun
    | _ => cases hrun
  · rintro ⟨rfl, rfl⟩
    refine except_bind_ok.2 ⟨(), rfl, ?_⟩
    simp only [as_object, Map.keys, List.map_nil, List.any_nil, Bool.false_eq_true, if_false,
      hselector, hvalues]
    exact hprepared

/-! ## The rows -/

theorem lookup_values {root : Map} {sections : Value}
    (h : root.get "values".toList = some sections) :
    lookup (.Object root) "/values".toList = .ok (some sections) := by
  have hsegments : segments "/values".toList = ["values".toList] := by decide
  rw [lookup, hsegments, lookup_segments, h]
  rfl

theorem lookup_type {fields : Map} {x : Value}
    (h : lookup (.Object fields) "/.type".toList = .ok (some x)) :
    fields.get ".type".toList = some x := by
  have hsegments : segments "/.type".toList = [".type".toList] := by decide
  rw [lookup, hsegments, lookup_segments] at h
  cases hget : Map.get fields ".type".toList with
  | none =>
    rw [hget] at h
    cases h
  | some y =>
    rw [hget] at h
    cases h
    rfl

/-- What leads to the type of a section leads through an object. -/
theorem object_of_lookup_type {v x : Value} (h : lookup v "/.type".toList = .ok (some x)) :
    ∃ fields, v = .Object fields := by
  have hsegments : segments "/.type".toList = [".type".toList] := by decide
  rw [lookup, hsegments] at h
  cases v with
  | Object fields => exact ⟨fields, rfl⟩
  | Array items =>
    have hindex : array_index ".type".toList = none := by decide
    rw [lookup_segments, hindex] at h
    cases h
  | _ => cases h

/-- A field that is read from the type of a section returns that type, of whatever kind it is. -/
theorem reads_type {kind : ScalarKind} {t : Str} {v : Value}
    (hdigits : (bytes t).all is_ascii_digit = false) (h : projection.Reads kind (.String t) v) :
    v = .String t := by
  obtain ⟨scalar, hread, rfl, -⟩ := h
  cases kind with
  | Boolean => cases hread
  | Text max_bytes =>
    have hread : Scalar.read_text max_bytes (.String t) = .ok scalar := hread
    obtain ⟨s, hs, rfl, -⟩ := Scalar.read_text_spec hread
    exact hs.symm
  | TextEnum max_bytes values =>
    simp only [Scalar.read, as_str] at hread
    split at hread
    · cases hread
    · cases hread
      rfl
  | SafeInteger min max => cases hread
  | FalseOrSafeInteger min max => cases hread
  | DecimalCounter source =>
    cases source with
    | JsonInteger => cases hread
    | DecimalText => simp [Scalar.read, Scalar.read_counter, as_str, hdigits] at hread

theorem reads_enum {max_bytes : Nat} {t : Str} {x v : Value}
    (h : projection.Reads (.TextEnum max_bytes [t]) x v) : x = .String t := by
  obtain ⟨scalar, hread, -⟩ := h
  cases x with
  | String s =>
    simp only [Scalar.read, as_str] at hread
    split at hread
    · cases hread
    · rename_i hvalid
      simp only [Bool.or_eq_true, decide_eq_true_eq, not_or, not_not, List.mem_singleton] at hvalid
      rw [hvalid.2]
  | _ => cases hread

/-- A row that is returned comes from a section of the type of the profile. -/
theorem section_type_of_row {profile : UciReadProfile} {record : InnerRecord}
    (hany : record.fields.any (holds_type profile) = true) {key : Option (TextIdentity × Str)}
    {section_value row : Value} (h : RecordSpec.Conforms record key section_value row) :
    lookup section_value "/.type".toList = .ok (some (.String profile.section_type)) ∧
      ∀ field ∈ record.fields, field.source = "/.type".toList →
        HasText field.name row profile.section_type := by
  obtain ⟨result, collections, rfl, hfields⟩ := RecordSpec.conforms_fields h
  obtain ⟨field, hmem, hholds⟩ := List.any_eq_true.1 hany
  unfold holds_type at hholds
  simp only [Bool.and_eq_true, decide_eq_true_eq] at hholds
  obtain ⟨⟨hsource, hpresence⟩, hkind⟩ := hholds
  have hlookup : lookup section_value "/.type".toList =
      .ok (some (.String profile.section_type)) := by
    rcases hfields.fields field hmem with ⟨-, hoptional, -⟩ | ⟨x, v, hx, -, hreads⟩
    · rw [hpresence] at hoptional
      cases hoptional
    · rw [hsource] at hx
      cases hvalue : field.value with
      | TextEnum max_bytes values =>
        rw [hvalue] at hkind hreads
        have hkind : values = [profile.section_type] := by simpa using hkind
        rw [hkind] at hreads
        rw [hx, reads_enum hreads]
      | _ => simp [hvalue] at hkind
  refine ⟨hlookup, ?_⟩
  intro other hother hsource'
  rcases hfields.fields other hother with ⟨hnone, -, -⟩ | ⟨x, v, hx, hget, hreads⟩
  · rw [hsource', hlookup] at hnone
    cases hnone
  · rw [hsource', hlookup] at hx
    cases hx
    rw [reads_type (profile_texts profile).2.2 hreads] at hget
    exact ⟨result, rfl, hget⟩

section
variable {α β : Type} {R : α → β → Prop} {xs : List α} {ys : List β}

theorem forall₂_left (h : List.Forall₂ R xs ys) {x : α} (hx : x ∈ xs) : ∃ y ∈ ys, R x y := by
  induction h with
  | nil => cases hx
  | @cons a b as bs hab _ ih =>
    rcases List.mem_cons.1 hx with rfl | hx
    · exact ⟨b, by simp, hab⟩
    · obtain ⟨y, hy, hr⟩ := ih hx
      exact ⟨y, List.mem_cons_of_mem _ hy, hr⟩

theorem forall₂_right (h : List.Forall₂ R xs ys) {y : β} (hy : y ∈ ys) : ∃ x ∈ xs, R x y := by
  obtain ⟨x, hx, hr⟩ := forall₂_left h.flip hy
  exact ⟨x, hx, hr⟩

end

/-- What a read returns of a response: a row for each section, and each of one type. -/
structure Rows (profile : UciReadProfile) (fields : List ScalarField) (output result : Value) :
    Prop where
  rows : ∃ sections rows, lookup output "/values".toList = .ok (some (.Object sections)) ∧
    result = .Object [("items".toList, .Array rows)] ∧ rows.length = sections.length ∧
    (∀ s ∈ sections, lookup s.2 "/.type".toList = .ok (some (.String profile.section_type))) ∧
    ∀ row ∈ rows, ∀ field ∈ fields, field.source = "/.type".toList →
      HasText field.name row profile.section_type

theorem rows_of_project {profile : UciReadProfile} {guards : List Str} {max_items : Nat}
    {key : TextIdentity} {record : InnerRecord} {parameters : Parameters}
    (hany : record.fields.any (holds_type profile) = true)
    (hvalid :
      (TypedProjection.Collection guards (.ObjectEntries "/values".toList max_items key record)
      .All).validate parameters = .ok ()) {output : Document} {result : Value}
    (h : projection.project
      (.Collection guards (.ObjectEntries "/values".toList max_items key record)
      .All) none output.1 = .ok result) : Rows profile record.fields output.1 result := by
  have hrun : ∃ b', evaluate .normalized (.Collection guards
      (.ObjectEntries "/values".toList max_items key record) .All) none output.1 .default =
        (.ok result, b') := ⟨_, Prod.ext h rfl⟩
  obtain ⟨b', hrun⟩ := hrun
  obtain ⟨⟨x, items, hlookup, rfl, hconforms⟩, -⟩ :=
    evaluate_spec (TypedProjection.validate_spec hvalid) output.2 hrun
  obtain ⟨sections, rows, rfl, rfl, -, hrows⟩ := hconforms
  refine ⟨sections, rows, hlookup, rfl, hrows.length_eq.symm, ?_, ?_⟩
  · intro s hs
    obtain ⟨row, -, hrow⟩ := forall₂_left hrows hs
    exact (section_type_of_row hany hrow.1).1
  · intro row hrow field hfield hsource
    obtain ⟨s, -, hs⟩ := forall₂_right hrows hrow
    exact (section_type_of_row hany hs.1).2 field hfield hsource

theorem check_guards_ok {source : Value} {guards : List Str}
    (h : check_guards source guards = .ok ()) :
    ∀ pointer ∈ guards, lookup source pointer = .ok none := by
  induction guards with
  | nil => simp
  | cons pointer rest ih =>
    obtain ⟨found, hfound, h⟩ := except_bind_ok.1 h
    cases found with
    | some v => cases h
    | none => exact List.forall_mem_cons.2 ⟨hfound, ih h⟩

/-- A response that is projected has no member that the definition refuses. -/
theorem guards_of_project {definition : TypedProjection} {selector : Option Str}
    {output result : Value} (h : projection.project definition selector output = .ok result) :
    ∀ pointer ∈ definition.reject_if_present, lookup output pointer = .ok none := by
  have hrun : evaluate .normalized definition selector output .default =
      (.ok result, (evaluate .normalized definition selector output .default).2) := Prod.ext h rfl
  obtain ⟨_, hguards, -⟩ := Prog.lift_bind_ok.1 hrun
  exact check_guards_ok hguards

theorem lookup_error {root : Map} {v : Value} (h : root.get "error".toList = some v) :
    lookup (.Object root) "/error".toList = .ok (some v) := by
  have hsegments : segments "/error".toList = ["error".toList] := by decide
  rw [lookup, hsegments, lookup_segments, h]
  rfl

/-! ## A read in a catalog -/

/-- What is bound to a read is its projection, without a selector. -/
theorem Recipe.invocation {profile : UciReadProfile} {operation : Operation} {method : Str}
    {arguments : BTreeMap Str Value} (h : Recipe profile operation method arguments)
    (hvalid : operation.validate = .ok ())
    (haction : operation.action = .Ubus "uci".toList method arguments) {input : Value}
    {invocation : PreparedInvocation}
    (hinvocation : operation.prepare_invocation input = .ok invocation)
    {definition : TypedProjection} (hmode : operation.output_mode = .Typed definition)
    (hselector : definition.selector = none) (output : Value) :
    invocation.project output = projection.project definition none output := by
  obtain ⟨action, hprepare, hbound⟩ := except_bind_ok.1 hinvocation
  obtain ⟨-, rfl⟩ := (h.prepare hvalid haction input action).1 hprepare
  rw [hmode] at hbound
  obtain ⟨selector, hbind, hbound⟩ := except_bind_ok.1 hbound
  cases hbound
  unfold PreparedInvocation.bind_selector at hbind
  rw [hselector] at hbind
  cases hbind
  rfl

theorem projection_accepted {operation : Operation} (hvalid : operation.validate = .ok ())
    {definition : TypedProjection} (hmode : operation.output_mode = .Typed definition) :
    definition.validate operation.parameters.entries = .ok () := by
  obtain ⟨-, -, ⟨selected, -, hprojection, -⟩, -⟩ := Operation.validate_ok.1 hvalid
  unfold Operation.validate_projection at hprojection
  simp only [hmode] at hprojection
  split at hprojection
  · cases hprojection
  · obtain ⟨_, hdefinition, -⟩ := except_bind_ok.1 hprojection
    exact hdefinition

/-- An operation on `uci` is a builtin. It takes no input, and sends what one reviewed profile
says and no more. A response with an error, or with a section of another type, is an error; of
any other the rows are those of the sections. -/
theorem an_operation_on_uci_is_a_reviewed_read {builtins custom : List Operation}
    {catalog : Catalog} (h : Catalog.with_builtins builtins custom = .ok catalog)
    {operation : Operation} (hmem : operation ∈ catalog.operations) {method : Str}
    {arguments : BTreeMap Str Value}
    (haction : operation.action = .Ubus "uci".toList method arguments) :
    operation ∈ builtins ∧ ∃ (profile : UciReadProfile) (fields : List ScalarField),
      (∀ input action, operation.prepare input = .ok action ↔
        input = .Object [] ∧ action = read_action profile) ∧
      ⟨profile.category, .Read⟩ ∈ operation.requirements ∧
      (∃ guards max_items key record, operation.output_mode = .Typed (.Collection guards
        (.ObjectEntries "/values".toList max_items key record) .All) ∧ record.fields = fields) ∧
      (∃ field ∈ fields, field.source = "/.type".toList) ∧
      ∀ input invocation, operation.prepare_invocation input = .ok invocation →
        ∀ output : Document,
        (∀ root, output.1 = .Object root → (Map.get root "error".toList).isSome →
          ∀ result, invocation.project output.1 ≠ .ok result) ∧
        (∀ result, invocation.project output.1 = .ok result →
          Rows profile fields output.1 result) ∧
        ∀ root sections name value, output.1 = .Object root →
          Map.get root "values".toList = some (.Object sections) → (name, value) ∈ sections →
          (¬ ∃ members, value = .Object members ∧
            Map.get members ".type".toList = some (.String profile.section_type)) →
          ∀ result, invocation.project output.1 ≠ .ok result := by
  have hbuilt := Catalog.with_builtins_built h
  have hvalid := hbuilt.valid operation hmem
  have hbuiltin : operation ∈ builtins := by
    rw [hbuilt.operations, List.mem_append] at hmem
    rcases hmem with hmem | hmem
    · exact hmem
    · obtain ⟨extension, hextension, rfl⟩ := List.mem_map.1 hmem
      have huci := (hbuilt.custom extension hextension).1
      have haction : extension.action = .Ubus "uci".toList method arguments := haction
      simp [haction, Catalog.targets_uci] at huci
  have hread := (Operation.validate_ok.1 hvalid).2.2.2.1
  obtain ⟨profile, hrecipe⟩ := validate_read_ok haction hread
  obtain ⟨guards, max_items, key, record, hmode, hguard, hany⟩ := hrecipe.no_selector
  have hfield : ∃ field ∈ record.fields, field.source = "/.type".toList := by
    obtain ⟨field, hfield, hholds⟩ := List.any_eq_true.1 hany
    unfold holds_type at hholds
    simp only [Bool.and_eq_true, decide_eq_true_eq] at hholds
    exact ⟨field, hfield, hholds.1.1⟩
  refine ⟨hbuiltin, profile, record.fields, hrecipe.prepare hvalid haction, hrecipe.requirement,
    ⟨guards, max_items, key, record, hmode, rfl⟩, hfield, ?_⟩
  intro input invocation hinvocation output
  have hproject := hrecipe.invocation hvalid haction hinvocation hmode rfl output.1
  have hrows : ∀ result, invocation.project output.1 = .ok result →
      Rows profile record.fields output.1 result := by
    intro result hresult
    rw [hproject] at hresult
    exact rows_of_project hany (projection_accepted hvalid hmode) hresult
  refine ⟨?_, hrows, ?_⟩
  · intro root hroot herror result hresult
    rw [hproject, hroot] at hresult
    obtain ⟨v, hv⟩ := Option.isSome_iff_exists.1 herror
    have hnone := guards_of_project hresult "/error".toList hguard
    rw [lookup_error hv] at hnone
    cases hnone
  · intro root sections name value hroot hsections hsection hother result hresult
    obtain ⟨found, rows, hlookup, -, -, htypes, -⟩ := (hrows result hresult).rows
    rw [hroot, lookup_values hsections] at hlookup
    cases hlookup
    have htype := htypes (name, value) hsection
    obtain ⟨members, rfl⟩ := object_of_lookup_type htype
    exact hother ⟨members, rfl, lookup_type htype⟩

/-- The names of the servers that the time is taken from, by their sections. -/
def timeservers : Operation where
  name := "timeservers".toList
  description := "The configured sections of the time servers.".toList
  requirements := [⟨.System, .Read⟩]
  parameters := .empty
  action := .Ubus "uci".toList "get".toList ⟨[("config".toList, .String "system".toList),
    ("type".toList, .String "timeserver".toList)], by decide⟩
  capability := .UbusMethod "uci".toList "get".toList ⟨[("config".toList, .String),
    ("type".toList, .String)], by decide⟩ "uci_timeservers.v1".toList
  output_fields := []
  output_mode := .Typed (.Collection ["/error".toList]
    (.ObjectEntries "/values".toList 16 ⟨"section".toList, 64⟩
      ⟨[⟨"type".toList, "/.type".toList, .Required, .TextEnum 16 ["timeserver".toList]⟩], []⟩) .All)

theorem the_read_of_timeservers_takes_no_input : ∃ profile, ∀ input action,
    timeservers.prepare input = .ok action ↔ input = .Object [] ∧ action = read_action profile := by
  have hok : (Catalog.with_builtins [timeservers] []).toOption.isSome = true := by decide +kernel
  cases hcatalog : Catalog.with_builtins [timeservers] [] with
  | error e =>
    rw [hcatalog] at hok
    cases hok
  | ok catalog =>
    have hmem : timeservers ∈ catalog.operations := by
      rw [(Catalog.with_builtins_built hcatalog).operations]
      simp
    obtain ⟨-, profile, -, hprepare, -⟩ :=
      an_operation_on_uci_is_a_reviewed_read hcatalog hmem rfl
    exact ⟨profile, hprepare⟩

end openwrt_mcp_core.uci
