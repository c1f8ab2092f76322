-- The check that an operation passes before it is in a catalog, and again before it runs.
import OpenwrtMcp.Capability
import OpenwrtMcp.Decimals
import OpenwrtMcp.OperationText
import OpenwrtMcp.Projection
import OpenwrtMcp.Uci

open decimals json maps programs text

namespace openwrt_mcp_core

open projection

def MAX_PARAMETERS : Nat := 32
def MAX_ARGUMENTS : Nat := 64
def MAX_OUTPUT_FIELDS : Nat := 64
def MAX_VALUE_BYTES : Nat := 1024
def MAX_DEFINITION_BYTES : Nat := 16 * 1024

/-! ## Texts -/

/-- `char::is_whitespace` -/
def is_whitespace (c : Char) : Bool :=
  (9 ≤ c.toNat && c.toNat ≤ 13) || (8192 ≤ c.toNat && c.toNat ≤ 8202) ||
    c.toNat ∈ [32, 133, 160, 5760, 8232, 8233, 8239, 8287, 12288]

def valid_pointer (pointer : Str) : Bool :=
  pointer.head? = some '/' && bounded_string pointer 512 && escapes (bytes pointer)

def disjoint_output_fields (pointers : List Str) : Bool :=
  pointers.length ≤ MAX_OUTPUT_FIELDS && pointers.all valid_pointer &&
    disjoint (pointers.map segments)

/-! ## The parameters -/

/-- A text that stands for a value of the kind. -/
def allowed_value (ubus : Bool) (kind : ParameterKind) (value : Str) : Bool :=
  match kind with
  | .String => true
  | .Integer =>
    if ubus then canonical value (-2 ^ 31) (2 ^ 31 - 1) (parse_signed value)
    else canonical value (-2 ^ 63) (2 ^ 63 - 1) (parse_signed value) ||
      canonical value 0 (2 ^ 64 - 1) (parse_unsigned value)
  | .Boolean => value = "true".toList || value = "false".toList

def valid_parameter (ubus : Bool) (name : Str) (parameter : Parameter) : Bool :=
  identifier name && parameter.allowed_values.length ≤ 64 &&
    (parameter.allowed_values.all fun value => bounded_string value MAX_VALUE_BYTES) &&
    parameter.allowed_values.dedup.length = parameter.allowed_values.length &&
    parameter.allowed_values.all (allowed_value ubus parameter.kind)

/-- A text of an action. The parameter that it refers to is one more that is used. -/
def validate_reference (parameters : BTreeMap Str Parameter) (value : Str) (used : List Str) :
    Except CoreError (List Str) :=
  if !bounded_string value MAX_VALUE_BYTES then .error .InvalidDefinition
  else match parameter_reference value with
    | none => .ok used
    | some name =>
      if !identifier name || !parameters.contains_key name then .error .InvalidDefinition
      else .ok (name :: used)

/-! ## The action -/

def validate_arguments (parameters : BTreeMap Str Parameter) :
    List (Str × Value) → List Str → Except CoreError (List Str)
  | [], used => .ok used
  | (key, value) :: rest, used =>
    if !identifier key then .error .InvalidDefinition
    else match value with
      | .String text => do
        let used ← validate_reference parameters text used
        validate_arguments parameters rest used
      | .Bool _ => validate_arguments parameters rest used
      | .Number _ =>
        if checked_integer value then validate_arguments parameters rest used
        else .error .InvalidDefinition
      | _ => .error .InvalidDefinition

/-- A positional argument may not be left out. -/
def validate_args (parameters : BTreeMap Str Parameter) :
    List Str → List Str → Except CoreError (List Str)
  | [], used => .ok used
  | arg :: rest, used => do
    let used ← validate_reference parameters arg used
    if ((parameter_reference arg).bind parameters.get).any fun parameter => !parameter.required then
      .error .InvalidDefinition
    else validate_args parameters rest used

def valid_program (program : Str) : Bool :=
  program.head? = some '/' && program.getLast? ≠ some '/' && bounded_string program 256 &&
    ((bytes program).all fun byte => is_ascii_alphanumeric byte || byte ∈ ascii "/_.-") &&
    !(program.splitOn '/').any fun part => part = ".".toList || part = "..".toList

namespace Operation

def valid_header (operation : Operation) : Bool :=
  identifier operation.name && operation.name ≠ CAPABILITY_TOOL_NAME &&
    !operation.description.all is_whitespace && bounded_string operation.description 512 &&
    operation.requirements ≠ [] && operation.requirements.length ≤ 36 &&
    operation.parameters.len ≤ MAX_PARAMETERS &&
    operation.requirements.dedup.length = operation.requirements.length &&
    disjoint_output_fields operation.output_fields

/-- The parameter of the selector, once the projection is accepted. -/
def validate_projection (operation : Operation) : Except CoreError (List Str) :=
  match operation.output_mode with
  | .Typed definition =>
    if operation.output_fields ≠ [] then .error .InvalidDefinition
    else do
      definition.validate operation.parameters.entries
      .ok (definition.selector.toList.map Prod.fst)
  | _ => .ok []

/-- A page of packages takes a cursor and nothing else. -/
def validate_page (operation : Operation) (used : List Str) : Except CoreError (List Str) :=
  match operation.parameters.get "cursor".toList with
  | none => .error .InvalidDefinition
  | some cursor =>
    if operation.parameters.len ≠ 1 || cursor.required || cursor.kind ≠ .String ||
        cursor.allowed_values ≠ [] || operation.output_fields ≠ [] ||
        operation.output_mode ≠ .Scalars || ⟨.Packages, .Read⟩ ∉ operation.requirements then
      .error .InvalidDefinition
    else .ok ("cursor".toList :: used)

def validate_action (operation : Operation) (used : List Str) : Except CoreError (List Str) :=
  match operation.action with
  | .ApkInstalledPage | .OpkgStatusPage => operation.validate_page used
  | .Ubus object method arguments =>
    if !ubus_identifier object || !ubus_identifier method || arguments.len > MAX_ARGUMENTS then
      .error .InvalidDefinition
    else validate_arguments operation.parameters arguments.entries used
  | .Process program args =>
    if !valid_program program || args.length > MAX_ARGUMENTS then .error .InvalidDefinition
    else validate_args operation.parameters args used

def validate (operation : Operation) : Except CoreError Unit :=
  if !operation.valid_header then .error .InvalidDefinition
  else if !operation.parameters.entries.all fun e =>
      valid_parameter operation.action.is_ubus e.1 e.2 then .error .InvalidDefinition
  else do
    let used ← operation.validate_projection
    let used ← operation.validate_action used
    if operation.parameters.keys.any fun name => name ∉ used then .error .InvalidDefinition
    else do
      uci.validate_read operation
      operation.capability.validate_for operation.action operation.parameters
      if operation.definition_bytes > MAX_DEFINITION_BYTES then .error .InvalidDefinition
      else .ok ()

/-! ## What an accepted operation has -/

theorem validate_ok {operation : Operation} : operation.validate = .ok () ↔
    operation.valid_header = true ∧
    (∀ e ∈ operation.parameters.entries,
      valid_parameter operation.action.is_ubus e.1 e.2 = true) ∧
    (∃ selected used, operation.validate_projection = .ok selected ∧
      operation.validate_action selected = .ok used ∧
      ∀ name ∈ operation.parameters.keys, name ∈ used) ∧
    uci.validate_read operation = .ok () ∧
    operation.capability.validate_for operation.action operation.parameters = .ok () ∧
    operation.definition_bytes ≤ MAX_DEFINITION_BYTES := by
  unfold validate
  by_cases hheader : operation.valid_header = true
  · by_cases hparameters : (operation.parameters.entries.all fun e =>
        valid_parameter operation.action.is_ubus e.1 e.2) = true
    · have hall := List.all_eq_true.1 hparameters
      simp only [hheader, hparameters, Bool.not_true, Bool.false_eq_true, if_false,
        except_bind_ok, true_and]
      constructor
      · rintro ⟨selected, hselected, used, hused, h⟩
        by_cases hkeys : (operation.parameters.keys.any fun name => decide (name ∉ used)) = true
        · rw [if_pos hkeys] at h
          cases h
        · rw [if_neg hkeys] at h
          obtain ⟨_, hread, h⟩ := except_bind_ok.1 h
          obtain ⟨_, hcapability, h⟩ := except_bind_ok.1 h
          by_cases hsize : operation.definition_bytes > MAX_DEFINITION_BYTES
          · rw [if_pos hsize] at h
            cases h
          · exact ⟨hall, ⟨selected, used, hselected, hused, by simpa using hkeys⟩, hread,
              hcapability, Nat.le_of_not_lt hsize⟩
      · rintro ⟨-, ⟨selected, used, hselected, hused, hkeys⟩, hread, hcapability, hsize⟩
        refine ⟨selected, hselected, used, hused, ?_⟩
        have hnone : ¬ (operation.parameters.keys.any fun name => decide (name ∉ used)) = true := by
          simpa using hkeys
        rw [if_neg hnone]
        refine except_bind_ok.2 ⟨(), hread, except_bind_ok.2 ⟨(), hcapability, ?_⟩⟩
        rw [if_neg (Nat.not_lt.2 hsize)]
    · simp only [hheader, hparameters, Bool.not_true, Bool.not_false, if_true, if_false,
        Bool.false_eq_true]
      constructor
      · intro h
        cases h
      · intro h
        exact absurd (List.all_eq_true.2 h.2.1) hparameters
  · simp [hheader]

end Operation

end openwrt_mcp_core
