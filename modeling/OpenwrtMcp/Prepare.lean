-- What a client sends is checked against the operation and becomes the action that is run, with
-- the projection of its response bound to it.
import OpenwrtMcp.LegacyProjection
import OpenwrtMcp.OperationCheck
import OpenwrtMcp.Packages

open json maps programs text

namespace openwrt_mcp_core

open projection

/-! ## The input -/

def valid_type (ubus : Bool) (kind : ParameterKind) (value : Value) : Bool :=
  match kind with
  | .String => (as_str value).any fun text => bounded_string text MAX_VALUE_BYTES
  | .Integer =>
    if ubus then checked_integer value else (as_i64 value).isSome || (as_u64 value).isSome
  | .Boolean => (as_bool value).isSome

def check_value (ubus : Bool) (parameter : Parameter) (value : Value) : Except CoreError Unit :=
  if !valid_type ubus parameter.kind value then .error .InvalidArguments
  else if parameter.allowed_values = [] then .ok ()
  else match scalar_text value with
    | none => .error .InvalidArguments
    | some text => if text ∈ parameter.allowed_values then .ok () else .error .InvalidArguments

def check_values (ubus : Bool) (values : Map) : List (Str × Parameter) → Except CoreError Unit
  | [] => .ok ()
  | (name, parameter) :: rest =>
    match Map.get values name with
    | none => if parameter.required then .error .MissingArgument else check_values ubus values rest
    | some value => do
      check_value ubus parameter value
      check_values ubus values rest

/-- The text that selects a row. -/
def check_selector (values : Map) : OutputMode → Except CoreError Unit
  | .Typed definition =>
    match definition.selector with
    | none => .ok ()
    | some (name, max) =>
      match (Map.get values name).bind as_str with
      | none => .error .InvalidArguments
      | some text =>
        if text = [] || !bounded_string text max then .error .InvalidArguments else .ok ()
  | _ => .ok ()

/-! ## The action -/

/-- The literals of an action, and the values that a client gave for the parameters. -/
def prepare_arguments (values : Map) : List (Str × Value) → Map → Map
  | [], prepared => prepared
  | (key, value) :: rest, prepared =>
    match (as_str value).bind parameter_reference with
    | none => prepare_arguments values rest (prepared.insert key value)
    | some name =>
      match Map.get values name with
      | none => prepare_arguments values rest prepared
      | some value => prepare_arguments values rest (prepared.insert key value)

def prepare_args (values : Map) : List Str → Except CoreError (List Str)
  | [] => .ok []
  | arg :: rest => do
    let arg ← match parameter_reference arg with
      | none => .ok arg
      | some name =>
        match Map.get values name with
        | none => .error .MissingArgument
        | some value =>
          match scalar_text value with
          | none => .error .InvalidArguments
          | some text => .ok text
    let rest ← prepare_args values rest
    .ok (arg :: rest)

def prepare_cursor (values : Map) : Except CoreError (Option Str) :=
  match (Map.get values "cursor".toList).bind as_str with
  | none => .ok none
  | some cursor => do
    let _ ← packages.PackageCursor.parse cursor
    .ok (some cursor)

def prepare_action (values : Map) : Action → Except CoreError PreparedAction
  | .ApkInstalledPage => do
    let cursor ← prepare_cursor values
    .ok (.ApkInstalledPage cursor)
  | .OpkgStatusPage => do
    let cursor ← prepare_cursor values
    .ok (.OpkgStatusPage cursor)
  | .Ubus object method arguments =>
    .ok (.Ubus object method (.Object (prepare_arguments values arguments.entries [])))
  | .Process program args => do
    let args ← prepare_args values args
    .ok (.Process program args)

namespace Operation

def prepare (operation : Operation) (input : Value) : Except CoreError PreparedAction := do
  operation.validate
  match as_object input with
  | none => .error .InvalidArguments
  | some values =>
    if values.keys.any fun name => !operation.parameters.contains_key name then
      .error .UnknownArgument
    else do
      check_values operation.action.is_ubus values operation.parameters.entries
      check_selector values operation.output_mode
      prepare_action values operation.action

end Operation

/-! ## The invocation -/

inductive BoundProjection
  | Legacy (operation : Operation)
  | Typed (definition : TypedProjection) (selector : Option Str)

structure PreparedInvocation where
  action : PreparedAction
  projection : BoundProjection

namespace PreparedInvocation

/-- The text that the client selects a row with. -/
def bind_selector (definition : TypedProjection) (input : Value) : Except CoreError (Option Str) :=
  match definition.selector with
  | none => .ok none
  | some (name, _) =>
    match ((as_object input).bind fun values => Map.get values name).bind as_str with
    | none => .error .InvalidArguments
    | some text => .ok (some text)

def new (operation : Operation) (input : Value) : Except CoreError PreparedInvocation := do
  let action ← operation.prepare input
  match operation.output_mode with
  | .Typed definition => do
    let selector ← bind_selector definition input
    .ok ⟨action, .Typed definition selector⟩
  | _ => .ok ⟨action, .Legacy operation⟩

def project (invocation : PreparedInvocation) (output : Value) : Except CoreError Value :=
  if invocation.action.package_page.isSome then .error .InvalidDefinition
  else match invocation.projection with
    | .Legacy operation => legacy.project operation output
    | .Typed definition selector => projection.project definition selector output

end PreparedInvocation

/-- `operation.prepare_invocation(input)` -/
def Operation.prepare_invocation (operation : Operation) (input : Value) :
    Except CoreError PreparedInvocation := PreparedInvocation.new operation input

end openwrt_mcp_core
