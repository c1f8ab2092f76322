-- What an operation asks of the device, and what a probe of the device says about it.
import OpenwrtMcp.Operation

open json maps text

namespace openwrt_mcp_core

def CAPABILITY_TOOL_NAME : Str := "operation_capability".toList
def MAX_OBSERVED_METHODS : Nat := 128
def MAX_OBSERVED_ARGUMENTS : Nat := 64
def MAX_OBSERVED_METHOD_NAME_BYTES : Nat := 128
def MAX_OBSERVED_ARGUMENT_NAME_BYTES : Nat := 64
def UBUS_INTEGER_MIN : Int := -2147483648
def UBUS_INTEGER_MAX : Int := 2147483647

/-! ## Objects -/

inductive ReviewedObject
  | System
  | NetworkDevice
  | NetworkInterface
  | NetworkInterfaceLan
  | NetworkInterfaceWan
  | Iwinfo
  | Service
  | Luci
  | LuciRpc
  | Uci
  deriving DecidableEq

namespace ReviewedObject

def ALL : List ReviewedObject :=
  [.System, .NetworkDevice, .NetworkInterface, .NetworkInterfaceLan, .NetworkInterfaceWan,
    .Iwinfo, .Service, .Luci, .LuciRpc, .Uci]

def as_str : ReviewedObject → Str
  | .System => "system".toList
  | .NetworkDevice => "network.device".toList
  | .NetworkInterface => "network.interface".toList
  | .NetworkInterfaceLan => "network.interface.lan".toList
  | .NetworkInterfaceWan => "network.interface.wan".toList
  | .Iwinfo => "iwinfo".toList
  | .Service => "service".toList
  | .Luci => "luci".toList
  | .LuciRpc => "luci-rpc".toList
  | .Uci => "uci".toList

def from_name (name : Str) : Option ReviewedObject := ALL.find? fun object => object.as_str = name

end ReviewedObject

/-! ## The requirement -/

/-- `value.rsplit_once(".v")` -/
def rsplit_version : Str → Option (Str × Str)
  | [] => none
  | c :: rest =>
    match rsplit_version rest with
    | some (name, version) => some (c :: name, version)
    | none => if c = '.' ∧ rest.head? = some 'v' then some ([], rest.tail) else none

def response_identifier (value : Str) : Bool :=
  match rsplit_version value with
  | none => false
  | some (name, version) =>
    len value ≤ 128 && ubus_identifier name && version ≠ [] && version.head? ≠ some '0' &&
      (bytes version).all is_ascii_digit && parse_digits version < 2 ^ 32

/-- An integer that fits an `i32`. -/
def checked_integer (value : Value) : Bool :=
  (as_i64 value).any fun number =>
    UBUS_INTEGER_MIN ≤ number.toInt && number.toInt ≤ UBUS_INTEGER_MAX

def value_matches (value : Value) : ParameterKind → Bool
  | .String => (json.as_str value).any fun value => len value ≤ 1024 && '\x00' ∉ value
  | .Integer => checked_integer value
  | .Boolean => (as_bool value).isSome

namespace CapabilityRequirement

def probe_object : CapabilityRequirement → Option ReviewedObject
  | .UbusMethod object _ _ _ => ReviewedObject.from_name object
  | _ => none

def valid_shape : CapabilityRequirement → Bool
  | .UbusMethod object method arguments response_contract =>
    ubus_identifier object && ubus_identifier method && arguments.len ≤ MAX_OBSERVED_ARGUMENTS &&
      arguments.keys.all identifier && response_identifier response_contract
  | _ => true

/-- The kind that an argument of an action has. -/
def argument_kind (parameters : BTreeMap Str Parameter) (value : Value) :
    Except CoreError ParameterKind :=
  match value with
  | .String text =>
    match parameter_reference text with
    | none => .ok .String
    | some parameter =>
      match parameters.get parameter with
      | none => .error .InvalidDefinition
      | some parameter => .ok parameter.kind
  | .Bool _ => .ok .Boolean
  | .Number _ => if checked_integer value then .ok .Integer else .error .InvalidDefinition
  | _ => .error .InvalidDefinition

def check_arguments (arguments : BTreeMap Str ParameterKind)
    (parameters : BTreeMap Str Parameter) : List (Str × Value) → Except CoreError Unit
  | [] => .ok ()
  | (name, value) :: rest => do
    let kind ← argument_kind parameters value
    if arguments.get name ≠ some kind then .error .InvalidDefinition
    else check_arguments arguments parameters rest

def validate_for (requirement : CapabilityRequirement) (action : Action)
    (parameters : BTreeMap Str Parameter) : Except CoreError Unit :=
  if !requirement.valid_shape then .error .InvalidDefinition
  else match requirement, action with
    | .ApkInstalledQuery, .ApkInstalledPage => .ok ()
    | .OpkgRootStatusFile, .OpkgStatusPage => .ok ()
    | .Unverified, .Process _ _ => .ok ()
    | .UbusMethod object method arguments _, .Ubus action_object action_method action_arguments =>
      if object = action_object ∧ method = action_method ∧
          arguments.len = action_arguments.len then
        check_arguments arguments parameters action_arguments.entries
      else .error .InvalidDefinition
    | _, _ => .error .InvalidDefinition

end CapabilityRequirement

/-! ## Observations -/

inductive UbusArgumentType
  | String
  | Integer
  | Boolean
  | Array
  | Table
  | Unknown
  deriving DecidableEq

structure MethodSignature where
  arguments : BTreeMap Str UbusArgumentType

structure ObjectObservation where
  object : ReviewedObject
  methods : BTreeMap Str MethodSignature

def ObjectObservation.valid_method (method : Str) (signature : MethodSignature) : Bool :=
  len method ≤ MAX_OBSERVED_METHOD_NAME_BYTES && ubus_identifier method &&
    signature.arguments.len ≤ MAX_OBSERVED_ARGUMENTS &&
    signature.arguments.keys.all fun argument =>
      len argument ≤ MAX_OBSERVED_ARGUMENT_NAME_BYTES && ubus_identifier argument

def ObjectObservation.validate (observation : ObjectObservation) : Except CoreError Unit :=
  if observation.methods.len > MAX_OBSERVED_METHODS then .error .InvalidDefinition
  else if observation.methods.entries.all fun e =>
    ObjectObservation.valid_method e.1 e.2 then .ok ()
  else .error .InvalidDefinition

inductive UnknownReason
  | NotObservedOrHidden
  | IncompleteSignature
  | UnrecognizedType
  | UnreviewedProbe
  | ProbeUnavailable
  | InvalidObservation
  | StaleObservation
  deriving DecidableEq

inductive CapabilityObservation
  | Unknown (reason : UnknownReason)
  | Ubus (observation : ObjectObservation)

inductive IncompatibilityReason
  | ArgumentTypeMismatch
  | InvalidPreparedAction
  deriving DecidableEq

inductive Verdict
  | Compatible
  | Incompatible (reason : IncompatibilityReason)
  | Unknown (reason : UnknownReason)
  deriving DecidableEq

/-! ## The verdict -/

namespace CapabilityRequirement

/-- What the loop over the arguments has seen. -/
structure Seen where
  unknown_type : Bool
  incomplete : Bool

def expected_type : ParameterKind → UbusArgumentType
  | .String => .String
  | .Integer => .Integer
  | .Boolean => .Boolean

/-- The loop over the arguments; `none` when a type is another one. -/
def match_types (actual : Option Map) (signature : MethodSignature) :
    List (Str × ParameterKind) → Seen → Option Seen
  | [], seen => some seen
  | (name, kind) :: rest, seen =>
    if actual.any fun values => (Map.get values name).isNone then
      match_types actual signature rest seen
    else match signature.arguments.get name with
      | none => match_types actual signature rest { seen with incomplete := true }
      | some .Unknown => match_types actual signature rest { seen with unknown_type := true }
      | some observed_type =>
        if observed_type = expected_type kind then match_types actual signature rest seen else none

/-- The arguments that are sent, when they are ones of the requirement. -/
def actual_arguments (object method : Str) (arguments : BTreeMap Str ParameterKind) :
    Option PreparedAction → Except IncompatibilityReason (Option Map)
  | none => .ok none
  | some (.Ubus actual_object actual_method actual_arguments) =>
    if actual_object = object ∧ actual_method = method then
      match as_object actual_arguments with
      | none => .error .InvalidPreparedAction
      | some actual =>
        if actual.length > arguments.len || actual.any fun e =>
            !(arguments.get e.1).any (value_matches e.2) then .error .InvalidPreparedAction
        else .ok (some actual)
    else .error .InvalidPreparedAction
  | some _ => .error .InvalidPreparedAction

def observed_verdict (reviewed : ReviewedObject) (method : Str)
    (arguments : BTreeMap Str ParameterKind) (actual : Option Map) :
    CapabilityObservation → Verdict
  | .Unknown reason => .Unknown reason
  | .Ubus observation =>
    if observation.object ≠ reviewed || observation.validate ≠ .ok () then
      .Unknown .InvalidObservation
    else match observation.methods.get method with
      | none => .Unknown .NotObservedOrHidden
      | some signature =>
        match match_types actual signature arguments.entries ⟨false, false⟩ with
        | none => .Incompatible .ArgumentTypeMismatch
        | some seen =>
          if seen.incomplete then .Unknown .IncompleteSignature
          else if seen.unknown_type then .Unknown .UnrecognizedType
          else .Compatible

def evaluate (requirement : CapabilityRequirement) (observation : CapabilityObservation)
    (prepared : Option PreparedAction) : Verdict :=
  match requirement with
  | .UbusMethod object method arguments _ =>
    if !requirement.valid_shape then .Unknown .InvalidObservation
    else match requirement.probe_object with
      | none => .Unknown .UnreviewedProbe
      | some reviewed =>
        match actual_arguments object method arguments prepared with
        | .error reason => .Incompatible reason
        | .ok actual => observed_verdict reviewed method arguments actual observation
  | _ => .Unknown .UnreviewedProbe

end CapabilityRequirement

end openwrt_mcp_core
