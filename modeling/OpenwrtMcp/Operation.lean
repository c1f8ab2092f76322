-- An operation: what it is called, what it needs, what it takes and what it does. The device
-- is never in sight here.
import OpenwrtMcp.Maps
import OpenwrtMcp.ProjectionSchema

open json maps text

namespace openwrt_mcp_core

open projection

/-! ## Permissions -/

inductive Category
  | System
  | Network
  | Wireless
  | Firewall
  | DhcpDns
  | Services
  | Packages
  | Storage
  | Vpn
  | Firmware
  | Diagnostics
  | Extensions
  deriving DecidableEq

inductive Access
  | Deny
  | Read
  | ReadWrite
  deriving DecidableEq

inductive Permission
  | Read
  | Write
  | Execute
  deriving DecidableEq

structure Requirement where
  category : Category
  permission : Permission
  deriving DecidableEq

structure Grant where
  access : Access
  execute : Bool
  deriving DecidableEq

def Grant.default : Grant := ⟨.Deny, false⟩

def Grant.permits (grant : Grant) (permission : Permission) : Bool :=
  if grant.access = .Deny then false
  else match permission with
    | .Read => true
    | .Write => grant.access = .ReadWrite
    | .Execute => grant.execute

/-! ## Actions -/

inductive PackageProfile
  | Apk3_0_5
  | Opkg38eccbb1RootStatus
  deriving DecidableEq

inductive Action
  | ApkInstalledPage
  | OpkgStatusPage
  | Ubus (object method : Str) (arguments : BTreeMap Str Value)
  | Process (program : Str) (args : List Str)

def Action.package_profile : Action → Option PackageProfile
  | .ApkInstalledPage => some .Apk3_0_5
  | .OpkgStatusPage => some .Opkg38eccbb1RootStatus
  | _ => none

def Action.is_ubus : Action → Bool
  | .Ubus .. => true
  | _ => false

inductive PreparedAction
  | OpkgStatusPage (cursor : Option Str)
  | ApkInstalledPage (cursor : Option Str)
  | Ubus (object method : Str) (arguments : Value)
  | Process (program : Str) (args : List Str)

def PreparedAction.package_page : PreparedAction → Option (PackageProfile × Option Str)
  | .ApkInstalledPage cursor => some (.Apk3_0_5, cursor)
  | .OpkgStatusPage cursor => some (.Opkg38eccbb1RootStatus, cursor)
  | _ => none

/-- What an operation asks of the device before it runs. -/
inductive CapabilityRequirement
  | ApkInstalledQuery
  | OpkgRootStatusFile
  | UbusMethod (object method : Str) (arguments : BTreeMap Str ParameterKind)
      (response_contract : Str)
  | Unverified

inductive OutputMode
  | Scalars
  | Structured
  | Typed (definition : TypedProjection)
  deriving DecidableEq

structure Operation where
  name : Str
  description : Str
  requirements : List Requirement
  parameters : BTreeMap Str Parameter
  action : Action
  capability : CapabilityRequirement
  output_fields : List Str
  output_mode : OutputMode

/-! ## Texts -/

def bounded_string (value : Str) (max : Nat) : Bool := len value ≤ max && '\x00' ∉ value

def ubus_identifier (value : Str) : Bool :=
  value ≠ [] && len value ≤ 128 && (bytes value).head?.any is_ascii_alphabetic &&
    (bytes value).all fun byte => is_ascii_alphanumeric byte || byte ∈ ascii "_.-"

/-- `value.strip_prefix('\x7b')?.strip_suffix('\x7d')` -/
def parameter_reference : Str → Option Str
  | [] => none
  | first :: rest =>
    if first = '\x7b' ∧ rest.getLast? = some '\x7d' then some rest.dropLast else none

/-- A number, as a client may write it: the text of a parameter. -/
def scalar_text : Value → Option Str
  | .String value => some value
  | .Number (.Float _) => none
  | .Number value => some value.to_string
  | .Bool value => some (if value then "true".toList else "false".toList)
  | _ => none

theorem bounded_string_iff {value : Str} {max : Nat} :
    bounded_string value max = true ↔ len value ≤ max ∧ '\x00' ∉ value := by
  simp [bounded_string]

theorem bounded_string_mono {value : Str} {max max' : Nat} (hle : max ≤ max')
    (h : bounded_string value max = true) : bounded_string value max' = true := by
  rw [bounded_string_iff] at h ⊢
  exact ⟨h.1.trans hle, h.2⟩

end openwrt_mcp_core
