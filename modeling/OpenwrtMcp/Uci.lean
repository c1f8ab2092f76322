-- The reviewed reads of a configuration. An operation on the object `uci` is one of them, or
-- it is refused.
import OpenwrtMcp.Operation

open json maps text

namespace openwrt_mcp_core.uci

open projection

inductive UciReadProfile
  | System
  | NetworkInterfaces
  | WirelessRadios
  | FirewallDefaults
  | Dnsmasq
  | Mounts
  | Timeservers
  | NetworkDevices
  | BridgeVlans
  | RoutesV4
  | RoutesV6
  | RulesV4
  | RulesV6
  | FirewallZones
  | FirewallForwardings
  | FirewallRules
  | FirewallRedirects
  | FirewallNats
  | DhcpPools
  | DhcpHosts
  | DnsDomains
  | DnsCnames
  | StorageGlobals
  | Swaps
  | Leds
  | Dropbear
  | Uhttpd
  | Odhcpd
  deriving DecidableEq

namespace UciReadProfile

def ALL : List UciReadProfile :=
  [.System, .NetworkInterfaces, .WirelessRadios, .FirewallDefaults, .Dnsmasq, .Mounts,
    .Timeservers, .NetworkDevices, .BridgeVlans, .RoutesV4, .RoutesV6, .RulesV4, .RulesV6,
    .FirewallZones, .FirewallForwardings, .FirewallRules, .FirewallRedirects, .FirewallNats,
    .DhcpPools, .DhcpHosts, .DnsDomains, .DnsCnames, .StorageGlobals, .Swaps, .Leds, .Dropbear,
    .Uhttpd, .Odhcpd]

def config : UciReadProfile → Str
  | .System | .Timeservers | .Leds => "system".toList
  | .Dropbear => "dropbear".toList
  | .Uhttpd => "uhttpd".toList
  | .NetworkInterfaces | .NetworkDevices | .BridgeVlans | .RoutesV4 | .RoutesV6 | .RulesV4
  | .RulesV6 => "network".toList
  | .WirelessRadios => "wireless".toList
  | .FirewallDefaults | .FirewallZones | .FirewallForwardings | .FirewallRules
  | .FirewallRedirects | .FirewallNats => "firewall".toList
  | .Dnsmasq | .DhcpPools | .DhcpHosts | .DnsDomains | .DnsCnames | .Odhcpd => "dhcp".toList
  | .Mounts | .StorageGlobals | .Swaps => "fstab".toList

def section_type : UciReadProfile → Str
  | .System => "system".toList
  | .NetworkInterfaces => "interface".toList
  | .WirelessRadios => "wifi-device".toList
  | .FirewallDefaults => "defaults".toList
  | .Dnsmasq => "dnsmasq".toList
  | .Mounts => "mount".toList
  | .Timeservers => "timeserver".toList
  | .NetworkDevices => "device".toList
  | .BridgeVlans => "bridge-vlan".toList
  | .RoutesV4 => "route".toList
  | .RoutesV6 => "route6".toList
  | .RulesV4 | .FirewallRules => "rule".toList
  | .RulesV6 => "rule6".toList
  | .FirewallZones => "zone".toList
  | .FirewallForwardings => "forwarding".toList
  | .FirewallRedirects => "redirect".toList
  | .FirewallNats => "nat".toList
  | .DhcpPools => "dhcp".toList
  | .DhcpHosts => "host".toList
  | .DnsDomains => "domain".toList
  | .DnsCnames => "cname".toList
  | .StorageGlobals => "global".toList
  | .Swaps => "swap".toList
  | .Leds => "led".toList
  | .Dropbear => "dropbear".toList
  | .Uhttpd => "uhttpd".toList
  | .Odhcpd => "odhcpd".toList

def category : UciReadProfile → Category
  | .System | .Timeservers | .Leds | .Dropbear | .Uhttpd => .System
  | .NetworkInterfaces | .NetworkDevices | .BridgeVlans | .RoutesV4 | .RoutesV6 | .RulesV4
  | .RulesV6 => .Network
  | .WirelessRadios => .Wireless
  | .FirewallDefaults | .FirewallZones | .FirewallForwardings | .FirewallRules
  | .FirewallRedirects | .FirewallNats => .Firewall
  | .Dnsmasq | .DhcpPools | .DhcpHosts | .DnsDomains | .DnsCnames | .Odhcpd => .DhcpDns
  | .Mounts | .StorageGlobals | .Swaps => .Storage

end UciReadProfile

/-- The text of an argument. -/
def argument (arguments : BTreeMap Str Value) (key : String) : Option Str :=
  (arguments.get key.toList).bind as_str

def is_text_option {R : Type} : Collection R → Bool
  | .TextOption .. => true
  | _ => false

/-- The field that holds every row to the type of its section. -/
def holds_type (profile : UciReadProfile) (field : ScalarField) : Bool :=
  field.source = "/.type".toList && field.presence = .Required &&
    match field.value with
    | .TextEnum _ values => values = [profile.section_type]
    | _ => false

/-- The projection of a read, once its profile is known. -/
def reads_rows (profile : UciReadProfile) : OutputMode → Bool
  | .Typed (.Collection reject_if_present (.ObjectEntries source max_items key record) .All) =>
    source = "/values".toList && (1 ≤ max_items && max_items ≤ 128) &&
      (1 ≤ key.max_bytes && key.max_bytes ≤ 256) &&
      (record.collections.all fun field => is_text_option field.collection) &&
      "/error".toList ∈ reject_if_present && record.fields.any (holds_type profile)
  | _ => false

def validate_read (operation : Operation) : Except CoreError Unit :=
  match operation.action with
  | .Ubus object method arguments =>
    if object ≠ "uci".toList then .ok ()
    else
      let found := UciReadProfile.ALL.find? fun profile =>
        argument arguments "config" = some profile.config &&
          argument arguments "type" = some profile.section_type
      match found with
      | none => .error .InvalidDefinition
      | some profile =>
        if method ≠ "get".toList || arguments.len ≠ 2 || !operation.parameters.is_empty ||
            ⟨profile.category, .Read⟩ ∉ operation.requirements then .error .InvalidDefinition
        else if !reads_rows profile operation.output_mode then .error .InvalidDefinition
        else .ok ()
  | _ => .ok ()

end openwrt_mcp_core.uci
