-- The serialized definition of an operation. Only its length is looked at.
import OpenwrtMcp.Operation

open json maps text

namespace openwrt_mcp_core

/-! ## The parts -/

/-- A struct: its members in the order of the declaration. -/
def members (fields : List (String × Value)) : Value :=
  .Object (fields.map fun f => (f.1.toList, f.2))

/-- A variant with `#[serde(tag = "kind")]`. -/
def tagged (kind : String) (fields : List (String × Value)) : Value :=
  members (("kind", .String kind.toList) :: fields)

def text_list (values : List Str) : Value := .Array (values.map .String)

def of_usize (n : Nat) : Value := .Number (.PosInt (UInt64.ofNat n))

def Category.to_string : Category → String
  | .System => "system"
  | .Network => "network"
  | .Wireless => "wireless"
  | .Firewall => "firewall"
  | .DhcpDns => "dhcp_dns"
  | .Services => "services"
  | .Packages => "packages"
  | .Storage => "storage"
  | .Vpn => "vpn"
  | .Firmware => "firmware"
  | .Diagnostics => "diagnostics"
  | .Extensions => "extensions"

def Permission.to_string : Permission → String
  | .Read => "read"
  | .Write => "write"
  | .Execute => "execute"

def Requirement.to_value (r : Requirement) : Value :=
  members [("category", .String r.category.to_string.toList),
    ("permission", .String r.permission.to_string.toList)]

def ParameterKind.to_string : ParameterKind → Str
  | .String => "string".toList
  | .Integer => "integer".toList
  | .Boolean => "boolean".toList

def ParameterKind.to_value (kind : ParameterKind) : Value := .String kind.to_string

def Parameter.to_value (p : Parameter) : Value :=
  members [("kind", p.kind.to_value), ("required", .Bool p.required),
    ("allowed_values", text_list p.allowed_values)]

def Action.to_value : Action → Value
  | .ApkInstalledPage => tagged "apk_installed_page" []
  | .OpkgStatusPage => tagged "opkg_status_page" []
  | .Ubus object method arguments =>
    tagged "ubus" [("object", .String object), ("method", .String method),
      ("arguments", .Object arguments.entries)]
  | .Process program args =>
    tagged "process" [("program", .String program), ("args", text_list args)]

def CapabilityRequirement.to_value : CapabilityRequirement → Value
  | .ApkInstalledQuery => tagged "apk_installed_query" []
  | .OpkgRootStatusFile => tagged "opkg_root_status_file" []
  | .UbusMethod object method arguments response_contract =>
    tagged "ubus_method" [("object", .String object), ("method", .String method),
      ("arguments", .Object (arguments.entries.map fun e => (e.1, e.2.to_value))),
      ("response_contract", .String response_contract)]
  | .Unverified => tagged "unverified" []

/-! ## The projection -/

namespace projection

def Presence.to_value : Presence → Value
  | .Required => .String "required".toList
  | .Optional => .String "optional".toList

def CounterSource.to_value : CounterSource → Value
  | .JsonInteger => .String "json_integer".toList
  | .DecimalText => .String "decimal_text".toList

def ScalarKind.to_value : ScalarKind → Value
  | .Boolean => tagged "boolean" []
  | .Text max_bytes => tagged "text" [("max_bytes", of_usize max_bytes)]
  | .TextEnum max_bytes values =>
    tagged "text_enum" [("max_bytes", of_usize max_bytes), ("values", text_list values)]
  | .SafeInteger min max => tagged "safe_integer" [("min", from_i64 min), ("max", from_i64 max)]
  | .FalseOrSafeInteger min max =>
    tagged "false_or_safe_integer" [("min", from_i64 min), ("max", from_i64 max)]
  | .DecimalCounter source => tagged "decimal_counter" [("source", source.to_value)]

def ScalarField.to_value (field : ScalarField) : Value :=
  members [("name", .String field.name), ("source", .String field.source),
    ("presence", field.presence.to_value), ("value", field.value.to_value)]

def TextIdentity.to_value (key : TextIdentity) : Value :=
  members [("name", .String key.name), ("max_bytes", of_usize key.max_bytes)]

def LeafRecord.to_value (record : LeafRecord) : Value :=
  members [("fields", .Array (record.fields.map ScalarField.to_value))]

section
variable {C R : Type}

def CollectionField.to_value (serialize : C → Value) (field : CollectionField C) : Value :=
  members [("name", .String field.name), ("presence", field.presence.to_value),
    ("collection", serialize field.collection)]

def Record.to_value (serialize : C → Value) (record : Record C) : Value :=
  members [("fields", .Array (record.fields.map ScalarField.to_value)),
    ("collections", .Array (record.collections.map (CollectionField.to_value serialize)))]

def Collection.to_value (serialize : R → Value) : Collection R → Value
  | .TextOption source max_items max_bytes =>
    tagged "text_option" [("source", .String source), ("max_items", of_usize max_items),
      ("max_bytes", of_usize max_bytes)]
  | .RowArray source max_items record =>
    tagged "row_array" [("source", .String source), ("max_items", of_usize max_items),
      ("record", serialize record)]
  | .ObjectArray source max_items identity record =>
    tagged "object_array" [("source", .String source), ("max_items", of_usize max_items),
      ("identity", .String identity), ("record", serialize record)]
  | .ObjectEntries source max_items key record =>
    tagged "object_entries" [("source", .String source), ("max_items", of_usize max_items),
      ("key", key.to_value), ("record", serialize record)]
  | .ScalarArray source max_items name value unique =>
    tagged "scalar_array" [("source", .String source), ("max_items", of_usize max_items),
      ("name", .String name), ("value", value.to_value), ("unique", .Bool unique)]

end

def InnerRecord.to_value : InnerRecord → Value :=
  Record.to_value (Collection.to_value LeafRecord.to_value)

def RootRecord.to_value : RootRecord → Value :=
  Record.to_value (Collection.to_value InnerRecord.to_value)

def Selection.to_value : Selection → Value
  | .All => tagged "all" []
  | .ExactOne parameter => tagged "exact_one" [("parameter", .String parameter)]

/-- `skip_serializing_if = "Vec::is_empty"` -/
def guards_to_value (reject_if_present : List Str) : List (String × Value) :=
  if reject_if_present = [] then [] else [("reject_if_present", text_list reject_if_present)]

def TypedProjection.to_value : TypedProjection → Value
  | .Record reject_if_present record =>
    tagged "record" (guards_to_value reject_if_present ++ [("record", RootRecord.to_value record)])
  | .Collection reject_if_present collection selection =>
    tagged "collection" (guards_to_value reject_if_present ++
      [("collection", collection.to_value InnerRecord.to_value), ("selection", selection.to_value)])

end projection

/-! ## The operation -/

def OutputMode.to_value : OutputMode → Value
  | .Scalars => .String "scalars".toList
  | .Structured => .String "structured".toList
  | .Typed definition => members [("typed", definition.to_value)]

def Operation.to_value (operation : Operation) : Value :=
  members [("name", .String operation.name), ("description", .String operation.description),
    ("requirements", .Array (operation.requirements.map Requirement.to_value)),
    ("parameters", .Object (operation.parameters.entries.map fun e => (e.1, e.2.to_value))),
    ("action", operation.action.to_value), ("capability", operation.capability.to_value),
    ("output_fields", text_list operation.output_fields),
    ("output_mode", operation.output_mode.to_value)]

/-- `serde_json::to_vec(self)?.len()` -/
def Operation.definition_bytes (operation : Operation) : Nat := size operation.to_value

end openwrt_mcp_core
