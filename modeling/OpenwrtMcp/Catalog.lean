-- The catalog of the operations that a client may call, and the policy that authorizes them.
import OpenwrtMcp.OperationCheck

open json maps programs text

namespace openwrt_mcp_core

open projection

def MAX_CUSTOM_OPERATIONS : Nat := 1024

structure Catalog where
  operations : List Operation
  index : BTreeMap Str Nat

namespace Catalog

def is_structured : OutputMode → Bool
  | .Structured => true
  | _ => false

def targets_uci : Action → Bool
  | .Ubus object _ _ => object = "uci".toList
  | _ => false

/-- `requirements.push(required)`, unless it is there. -/
def declare (required : Requirement) (requirements : List Requirement) : List Requirement :=
  if required ∈ requirements then requirements else requirements ++ [required]

/-- An extension needs to write and to execute, whatever else it declares. -/
def extended (operation : Operation) : Operation :=
  let written := declare ⟨.Extensions, .Write⟩ operation.requirements
  { operation with requirements := declare ⟨.Extensions, .Execute⟩ written }

/-- The loop over the extensions: the operations so far and their names. -/
def install : List Operation → List Operation → List Str → Except CoreError (List Operation)
  | [], operations, _ => .ok operations
  | operation :: rest, operations, names =>
    if targets_uci operation.action then .error .InvalidDefinition
    else if operation.name ∈ names then .error .DuplicateOperation
    else do
      operation.validate
      (extended operation).validate
      install rest (operations ++ [extended operation]) (operation.name :: names)

def validate_all : List Operation → Except CoreError Unit
  | [] => .ok ()
  | operation :: rest => do
    operation.validate
    validate_all rest

def with_builtins (builtins custom : List Operation) : Except CoreError Catalog :=
  if custom.length > MAX_CUSTOM_OPERATIONS then .error .CatalogLimitExceeded
  else if builtins.any fun operation => is_structured operation.output_mode then
    .error .InvalidDefinition
  else
    let names := (builtins.map Operation.name).dedup
    if names.length ≠ builtins.length then .error .DuplicateOperation
    else do
      let operations ← install custom builtins names
      validate_all operations
      .ok ⟨operations, .collect (operations.zipIdx.map fun e => (e.1.name, e.2))⟩

/-- `Catalog::new` -/
def new (custom : List Operation) : Except CoreError Catalog := with_builtins [] custom

def get (catalog : Catalog) (name : Str) : Option Operation :=
  (catalog.index.get name).bind fun index => catalog.operations[index]?

end Catalog

/-! ## The policy -/

theorem Category.ctorIdx_injective : Function.Injective Category.ctorIdx := by
  intro a b h
  cases a <;> cases b <;> first | rfl | cases h

instance : LinearOrder Category := LinearOrder.lift' Category.ctorIdx Category.ctorIdx_injective

structure Policy where
  categories : BTreeMap Category Grant
  allow_operations : Option (Finset Str)
  deny_operations : Finset Str

namespace Policy

/-- `self.categories.get(category).copied().unwrap_or_default()` -/
def grant (policy : Policy) (category : Category) : Grant :=
  (policy.categories.get category).getD .default

/-- Every operation that is referred to by its name is in the catalog. -/
def validate (policy : Policy) (catalog : Catalog) : Except CoreError Unit :=
  if (∀ name ∈ policy.deny_operations, (catalog.get name).isSome) ∧
      (∀ name ∈ policy.allow_operations.getD ∅, (catalog.get name).isSome) then .ok ()
  else .error .UnknownOperationReference

def authorize (policy : Policy) (operation : Operation) : Except CoreError Unit :=
  if operation.requirements = [] || operation.name ∈ policy.deny_operations ||
      policy.allow_operations.any (operation.name ∉ ·) then .error .PermissionDenied
  else if operation.requirements.all fun requirement =>
      (policy.grant requirement.category).permits requirement.permission then .ok ()
  else .error .PermissionDenied

end Policy

/-! ## What is authorized -/

/-- The order of the levels of access. -/
def Access.rank : Access → Nat
  | .Deny => 0
  | .Read => 1
  | .ReadWrite => 2

/-- A grant that gives no more than another. -/
structure Grant.Within (a b : Grant) : Prop where
  access : a.access.rank ≤ b.access.rank
  execute : a.execute = true → b.execute = true

theorem Grant.Within.permits {a b : Grant} (h : a.Within b) {permission : Permission}
    (hp : a.permits permission = true) : b.permits permission = true := by
  obtain ⟨access, execute⟩ := a
  obtain ⟨access', execute'⟩ := b
  obtain ⟨haccess, hexecute⟩ := h
  unfold Grant.permits at hp ⊢
  cases access <;> cases access' <;> cases permission <;>
    simp [Access.rank] at haccess hexecute hp ⊢
  · exact hexecute hp
  · exact hexecute hp
  · exact hexecute hp

namespace Policy

theorem authorize_ok {policy : Policy} {operation : Operation} :
    policy.authorize operation = .ok () ↔ operation.requirements ≠ [] ∧
      operation.name ∉ policy.deny_operations ∧
      (∀ allowed, policy.allow_operations = some allowed → operation.name ∈ allowed) ∧
      ∀ requirement ∈ operation.requirements,
        (policy.grant requirement.category).permits requirement.permission = true := by
  unfold authorize
  by_cases hempty : operation.requirements = []
  · simp [hempty]
  · by_cases hdeny : operation.name ∈ policy.deny_operations
    · simp [hdeny]
    · cases hallow : policy.allow_operations with
      | none => simp [hempty, hdeny]
      | some allowed =>
        by_cases hin : operation.name ∈ allowed
        · simp [hempty, hdeny, hin]
        · simp [hin]

/-- A policy that restricts another one further: it grants no more in any category, it
denies whatever the other denies, and it allows only what the other allows. -/
structure Restricts (strict policy : Policy) : Prop where
  grants : ∀ category, (strict.grant category).Within (policy.grant category)
  denies : policy.deny_operations ⊆ strict.deny_operations
  allows : ∀ allowed, policy.allow_operations = some allowed →
    ∃ fewer ⊆ allowed, strict.allow_operations = some fewer

/-- What has no entry is denied. -/
theorem grant_of_no_entry {policy : Policy} {category : Category}
    (h : category ∉ policy.categories.keys) : policy.grant category = ⟨.Deny, false⟩ := by
  rw [grant, BTreeMap.get_eq_none.2 h]
  rfl

/-- Entries are left out, and the others stay. -/
theorem Restricts.of_fewer {policy : Policy} {fewer : BTreeMap Category Grant}
    (h : ∀ category grant, fewer.get category = some grant →
      policy.categories.get category = some grant) :
    ({ policy with categories := fewer } : Policy).Restricts policy where
  grants category := by
    cases hget : fewer.get category with
    | none =>
      have hno : category ∉ fewer.keys := BTreeMap.get_eq_none.1 hget
      have hdeny : ({ policy with categories := fewer } : Policy).grant category = ⟨.Deny, false⟩ :=
        grant_of_no_entry hno
      rw [hdeny]
      exact ⟨Nat.zero_le _, fun h => by cases h⟩
    | some grant =>
      rw [Policy.grant, Policy.grant, hget, h category grant hget]
      exact ⟨Nat.le_refl _, fun h => h⟩
  denies := Finset.Subset.refl _
  allows allowed hallowed := ⟨allowed, Finset.Subset.refl _, hallowed⟩

theorem Restricts.authorize {strict policy : Policy} (h : strict.Restricts policy)
    {operation : Operation} (ha : strict.authorize operation = .ok ()) :
    policy.authorize operation = .ok () := by
  rw [authorize_ok] at ha ⊢
  obtain ⟨hempty, hdeny, hallow, hgrants⟩ := ha
  refine ⟨hempty, fun hin => hdeny (h.denies hin), ?_, ?_⟩
  · intro allowed hallowed
    obtain ⟨fewer, hfewer, hstrict⟩ := h.allows allowed hallowed
    exact hfewer (hallow fewer hstrict)
  · intro requirement hmem
    exact (h.grants requirement.category).permits (hgrants requirement hmem)

/-- What authorizes an operation is granted to whatever it requires. -/
theorem authorize_granted {policy : Policy} {operation : Operation}
    (h : policy.authorize operation = .ok ()) {requirement : Requirement}
    (hmem : requirement ∈ operation.requirements) :
    (policy.grant requirement.category).permits requirement.permission = true :=
  (authorize_ok.1 h).2.2.2 requirement hmem

end Policy

/-! ## What is in a catalog -/

namespace Catalog

theorem mem_declare {required r : Requirement} {requirements : List Requirement} :
    r ∈ declare required requirements ↔ r ∈ requirements ∨ r = required := by
  unfold declare
  by_cases hin : required ∈ requirements
  · rw [if_pos hin]
    constructor
    · exact .inl
    · rintro (hr | rfl)
      · exact hr
      · exact hin
  · rw [if_neg hin]
    simp

theorem mem_extended {operation : Operation} {r : Requirement} :
    r ∈ (extended operation).requirements ↔ r ∈ operation.requirements ∨
      r = ⟨.Extensions, .Write⟩ ∨ r = ⟨.Extensions, .Execute⟩ := by
  unfold extended
  simp only [mem_declare]
  tauto

theorem install_spec {custom operations result : List Operation} {names : List Str}
    (h : install custom operations names = .ok result) :
    result = operations ++ custom.map extended ∧ (custom.map Operation.name).Nodup ∧
      ∀ operation ∈ custom, targets_uci operation.action = false ∧ operation.name ∉ names := by
  induction custom generalizing operations names with
  | nil =>
    cases h
    simp
  | cons operation rest ih =>
    unfold install at h
    by_cases huci : targets_uci operation.action = true
    · rw [if_pos huci] at h
      cases h
    rw [if_neg huci] at h
    by_cases hname : operation.name ∈ names
    · rw [if_pos hname] at h
      cases h
    rw [if_neg hname] at h
    obtain ⟨_, -, h⟩ := except_bind_ok.1 h
    obtain ⟨_, -, h⟩ := except_bind_ok.1 h
    obtain ⟨hresult, hnodup, hrest⟩ := ih h
    refine ⟨by simp [hresult], ?_, ?_⟩
    · rw [List.map_cons, List.nodup_cons]
      refine ⟨?_, hnodup⟩
      intro hin
      obtain ⟨other, hother, heq⟩ := List.mem_map.1 hin
      exact (hrest other hother).2 (by simp [heq])
    · rw [List.forall_mem_cons]
      refine ⟨⟨by simpa using huci, hname⟩, ?_⟩
      intro other hother
      exact ⟨(hrest other hother).1, fun hin => (hrest other hother).2 (by simp [hin])⟩

theorem validate_all_spec {operations : List Operation} (h : validate_all operations = .ok ()) :
    ∀ operation ∈ operations, operation.validate = .ok () := by
  induction operations with
  | nil => simp
  | cons operation rest ih =>
    obtain ⟨_, hfirst, h⟩ := except_bind_ok.1 h
    exact List.forall_mem_cons.2 ⟨hfirst, ih h⟩

/-- A catalog, as it is built of two lists of operations. -/
structure Built (builtins custom : List Operation) (catalog : Catalog) : Prop where
  operations : catalog.operations = builtins ++ custom.map extended
  names : (catalog.operations.map Operation.name).Nodup
  index : catalog.index = .collect (catalog.operations.zipIdx.map fun e => (e.1.name, e.2))
  valid : ∀ operation ∈ catalog.operations, operation.validate = .ok ()
  custom : ∀ operation ∈ custom, targets_uci operation.action = false ∧
    operation.name ∉ builtins.map Operation.name

theorem with_builtins_built {builtins custom : List Operation} {catalog : Catalog}
    (h : with_builtins builtins custom = .ok catalog) : Built builtins custom catalog := by
  unfold with_builtins at h
  by_cases hcount : custom.length > MAX_CUSTOM_OPERATIONS
  · rw [if_pos hcount] at h
    cases h
  rw [if_neg hcount] at h
  by_cases hstructured : (builtins.any fun operation => is_structured operation.output_mode) = true
  · rw [if_pos hstructured] at h
    cases h
  rw [if_neg hstructured] at h
  by_cases hnames : (builtins.map Operation.name).dedup.length = builtins.length
  · simp only [hnames, ne_eq, not_true, if_false] at h
    obtain ⟨operations, hinstall, h⟩ := except_bind_ok.1 h
    obtain ⟨_, hvalid, h⟩ := except_bind_ok.1 h
    cases h
    obtain ⟨rfl, hnodup, hcustom⟩ := install_spec hinstall
    have hbuiltins : (builtins.map Operation.name).Nodup := by
      rw [← List.dedup_eq_self]
      exact (List.dedup_sublist _).eq_of_length (by simp [hnames])
    have hcustom : ∀ operation ∈ custom, targets_uci operation.action = false ∧
        operation.name ∉ builtins.map Operation.name := by
      intro operation hmem
      refine ⟨(hcustom operation hmem).1, ?_⟩
      rw [← List.mem_dedup]
      exact (hcustom operation hmem).2
    refine ⟨rfl, ?_, rfl, validate_all_spec hvalid, hcustom⟩
    have hextended : (custom.map extended).map Operation.name = custom.map Operation.name := by
      rw [List.map_map]
      rfl
    rw [List.map_append, hextended, List.nodup_append]
    refine ⟨hbuiltins, hnodup, ?_⟩
    rintro name hbuiltin _ hin rfl
    obtain ⟨operation, hmem, rfl⟩ := List.mem_map.1 hin
    exact (hcustom operation hmem).2 hbuiltin
  · simp [hnames] at h

/-- A name finds the operation that has it. -/
theorem Built.get_eq_some {builtins custom : List Operation} {catalog : Catalog}
    (h : Built builtins custom catalog) {name : Str} {operation : Operation} :
    catalog.get name = some operation ↔
      operation ∈ catalog.operations ∧ operation.name = name := by
  have hkeys : (catalog.operations.zipIdx.map fun e => (e.1.name, e.2)).map Prod.fst =
      catalog.operations.map Operation.name := by
    rw [List.map_map, ← List.zipIdx_map_fst 0 catalog.operations, List.map_map]
    simp
  have hlookup : ∀ i, catalog.index.get name = some i ↔
      ∃ found, catalog.operations[i]? = some found ∧ found.name = name := by
    intro i
    rw [h.index, BTreeMap.get_collect (hkeys ▸ h.names), List.mem_map]
    constructor
    · rintro ⟨⟨found, j⟩, hin, heq⟩
      rw [Prod.mk.injEq] at heq
      obtain ⟨hname, rfl⟩ := heq
      exact ⟨found, List.mk_mem_zipIdx_iff_getElem?.1 hin, hname⟩
    · rintro ⟨found, hfound, rfl⟩
      exact ⟨(found, i), List.mk_mem_zipIdx_iff_getElem?.2 hfound, rfl⟩
  unfold get
  rw [Option.bind_eq_some_iff]
  constructor
  · rintro ⟨i, hi, hget⟩
    obtain ⟨found, hfound, hname⟩ := (hlookup i).1 hi
    rw [hfound] at hget
    cases hget
    exact ⟨List.mem_of_getElem? hfound, hname⟩
  · rintro ⟨hmem, hname⟩
    obtain ⟨i, hi⟩ := List.getElem?_of_mem hmem
    exact ⟨i, (hlookup i).2 ⟨operation, hi, hname⟩, hi⟩

/-- An extension needs the grant of all extensions, and whatever it declares itself. -/
theorem extended_authorized {policy : Policy} {operation : Operation}
    (h : policy.authorize (extended operation) = .ok ()) :
    policy.grant .Extensions = ⟨.ReadWrite, true⟩ ∧
      ∀ requirement ∈ operation.requirements,
        (policy.grant requirement.category).permits requirement.permission = true := by
  have hwrite := Policy.authorize_granted h (mem_extended.2 (.inr (.inl rfl)))
  have hexecute := Policy.authorize_granted h (mem_extended.2 (.inr (.inr rfl)))
  refine ⟨?_, fun requirement hmem => Policy.authorize_granted h (mem_extended.2 (.inl hmem))⟩
  cases hgrant : policy.grant .Extensions with
  | mk access execute =>
    simp only [hgrant] at hwrite hexecute
    unfold Grant.permits at hwrite hexecute
    cases access <;> simp_all

end Catalog

/-- A catalog holds the operations that it is built of, under different names and all of them
valid. An extension replaces none of the others, reaches no configuration, and runs under the
grant of the extensions only. No restriction of a policy authorizes what was denied. -/
theorem a_catalog_is_what_it_is_built_of {builtins custom : List Operation} {catalog : Catalog}
    (h : Catalog.with_builtins builtins custom = .ok catalog) (policy : Policy) :
    (catalog.operations.map Operation.name).Nodup ∧
    (∀ name operation, catalog.get name = some operation ↔
      operation ∈ catalog.operations ∧ operation.name = name) ∧
    (∀ operation ∈ catalog.operations, operation.validate = .ok ()) ∧
    catalog.operations = builtins ++ custom.map Catalog.extended ∧
    (∀ operation ∈ custom, operation.name ∉ builtins.map Operation.name ∧
      ∀ object method arguments, operation.action = .Ubus object method arguments →
        object ≠ "uci".toList) ∧
    (∀ operation ∈ custom, policy.authorize (Catalog.extended operation) = .ok () →
      policy.grant .Extensions = ⟨.ReadWrite, true⟩ ∧
      ∀ requirement ∈ operation.requirements,
        (policy.grant requirement.category).permits requirement.permission = true) ∧
    ∀ strict : Policy, strict.Restricts policy → ∀ operation : Operation,
      strict.authorize operation = .ok () → policy.authorize operation = .ok () := by
  have hbuilt := Catalog.with_builtins_built h
  refine ⟨hbuilt.names, fun _ _ => hbuilt.get_eq_some, hbuilt.valid, hbuilt.operations, ?_, ?_, ?_⟩
  · intro operation hmem
    obtain ⟨huci, hname⟩ := hbuilt.custom operation hmem
    refine ⟨hname, ?_⟩
    intro object method arguments haction hobject
    simp [haction, hobject, Catalog.targets_uci] at huci
  · exact fun operation _ => Catalog.extended_authorized
  · exact fun strict hstrict operation => hstrict.authorize

/-- An operation that runs one program. -/
def program_operation (name program : String) : Operation where
  name := name.toList
  description := "Runs one program.".toList
  requirements := [⟨.Diagnostics, .Read⟩]
  parameters := .empty
  action := .Process program.toList []
  capability := .Unverified
  output_fields := []
  output_mode := .Scalars

def reads_diagnostics : Policy where
  categories := .collect [(.Diagnostics, ⟨.Read, false⟩)]
  allow_operations := none
  deny_operations := ∅

/-- The extensions are granted too. -/
def runs_extensions : Policy := { reads_diagnostics with
  categories := .collect [(.Diagnostics, ⟨.Read, false⟩), (.Extensions, ⟨.ReadWrite, true⟩)] }

/-- The custom operation is authorized by the one policy, and not by the other. -/
theorem a_catalog_of_two_operations : ∃ catalog,
    Catalog.with_builtins [program_operation "uptime" "/usr/bin/uptime"]
      [program_operation "probe" "/usr/bin/probe"] = .ok catalog ∧
    (catalog.operations.map Operation.name).Nodup ∧
    runs_extensions.authorize (Catalog.extended (program_operation "probe" "/usr/bin/probe")) =
      .ok () ∧
    reads_diagnostics.authorize (Catalog.extended (program_operation "probe" "/usr/bin/probe")) ≠
      .ok () := by
  have hok : (Catalog.with_builtins [program_operation "uptime" "/usr/bin/uptime"]
      [program_operation "probe" "/usr/bin/probe"]).toOption.isSome = true := by decide +kernel
  cases hcatalog : Catalog.with_builtins [program_operation "uptime" "/usr/bin/uptime"]
      [program_operation "probe" "/usr/bin/probe"] with
  | error e =>
    rw [hcatalog] at hok
    cases hok
  | ok catalog =>
    obtain ⟨hnames, -, -, -, -, hgrants, -⟩ :=
      a_catalog_is_what_it_is_built_of hcatalog reads_diagnostics
    refine ⟨catalog, rfl, hnames, by decide +kernel, fun hauthorized => ?_⟩
    have hextensions := (hgrants _ (List.mem_singleton.2 rfl) hauthorized).1
    exact absurd hextensions (by decide +kernel)

end openwrt_mcp_core
