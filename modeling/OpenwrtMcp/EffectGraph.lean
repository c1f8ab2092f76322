-- The influence graphs of `management`: the resources, the two snapshots of
-- a graph, their union, and the search from the roots of a change.
import OpenwrtMcp.Slices
import OpenwrtMcp.Text

open text slices

namespace openwrt_mcp_core.management

def MAX_EFFECT_NODES : Nat := 4096
def MAX_EFFECT_EDGES : Nat := 8192
def MAX_CHANGE_ROOTS : Nat := 256
def MAX_PROTECTED_RESOURCES : Nat := 128
def MAX_RESOURCE_ID_BYTES : Nat := 128

inductive EffectAssessment
  | NoKnownProtectedImpact (affected_resources : Nat)
  deriving DecidableEq, Repr

inductive EffectError
  | InvalidIdentity
  | InvalidGraph
  | InvalidSelection
  | LimitExceeded
  | MissingRoot
  | MissingProtectedResource
  | GlobalEffects
  | ProtectedImpact
  | IncompleteEffects
  deriving DecidableEq, Repr

/-! ## Resources -/

inductive ResourceKind
  | PhysicalPort
  | NetworkDevice
  | Bridge
  | Vlan
  | Interface
  | Routing
  | Firewall
  | DhcpDns
  | Multicast
  | Service
  | Storage
  | Vpn
  | System
  | Packages
  | Firmware
  deriving DecidableEq, Repr

/-- The place of a kind in the derived order, which is the order of the variants. -/
def ResourceKind.rank : ResourceKind → Nat
  | .PhysicalPort => 0
  | .NetworkDevice => 1
  | .Bridge => 2
  | .Vlan => 3
  | .Interface => 4
  | .Routing => 5
  | .Firewall => 6
  | .DhcpDns => 7
  | .Multicast => 8
  | .Service => 9
  | .Storage => 10
  | .Vpn => 11
  | .System => 12
  | .Packages => 13
  | .Firmware => 14

theorem ResourceKind.rank_injective : Function.Injective ResourceKind.rank := by
  intro a b h
  cases a <;> cases b <;> first | rfl | cases h

/-- The test of `ResourceId::new`. -/
def valid_label (label : Str) : Bool :=
  !label.isEmpty && len label ≤ MAX_RESOURCE_ID_BYTES &&
    (bytes label).all fun b => is_ascii_alphanumeric b || b ∈ ascii "_-./:@"

/-- An exact identity. Its fields are private, so every label passed the test of `new`. -/
structure ResourceId where
  kind : ResourceKind
  label : Str
  valid : valid_label label = true

/-- The derived order compares the kinds, then the labels. -/
instance : LinearOrder ResourceId :=
  LinearOrder.lift' (fun r : ResourceId => toLex (r.kind.rank, r.label)) (by
    rintro ⟨k1, l1, v1⟩ ⟨k2, l2, v2⟩ h
    have h' := toLex.injective h
    simp only [Prod.mk.injEq] at h'
    obtain rfl := ResourceKind.rank_injective h'.1
    obtain rfl := h'.2
    rfl)

def ResourceId.new (kind : ResourceKind) (label : Str) : Except EffectError ResourceId :=
  if h : valid_label label = true then .ok ⟨kind, label, h⟩ else .error .InvalidIdentity

inductive EffectKnowledge
  | Complete
  | Unknown
  deriving DecidableEq, Repr

structure Node where
  resource : ResourceId
  knowledge : EffectKnowledge
  deriving DecidableEq

/-- A change to `source` can influence `target`; these are `from` and `to` in the source. -/
structure Influence where
  source : ResourceId
  target : ResourceId
  deriving DecidableEq

/-! ## Selections -/

/-- A selection holds at most `maximum` resources, at least one, sorted, none twice. -/
structure Selection (maximum : Nat) where
  ids : List ResourceId
  len_le : ids.length ≤ maximum
  ne_nil : ids ≠ []
  increasing : ids.Pairwise (· < ·)

/-- The sorted list that `selection` returns when no test fails. -/
def selection (ids : List ResourceId) (maximum : Nat) : Except EffectError (Selection maximum) :=
  if hl : maximum < ids.length then .error .LimitExceeded
  else if he : ids = [] then .error .InvalidSelection
  else
    let sorted := sort_by_key id ids
    if hw : (windows2 sorted).any (fun pair => pair.1 = pair.2) then .error .InvalidSelection
    else .ok {
      ids := sorted
      len_le := by
        rw [(sort_by_key_perm id ids).length_eq]
        omega
      ne_nil := fun h => he (List.perm_nil.mp (h ▸ (sort_by_key_perm id ids).symm))
      increasing := by
        have hs := sort_by_key_sorted id ids
        rw [List.map_id] at hs
        refine pairwise_lt_of_windows hs fun p hp heq => hw ?_
        exact List.any_eq_true.mpr ⟨p, hp, by simpa using heq⟩ }

structure ProtectedResources where
  ids : Selection MAX_PROTECTED_RESOURCES

def ProtectedResources.new (ids : List ResourceId) : Except EffectError ProtectedResources :=
  (selection ids MAX_PROTECTED_RESOURCES).map ProtectedResources.mk

structure ChangeScope where
  roots : Option (Selection MAX_CHANGE_ROOTS)

/-- `ChangeScope::local` -/
def ChangeScope.of_roots (roots : List ResourceId) : Except EffectError ChangeScope :=
  (selection roots MAX_CHANGE_ROOTS).map fun s => ⟨some s⟩

def ChangeScope.global : ChangeScope := ⟨none⟩

/-! ## One graph -/

/-- The nodes sorted by resource, and the edges as sorted pairs of node indices. -/
structure EffectGraph where
  nodes : List Node
  edges : List (Nat × Nat)
  deriving DecidableEq

def EffectGraph.index (g : EffectGraph) (id : ResourceId) : Option Nat :=
  (binary_search_by g.nodes fun node => cmp node.resource id).toOption

/-- The loop over the edges of `EffectGraph::new`. -/
def index_edges (nodes : List Node) : List Influence → Except EffectError (List (Nat × Nat))
  | [] => .ok []
  | edge :: rest =>
    match binary_search_by nodes fun node => cmp node.resource edge.source with
    | .error _ => .error .InvalidGraph
    | .ok source =>
      match binary_search_by nodes fun node => cmp node.resource edge.target with
      | .error _ => .error .InvalidGraph
      | .ok target =>
        match index_edges nodes rest with
        | .error e => .error e
        | .ok indexed => .ok ((source, target) :: indexed)

def EffectGraph.new (nodes : List Node) (edges : List Influence) : Except EffectError EffectGraph :=
  if nodes.length > MAX_EFFECT_NODES ∨ edges.length > MAX_EFFECT_EDGES then
    .error .LimitExceeded
  else
    let nodes := sort_by_key Node.resource nodes
    if (windows2 nodes).any fun pair => pair.1.resource = pair.2.resource then
      .error .InvalidGraph
    else
      match index_edges nodes edges with
      | .error e => .error e
      | .ok indexed =>
        let indexed := sort_by_key toLex indexed
        if (windows2 indexed).any fun pair => pair.1 = pair.2 then .error .InvalidGraph
        else .ok { nodes, edges := indexed }

/-! ## The union of two graphs -/

abbrev UnionNode := ResourceId × EffectKnowledge

structure CombinedGraph where
  nodes : List UnionNode
  edges : List (Nat × Nat)

/-- Missing means that sorted stream is exhausted, not a smaller value. -/
def next_order {α : Type} [LinearOrder α] : Option α → Option α → Option Ordering
  | some left, some right => some (cmp left right)
  | some _, none => some .lt
  | none, some _ => some .gt
  | none, none => none

/-- The knowledge of a node that both graphs have. -/
def join_knowledge (a b : EffectKnowledge) : EffectKnowledge :=
  if a = .Unknown ∨ b = .Unknown then .Unknown else .Complete

/-- The first loop of `combined_graph`. The lists are what each iterator has left. -/
def merge_nodes (left right : List Node) (nodes : List UnionNode)
    (before_map after_map : List Nat) :
    Except (Abort EffectError) (List UnionNode × List Nat × List Nat) :=
  match next_order (left.head?.map Node.resource) (right.head?.map Node.resource) with
  | none => .ok (nodes, before_map, after_map)
  | some order =>
    if nodes.length = MAX_EFFECT_NODES then .error (.err .LimitExceeded)
    else
      let position := nodes.length
      match order, left, right with
      | .lt, node :: left, right =>
        merge_nodes left right (nodes ++ [(node.resource, node.knowledge)])
          (before_map ++ [position]) after_map
      | .gt, left, node :: right =>
        merge_nodes left right (nodes ++ [(node.resource, node.knowledge)])
          before_map (after_map ++ [position])
      | .eq, a :: left, b :: right =>
        merge_nodes left right (nodes ++ [(a.resource, join_knowledge a.knowledge b.knowledge)])
          (before_map ++ [position]) (after_map ++ [position])
      -- `next()` after a peek that gave an element never fails
      | _, _, _ => .error (.err .InvalidGraph)
termination_by left.length + right.length
decreasing_by all_goals simp only [List.length_cons]; omega

/-- `peek` on the translated edges: the map runs when an edge is looked at. -/
def peek_edge (map : List Nat) : List (Nat × Nat) → Except (Abort EffectError) (Option (Nat × Nat))
  | [] => .ok none
  | (a, b) :: _ => do
    let a' ← index map a
    let b' ← index map b
    return some (a', b')

/-- The second loop of `combined_graph`. -/
def merge_edges (before_map after_map : List Nat) (left right edges : List (Nat × Nat)) :
    Except (Abort EffectError) (List (Nat × Nat)) := do
  let l ← peek_edge before_map left
  let r ← peek_edge after_map right
  match next_order (l.map toLex) (r.map toLex) with
  | none => .ok edges
  | some order =>
    if edges.length = MAX_EFFECT_EDGES then .error (.err .LimitExceeded)
    else
      match order, l, left, r, right with
      | .lt, some edge, _ :: left, _, right =>
        merge_edges before_map after_map left right (edges ++ [edge])
      | .gt, _, left, some edge, _ :: right =>
        merge_edges before_map after_map left right (edges ++ [edge])
      | .eq, some edge, _ :: left, _, _ :: right =>
        merge_edges before_map after_map left right (edges ++ [edge])
      | _, _, _, _, _ => .error (.err .InvalidGraph)
termination_by left.length + right.length
decreasing_by all_goals simp only [List.length_cons]; omega

def combined_graph (before after : EffectGraph) : Except (Abort EffectError) CombinedGraph := do
  let (nodes, before_map, after_map) ← merge_nodes before.nodes after.nodes [] [] []
  let edges ← merge_edges before_map after_map before.edges after.edges []
  return { nodes, edges }

/-- `index` of the union. -/
def union_index (nodes : List UnionNode) (id : ResourceId) : Option Nat :=
  (binary_search_by nodes fun node => cmp node.1 id).toOption

/-! ## The search -/

/-- The loop over the roots: each root is visited and goes on the stack. The head of the
list is the top of the stack. -/
def push_roots (nodes : List UnionNode) :
    List ResourceId → List Nat → List Bool → Except (Abort EffectError) (List Nat × List Bool)
  | [], stack, visited => .ok (stack, visited)
  | root :: rest, stack, visited =>
    match union_index nodes root with
    | none => .error (.err .MissingRoot)
    | some node => do
      let visited ← write visited node true
      push_roots nodes rest (node :: stack) visited

def flag_protected (nodes : List UnionNode) :
    List ResourceId → List Bool → Except (Abort EffectError) (List Bool)
  | [], flags => .ok flags
  | id :: rest, flags =>
    match union_index nodes id with
    | none => .error (.err .MissingProtectedResource)
    | some node => do
      let flags ← write flags node true
      flag_protected nodes rest flags

/-- The loop over the edges: one more for the source of each edge, one place on. -/
def count_sources : List (Nat × Nat) → List Nat → List Nat →
    Except (Abort EffectError) (List Nat × List Nat)
  | [], offsets, targets => .ok (offsets, targets)
  | (source, target) :: rest, offsets, targets => do
    let n ← index offsets (source + 1)
    let offsets ← write offsets (source + 1) (n + 1)
    count_sources rest offsets (targets ++ [target])

/-- `for i in 1..offsets.len() { offsets[i] += offsets[i - 1]; }`, with `todo` turns left. -/
def sum_offsets (offsets : List Nat) (i : Nat) : Nat → Except (Abort EffectError) (List Nat)
  | 0 => .ok offsets
  | todo + 1 => do
    let a ← index offsets i
    let b ← index offsets (i - 1)
    let offsets ← write offsets i (a + b)
    sum_offsets offsets (i + 1) todo

/-- The inner loop: a dependent that is new is visited and goes on the stack. -/
def push_dependents : List Nat → List Nat → List Bool →
    Except (Abort EffectError) (List Nat × List Bool)
  | [], stack, visited => .ok (stack, visited)
  | dependent :: rest, stack, visited => do
    let seen ← index visited dependent
    if !seen then
      let visited ← write visited dependent true
      push_dependents rest (dependent :: stack) visited
    else push_dependents rest stack visited

/-- A turn of the inner loop that pushes also visits, so the sum stays. -/
theorem push_dependents_measure {targets stack stack' : List Nat} {visited visited' : List Bool}
    (h : push_dependents targets stack visited = .ok (stack', visited')) :
    stack'.length + visited'.count false = stack.length + visited.count false := by
  induction targets generalizing stack visited with
  | nil =>
    simp only [push_dependents, Except.ok.injEq, Prod.mk.injEq] at h
    rw [h.1, h.2]
  | cons d rest ih =>
    simp only [push_dependents] at h
    cases hd : visited[d]? with
    | none => simp [index, hd, bind, Except.bind] at h
    | some seen =>
      obtain ⟨hlt, hget⟩ := List.getElem?_eq_some_iff.mp hd
      cases seen with
      | true =>
        simp only [index_eq hd, bind, Except.bind, Bool.not_true, Bool.false_eq_true,
          if_false] at h
        exact ih h
      | false =>
        simp only [index_eq hd, write_eq true hlt, bind, Except.bind, Bool.not_false,
          if_true] at h
        have hc : (visited.set d true).count false + 1 = visited.count false := by
          have hpos : 0 < visited.count false :=
            List.count_pos_iff.mpr (hget ▸ List.getElem_mem hlt)
          rw [List.count_set hlt]
          simp [hget]
          omega
        have := ih h
        simp only [List.length_cons] at this
        omega

/-- The tables that the search reads. -/
structure Tables where
  nodes : List UnionNode
  protected_flags : List Bool
  offsets : List Nat
  targets : List Nat

/-- What the search counted: the nodes popped, and whether one was protected or unknown. -/
structure Tally where
  affected : Nat
  hit : Bool
  incomplete : Bool
  deriving DecidableEq

/-- The search: `while let Some(node) = stack.pop()`. -/
def visit (t : Tables) (stack : List Nat) (visited : List Bool) (tally : Tally) :
    Except (Abort EffectError) Tally :=
  match stack with
  | [] => .ok tally
  | node :: stack => do
    let flag ← index t.protected_flags node
    let here ← index t.nodes node
    let lo ← index t.offsets node
    let hi ← index t.offsets (node + 1)
    let dependents ← slice t.targets lo hi
    let tally := {
      affected := tally.affected + 1
      hit := tally.hit || flag
      incomplete := tally.incomplete || here.2 = .Unknown }
    match _h : push_dependents dependents stack visited with
    | .error e => .error e
    | .ok (stack', visited') => visit t stack' visited' tally
termination_by stack.length + visited.count false
decreasing_by
  have := push_dependents_measure _h
  simp only [List.length_cons]
  omega

/-- The verdict after the search. -/
def assess (tally : Tally) : Except (Abort EffectError) EffectAssessment :=
  if tally.hit then .error (.err .ProtectedImpact)
  else if tally.incomplete then .error (.err .IncompleteEffects)
  else .ok (.NoKnownProtectedImpact tally.affected)

def analyze_effects (before after : EffectGraph) (protection : ProtectedResources)
    (scope : ChangeScope) : Except (Abort EffectError) EffectAssessment := do
  let { nodes, edges } ← combined_graph before after
  if protection.ids.ids.any fun id => (before.index id).isNone || (after.index id).isNone then
    .error (.err .MissingProtectedResource)
  else
    match scope.roots with
    | none => .error (.err .GlobalEffects)
    | some roots =>
      let (stack, visited) ← push_roots nodes roots.ids [] (List.replicate nodes.length false)
      let protected_flags ← flag_protected nodes protection.ids.ids
        (List.replicate nodes.length false)
      let (offsets, targets) ← count_sources edges (List.replicate (nodes.length + 1) 0) []
      let offsets ← sum_offsets offsets 1 (offsets.length - 1)
      let tally ← visit { nodes, protected_flags, offsets, targets } stack visited
        { affected := 0, hit := false, incomplete := false }
      assess tally

end openwrt_mcp_core.management
