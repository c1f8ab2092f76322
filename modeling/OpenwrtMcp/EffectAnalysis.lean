-- The laws of `analyze_effects`: the two merges give the sorted union of the
-- snapshots, the offsets group the edges by source, and the search visits the
-- resources that the roots reach.
import OpenwrtMcp.EffectGraph
import OpenwrtMcp.SortedUnion
import OpenwrtMcp.Worklist

open text slices sorted_union worklist

namespace openwrt_mcp_core.management

/-! ## What `EffectGraph::new` builds -/

/-- The resources of a list of nodes. -/
def resources (nodes : List Node) : Finset ResourceId := (nodes.map Node.resource).toFinset

/-- The pairs of a list of influences. -/
def influences (edges : List Influence) : Finset (ResourceId × ResourceId) :=
  (edges.map fun e => (e.source, e.target)).toFinset

/-- The place of a resource in a list of keys, as an edge holds it. -/
def place (ks : List ResourceId) (p : ResourceId × ResourceId) : Nat × Nat :=
  (ks.idxOf p.1, ks.idxOf p.2)

/-- The graph holds the nodes sorted, and the places of the edges sorted. -/
structure Built (nodes : List Node) (edges : List Influence) (g : EffectGraph) : Prop where
  nodes_perm : g.nodes.Perm nodes
  increasing : Increasing Node.resource g.nodes
  edges_increasing : Increasing toLex g.edges
  mem_edges : ∀ p, p ∈ g.edges ↔ ∃ q ∈ influences edges, p = place (g.nodes.map Node.resource) q
  endpoints : ∀ q ∈ influences edges, q.1 ∈ resources nodes ∧ q.2 ∈ resources nodes

theorem index_edges_ok {nodes : List Node} (hs : Increasing Node.resource nodes)
    {edges : List Influence} {indexed : List (Nat × Nat)}
    (h : index_edges nodes edges = .ok indexed) :
    indexed = edges.map (fun e => place (nodes.map Node.resource) (e.source, e.target)) ∧
      ∀ e ∈ edges, e.source ∈ nodes.map Node.resource ∧ e.target ∈ nodes.map Node.resource := by
  have hfound : ∀ (r : ResourceId) (i : Nat),
      (binary_search_by nodes fun node => cmp node.resource r) = .ok i →
        r ∈ nodes.map Node.resource ∧ i = (nodes.map Node.resource).idxOf r := by
    intro r i hi
    have hmem : r ∈ nodes.map Node.resource := by
      by_contra hc
      obtain ⟨j, hj⟩ := binary_search_by_none Node.resource r nodes hs hc
      rw [hj] at hi
      cases hi
    rw [binary_search_by_eq Node.resource r nodes hs hmem] at hi
    cases hi
    exact ⟨hmem, rfl⟩
  induction edges generalizing indexed with
  | nil =>
    cases h
    simp
  | cons e rest ih =>
    unfold index_edges at h
    split at h
    · cases h
    · rename_i i hi
      split at h
      · cases h
      · rename_i j hj
        split at h
        · cases h
        · rename_i rest' hrest
          cases h
          obtain ⟨hr, hall⟩ := ih hrest
          obtain ⟨hm1, rfl⟩ := hfound _ _ hi
          obtain ⟨hm2, rfl⟩ := hfound _ _ hj
          refine ⟨by simp [hr, place], ?_⟩
          simp only [List.forall_mem_cons]
          exact ⟨⟨hm1, hm2⟩, hall⟩

theorem EffectGraph.new_built {nodes : List Node} {edges : List Influence} {g : EffectGraph}
    (h : EffectGraph.new nodes edges = .ok g) : Built nodes edges g := by
  unfold EffectGraph.new at h
  split at h
  · cases h
  · simp only at h
    split at h
    · cases h
    · rename_i hnodes
      have hinc : Increasing Node.resource (sort_by_key Node.resource nodes) := by
        apply sort_by_key_lt
        intro p hp he
        exact hnodes (List.any_eq_true.mpr ⟨p, hp, by simpa using he⟩)
      split at h
      · cases h
      · rename_i indexed hi
        obtain ⟨rfl, hends⟩ := index_edges_ok hinc hi
        split at h
        · cases h
        · rename_i hedges
          cases h
          have hperm := sort_by_key_perm Node.resource nodes
          refine ⟨hperm, hinc, ?_, ?_, ?_⟩
          · apply sort_by_key_lt
            intro p hp he
            exact hedges (List.any_eq_true.mpr ⟨p, hp, by simpa using he⟩)
          · intro p
            simp only [mem_sort_by_key, List.mem_map, influences, List.mem_toFinset]
            constructor
            · rintro ⟨e, he, rfl⟩
              exact ⟨_, ⟨e, he, rfl⟩, rfl⟩
            · rintro ⟨_, ⟨e, he, rfl⟩, rfl⟩
              exact ⟨e, he, rfl⟩
          · intro q hq
            simp only [influences, List.mem_toFinset, List.mem_map] at hq
            obtain ⟨e, he, rfl⟩ := hq
            have hkeys := hperm.map Node.resource
            simp only [resources, List.mem_toFinset]
            exact ⟨hkeys.mem_iff.mp (hends e he).1, hkeys.mem_iff.mp (hends e he).2⟩

section
variable {nodes : List Node} {edges : List Influence} {g : EffectGraph}

theorem Built.mem_keys (hb : Built nodes edges g) (r : ResourceId) :
    r ∈ g.nodes.map Node.resource ↔ r ∈ resources nodes := by
  simp only [resources, List.mem_toFinset]
  exact (hb.nodes_perm.map Node.resource).mem_iff

theorem Built.index_isNone (hb : Built nodes edges g) (r : ResourceId) :
    (g.index r).isNone = true ↔ r ∉ resources nodes := by
  unfold EffectGraph.index
  rw [← hb.mem_keys]
  by_cases hr : r ∈ g.nodes.map Node.resource
  · rw [binary_search_by_eq Node.resource r g.nodes hb.increasing hr]
    simp [Except.toOption, hr]
  · obtain ⟨j, hj⟩ := binary_search_by_none Node.resource r g.nodes hb.increasing hr
    rw [hj]
    simp [Except.toOption, hr]

end

/-! ## The union of the nodes -/

def Node.toUnion (n : Node) : UnionNode := (n.resource, n.knowledge)

def joinNode (a b : UnionNode) : UnionNode := (a.1, join_knowledge a.2 b.2)

/-- The nodes of the union of two sorted lists of nodes. -/
def unionNodes (left right : List Node) : List UnionNode :=
  union Prod.fst joinNode (left.map Node.toUnion) (right.map Node.toUnion)

theorem joinNode_key (a b : UnionNode) (_ : a.1 = b.1) : (joinNode a b).1 = a.1 := rfl

theorem increasing_toUnion {nodes : List Node} (h : Increasing Node.resource nodes) :
    Increasing Prod.fst (nodes.map Node.toUnion) := by
  unfold Increasing at *
  rw [List.map_map]
  exact h

/-- The place of a resource among the nodes of the union. -/
def placeOf (us : List UnionNode) (r : ResourceId) : Nat := (us.map Prod.fst).idxOf r

/-- A key below every other key takes place 0, and every other place moves up by one. -/
theorem map_placeOf_cons (u : UnionNode) (us : List UnionNode) {nodes : List Node} (n : Nat)
    (h : ∀ m ∈ nodes, u.1 < m.resource) :
    nodes.map (fun m => n + placeOf (u :: us) m.resource) =
      nodes.map (fun m => n + 1 + placeOf us m.resource) := by
  apply List.map_congr_left
  intro m hm
  have hne : u.1 ≠ m.resource := (h m hm).ne
  unfold placeOf
  rw [List.map_cons, List.idxOf_cons_ne _ hne]
  omega

theorem placeOf_cons_self (u : UnionNode) (us : List UnionNode) : placeOf (u :: us) u.1 = 0 := by
  simp [placeOf]

/-- What the first loop returns, from what it has and the union of what is left. -/
def mergedNodes (left right : List Node) (nodes us : List UnionNode) (bm am : List Nat) :
    Except (Abort EffectError) (List UnionNode × List Nat × List Nat) :=
  if nodes.length + us.length ≤ MAX_EFFECT_NODES then
    .ok (nodes ++ us, bm ++ left.map (fun m => nodes.length + placeOf us m.resource),
      am ++ right.map (fun m => nodes.length + placeOf us m.resource))
  else .error (.err .LimitExceeded)

theorem mergedNodes_left (a : Node) {left right : List Node} (nodes : List UnionNode)
    {u : UnionNode} (us : List UnionNode) (bm am : List Nat) (hu : u.1 = a.resource)
    (ha : ∀ m ∈ left, a.resource < m.resource) (hb : ∀ m ∈ right, a.resource < m.resource) :
    mergedNodes left right (nodes ++ [u]) us (bm ++ [nodes.length]) am =
      mergedNodes (a :: left) right nodes (u :: us) bm am := by
  unfold mergedNodes
  have h0 : placeOf (u :: us) a.resource = 0 := hu ▸ placeOf_cons_self u us
  rw [List.map_cons, h0, map_placeOf_cons u us nodes.length (hu ▸ ha),
    map_placeOf_cons u us nodes.length (hu ▸ hb)]
  simp [Nat.add_assoc, Nat.add_comm 1]

theorem mergedNodes_right (b : Node) {left right : List Node} (nodes : List UnionNode)
    {u : UnionNode} (us : List UnionNode) (bm am : List Nat) (hu : u.1 = b.resource)
    (ha : ∀ m ∈ left, b.resource < m.resource) (hb : ∀ m ∈ right, b.resource < m.resource) :
    mergedNodes left right (nodes ++ [u]) us bm (am ++ [nodes.length]) =
      mergedNodes left (b :: right) nodes (u :: us) bm am := by
  unfold mergedNodes
  have h0 : placeOf (u :: us) b.resource = 0 := hu ▸ placeOf_cons_self u us
  rw [List.map_cons, h0, map_placeOf_cons u us nodes.length (hu ▸ ha),
    map_placeOf_cons u us nodes.length (hu ▸ hb)]
  simp [Nat.add_assoc, Nat.add_comm 1]

theorem mergedNodes_both (a b : Node) {left right : List Node} (nodes : List UnionNode)
    {u : UnionNode} (us : List UnionNode) (bm am : List Nat) (hu : u.1 = a.resource)
    (he : a.resource = b.resource) (ha : ∀ m ∈ left, a.resource < m.resource)
    (hb : ∀ m ∈ right, a.resource < m.resource) :
    mergedNodes left right (nodes ++ [u]) us (bm ++ [nodes.length]) (am ++ [nodes.length]) =
      mergedNodes (a :: left) (b :: right) nodes (u :: us) bm am := by
  unfold mergedNodes
  have h0 : placeOf (u :: us) a.resource = 0 := hu ▸ placeOf_cons_self u us
  rw [List.map_cons, List.map_cons, ← he, h0, map_placeOf_cons u us nodes.length (hu ▸ ha),
    map_placeOf_cons u us nodes.length (hu ▸ hb)]
  simp [Nat.add_assoc, Nat.add_comm 1]

theorem mergedNodes_full {left right : List Node} {nodes us : List UnionNode} {bm am : List Nat}
    {u : UnionNode} (h : nodes.length = MAX_EFFECT_NODES) :
    mergedNodes left right nodes (u :: us) bm am = .error (.err .LimitExceeded) := by
  unfold mergedNodes
  rw [if_neg (by simp only [List.length_cons]; omega)]

/-- The first loop gives the union of the nodes, and the place there of each node. -/
theorem merge_nodes_eq (left right : List Node) (hl : Increasing Node.resource left)
    (hr : Increasing Node.resource right) (nodes : List UnionNode) (bm am : List Nat)
    (hroom : nodes.length ≤ MAX_EFFECT_NODES) :
    merge_nodes left right nodes bm am =
      mergedNodes left right nodes (unionNodes left right) bm am := by
  -- by strong induction on what both iterators have left
  obtain ⟨n, hn⟩ : ∃ n, n = left.length + right.length := ⟨_, rfl⟩
  induction n using Nat.strongRecOn generalizing left right nodes bm am with
  | ind n ih =>
    have hone : nodes.length ≠ MAX_EFFECT_NODES → ∀ u : UnionNode,
        (nodes ++ [u]).length ≤ MAX_EFFECT_NODES := by
      intro h u
      simp only [List.length_append, List.length_singleton]
      omega
    unfold merge_nodes
    rcases left with _ | ⟨a, left⟩ <;> rcases right with _ | ⟨b, right⟩
    · simp [next_order, unionNodes, mergedNodes, hroom]
    · obtain ⟨hb, hr'⟩ := increasing_cons.mp hr
      have hu : unionNodes [] (b :: right) = b.toUnion :: unionNodes [] right := by
        simp [unionNodes]
      simp only [List.head?_nil, List.head?_cons, Option.map_none, Option.map_some, next_order, hu]
      split
      · rename_i hfull
        rw [mergedNodes_full hfull]
      · rename_i hfull
        rw [ih _ (by simp only [List.length_cons] at hn ⊢; omega) [] right hl hr' _ _ _
          (hone hfull _) rfl]
        exact mergedNodes_right b nodes _ bm am rfl (by simp) hb
    · obtain ⟨ha, hl'⟩ := increasing_cons.mp hl
      have hu : unionNodes (a :: left) [] = a.toUnion :: unionNodes left [] := by
        simp [unionNodes]
      simp only [List.head?_nil, List.head?_cons, Option.map_none, Option.map_some, next_order, hu]
      split
      · rename_i hfull
        rw [mergedNodes_full hfull]
      · rename_i hfull
        rw [ih _ (by simp only [List.length_cons] at hn ⊢; omega) left [] hl' hr _ _ _
          (hone hfull _) rfl]
        exact mergedNodes_left a nodes _ bm am rfl ha (by simp)
    · obtain ⟨ha, hl'⟩ := increasing_cons.mp hl
      obtain ⟨hb, hr'⟩ := increasing_cons.mp hr
      simp only [List.head?_cons, Option.map_some, next_order]
      have hkey : cmp a.toUnion.1 b.toUnion.1 = cmp a.resource b.resource := rfl
      rcases hc : cmp a.resource b.resource with _ | _ | _
      · have hlt : a.resource < b.resource := cmp_eq_lt_iff _ _ |>.mp hc
        have hu : unionNodes (a :: left) (b :: right) =
            a.toUnion :: unionNodes left (b :: right) := by
          unfold unionNodes
          exact union_cons_lt (hkey.trans hc)
        rw [hu]
        simp only
        split
        · rename_i hfull
          rw [mergedNodes_full hfull]
        · rename_i hfull
          rw [ih _ (by simp only [List.length_cons] at hn ⊢; omega) left (b :: right) hl' hr _ _ _
            (hone hfull _) rfl]
          refine mergedNodes_left a nodes _ bm am rfl ha ?_
          simp only [List.forall_mem_cons]
          exact ⟨hlt, fun m hm => hlt.trans (hb m hm)⟩
      · have heq : a.resource = b.resource := cmp_eq_eq_iff _ _ |>.mp hc
        have hu : unionNodes (a :: left) (b :: right) =
            joinNode a.toUnion b.toUnion :: unionNodes left right := by
          unfold unionNodes
          exact union_cons_eq (hkey.trans hc)
        rw [hu]
        simp only
        split
        · rename_i hfull
          rw [mergedNodes_full hfull]
        · rename_i hfull
          rw [ih _ (by simp only [List.length_cons] at hn ⊢; omega) left right hl' hr' _ _ _
            (hone hfull _) rfl]
          exact mergedNodes_both a b nodes _ bm am rfl heq ha (heq ▸ hb)
      · have hgt : b.resource < a.resource := cmp_eq_gt_iff _ _ |>.mp hc
        have hu : unionNodes (a :: left) (b :: right) =
            b.toUnion :: unionNodes (a :: left) right := by
          unfold unionNodes
          exact union_cons_gt (hkey.trans hc)
        rw [hu]
        simp only
        split
        · rename_i hfull
          rw [mergedNodes_full hfull]
        · rename_i hfull
          rw [ih _ (by simp only [List.length_cons] at hn ⊢; omega) (a :: left) right hl hr' _ _ _
            (hone hfull _) rfl]
          refine mergedNodes_right b nodes _ bm am rfl ?_ hb
          simp only [List.forall_mem_cons]
          exact ⟨hgt, fun m hm => hgt.trans (ha m hm)⟩

/-! ## The union of the edges -/

/-- An edge in the places of the union. -/
def translate (map : List Nat) (p : Nat × Nat) : Nat × Nat := (map.getD p.1 0, map.getD p.2 0)

def unionEdges (left right : List (Nat × Nat)) : List (Nat × Nat) :=
  union toLex (fun l _ => l) left right

theorem mem_unionEdges (left right : List (Nat × Nat)) (p : Nat × Nat) :
    p ∈ unionEdges left right ↔ p ∈ left ∨ p ∈ right := by
  have h : toLex p ∈ (unionEdges left right).map toLex ↔
      toLex p ∈ left.map toLex ∨ toLex p ∈ right.map toLex :=
    mem_keys_union (fun _ _ _ => rfl) left right (toLex p)
  simpa only [List.mem_map_of_injective toLex.injective] using h

/-- Both ends of the edge have a place in the map. -/
def Within (map : List Nat) (p : Nat × Nat) : Prop := p.1 < map.length ∧ p.2 < map.length

theorem peek_edge_cons {map : List Nat} {p : Nat × Nat} {rest : List (Nat × Nat)}
    (h : Within map p) : peek_edge map (p :: rest) = .ok (some (translate map p)) := by
  obtain ⟨a, b⟩ := p
  have hindex : ∀ i, i < map.length → index (ε := EffectError) map i = .ok (map.getD i 0) := by
    intro i hi
    apply index_eq
    simp [hi]
  simp only [peek_edge, hindex a h.1, hindex b h.2, translate, bind, Except.bind, pure, Except.pure]

def mergedEdges (edges es : List (Nat × Nat)) : Except (Abort EffectError) (List (Nat × Nat)) :=
  if edges.length + es.length ≤ MAX_EFFECT_EDGES then .ok (edges ++ es)
  else .error (.err .LimitExceeded)

theorem mergedEdges_snoc (edges : List (Nat × Nat)) (e : Nat × Nat) (es : List (Nat × Nat)) :
    mergedEdges (edges ++ [e]) es = mergedEdges edges (e :: es) := by
  unfold mergedEdges
  simp [Nat.add_assoc, Nat.add_comm 1]

theorem mergedEdges_full {edges es : List (Nat × Nat)} {e : Nat × Nat}
    (h : edges.length = MAX_EFFECT_EDGES) :
    mergedEdges edges (e :: es) = .error (.err .LimitExceeded) := by
  unfold mergedEdges
  rw [if_neg (by simp only [List.length_cons]; omega)]

/-- The second loop gives the union of the translated edges. -/
theorem merge_edges_eq (bm am : List Nat) (left right : List (Nat × Nat))
    (hl : ∀ p ∈ left, Within bm p) (hr : ∀ p ∈ right, Within am p) (edges : List (Nat × Nat))
    (hroom : edges.length ≤ MAX_EFFECT_EDGES) :
    merge_edges bm am left right edges =
      mergedEdges edges (unionEdges (left.map (translate bm)) (right.map (translate am))) := by
  obtain ⟨n, hn⟩ : ∃ n, n = left.length + right.length := ⟨_, rfl⟩
  induction n using Nat.strongRecOn generalizing left right edges with
  | ind n ih =>
    have hone : edges.length ≠ MAX_EFFECT_EDGES → ∀ e : Nat × Nat,
        (edges ++ [e]).length ≤ MAX_EFFECT_EDGES := by
      intro h u
      simp only [List.length_append, List.length_singleton]
      omega
    unfold merge_edges
    rcases left with _ | ⟨a, left⟩ <;> rcases right with _ | ⟨b, right⟩
    · simp [peek_edge, next_order, unionEdges, mergedEdges, hroom, bind, Except.bind]
    · obtain ⟨hb, hr'⟩ := List.forall_mem_cons.mp hr
      have hu : unionEdges (([] : List (Nat × Nat)).map (translate bm))
          ((b :: right).map (translate am)) =
          translate am b :: unionEdges (([] : List (Nat × Nat)).map (translate bm))
            (right.map (translate am)) := by
        simp [unionEdges]
      rw [peek_edge_cons hb, hu]
      simp only [peek_edge, next_order, bind, Except.bind, Option.map_none, Option.map_some]
      split
      · rename_i hfull
        rw [mergedEdges_full hfull]
      · rename_i hfull
        rw [ih _ (by simp only [List.length_cons] at hn ⊢; omega) [] right hl hr' _
          (hone hfull _) rfl, mergedEdges_snoc]
    · obtain ⟨ha, hl'⟩ := List.forall_mem_cons.mp hl
      have hu : unionEdges ((a :: left).map (translate bm))
          (([] : List (Nat × Nat)).map (translate am)) =
          translate bm a :: unionEdges (left.map (translate bm))
            (([] : List (Nat × Nat)).map (translate am)) := by
        simp [unionEdges]
      rw [peek_edge_cons ha, hu]
      simp only [peek_edge, next_order, bind, Except.bind, Option.map_none, Option.map_some]
      split
      · rename_i hfull
        rw [mergedEdges_full hfull]
      · rename_i hfull
        rw [ih _ (by simp only [List.length_cons] at hn ⊢; omega) left [] hl' hr _
          (hone hfull _) rfl, mergedEdges_snoc]
    · obtain ⟨ha, hl'⟩ := List.forall_mem_cons.mp hl
      obtain ⟨hb, hr'⟩ := List.forall_mem_cons.mp hr
      rw [peek_edge_cons ha, peek_edge_cons hb]
      simp only [next_order, bind, Except.bind, Option.map_some]
      rcases hc : cmp (toLex (translate bm a)) (toLex (translate am b)) with _ | _ | _
      · have hu : unionEdges ((a :: left).map (translate bm)) ((b :: right).map (translate am)) =
            translate bm a ::
              unionEdges (left.map (translate bm)) ((b :: right).map (translate am)) := by
          unfold unionEdges
          exact union_cons_lt hc
        rw [hu]
        simp only
        split
        · rename_i hfull
          rw [mergedEdges_full hfull]
        · rename_i hfull
          rw [ih _ (by simp only [List.length_cons] at hn ⊢; omega) left (b :: right) hl' hr _
            (hone hfull _) rfl, mergedEdges_snoc]
      · have hu : unionEdges ((a :: left).map (translate bm)) ((b :: right).map (translate am)) =
            translate bm a :: unionEdges (left.map (translate bm)) (right.map (translate am)) := by
          unfold unionEdges
          exact union_cons_eq hc
        rw [hu]
        simp only
        split
        · rename_i hfull
          rw [mergedEdges_full hfull]
        · rename_i hfull
          rw [ih _ (by simp only [List.length_cons] at hn ⊢; omega) left right hl' hr' _
            (hone hfull _) rfl, mergedEdges_snoc]
      · have hu : unionEdges ((a :: left).map (translate bm)) ((b :: right).map (translate am)) =
            translate am b ::
              unionEdges ((a :: left).map (translate bm)) (right.map (translate am)) := by
          unfold unionEdges
          exact union_cons_gt hc
        rw [hu]
        simp only
        split
        · rename_i hfull
          rw [mergedEdges_full hfull]
        · rename_i hfull
          rw [ih _ (by simp only [List.length_cons] at hn ⊢; omega) (a :: left) right hl hr' _
            (hone hfull _) rfl, mergedEdges_snoc]

/-! ## The combined graph -/

theorem idxOf_lt_idxOf {κ : Type} [LinearOrder κ] {ks : List κ} (hs : ks.Pairwise (· < ·))
    {a b : κ} (ha : a ∈ ks) (hb : b ∈ ks) (hab : a < b) : ks.idxOf a < ks.idxOf b := by
  have hla := List.idxOf_lt_length_of_mem ha
  have hlb := List.idxOf_lt_length_of_mem hb
  by_contra hc
  rcases Nat.lt_or_eq_of_le (Nat.le_of_not_lt hc) with h | h
  · have := List.pairwise_iff_getElem.mp hs _ _ hlb hla h
    simp only [List.getElem_idxOf] at this
    exact lt_asymm hab this
  · have h1 := idxOf_getElem? ha
    rw [← h, idxOf_getElem? hb, Option.some.injEq] at h1
    exact hab.ne h1.symm

/-- The union holds the keys `ks`, and every resource of the graph is one of them. -/
theorem translate_place {nodes : List Node} {us : List UnionNode} {q : ResourceId × ResourceId}
    (h1 : q.1 ∈ nodes.map Node.resource) (h2 : q.2 ∈ nodes.map Node.resource) :
    translate (nodes.map fun m => placeOf us m.resource) (place (nodes.map Node.resource) q) =
      place (us.map Prod.fst) q := by
  have hmap : ∀ r ∈ nodes.map Node.resource,
      (nodes.map fun m => placeOf us m.resource).getD ((nodes.map Node.resource).idxOf r) 0 =
        (us.map Prod.fst).idxOf r := by
    intro r hr
    have hg := idxOf_getElem? hr
    rw [List.getElem?_map] at hg
    rw [List.getD_eq_getElem?_getD, List.getElem?_map]
    cases hn : nodes[(nodes.map Node.resource).idxOf r]? with
    | none => simp [hn] at hg
    | some m =>
      simp only [hn, Option.map_some, Option.some.injEq] at hg
      simp [placeOf, hg]
  unfold translate place
  rw [hmap _ h1, hmap _ h2]

section
variable {nodes nodes' : List Node} {edges edges' : List Influence} {before after : EffectGraph}

/-- The keys of the union are the resources of both graphs. -/
theorem mem_keys_unionNodes (hb : Built nodes edges before) (ha : Built nodes' edges' after)
    (r : ResourceId) : r ∈ (unionNodes before.nodes after.nodes).map Prod.fst ↔
      r ∈ resources nodes ∪ resources nodes' := by
  unfold unionNodes
  rw [mem_keys_union joinNode_key, List.map_map, List.map_map, Finset.mem_union,
    ← hb.mem_keys, ← ha.mem_keys]
  rfl

theorem unionNodes_increasing (hb : Built nodes edges before) (ha : Built nodes' edges' after) :
    Increasing Prod.fst (unionNodes before.nodes after.nodes) :=
  union_increasing joinNode_key (increasing_toUnion hb.increasing)
    (increasing_toUnion ha.increasing)

/-- A resource of the union is unknown when one of the graphs holds it as unknown. -/
theorem unionNodes_unknown (hb : Built nodes edges before) (ha : Built nodes' edges' after)
    (r : ResourceId) : (∃ u ∈ unionNodes before.nodes after.nodes, u.1 = r ∧ u.2 = .Unknown) ↔
      ∃ n ∈ nodes ++ nodes', n.resource = r ∧ n.knowledge = .Unknown := by
  unfold unionNodes
  rw [exists_union_iff joinNode_key (fun u => u.2 = .Unknown)]
  · have hside : ∀ {ns ns' : List Node}, ns.Perm ns' →
        ((∃ u ∈ ns.map Node.toUnion, u.1 = r ∧ u.2 = .Unknown) ↔
          ∃ n ∈ ns', n.resource = r ∧ n.knowledge = .Unknown) := by
      intro ns ns' hp
      constructor
      · rintro ⟨u, hu, h⟩
        obtain ⟨n, hn, rfl⟩ := List.mem_map.mp hu
        exact ⟨n, hp.mem_iff.mp hn, h⟩
      · rintro ⟨n, hn, h⟩
        exact ⟨n.toUnion, List.mem_map_of_mem (hp.mem_iff.mpr hn), h⟩
    rw [hside hb.nodes_perm, hside ha.nodes_perm]
    simp only [List.mem_append, or_and_right, exists_or]
  · rintro ⟨a, x⟩ ⟨b, y⟩
    unfold joinNode join_knowledge
    by_cases h : x = .Unknown ∨ y = .Unknown <;> simp [h]

/-- The translated edges of one graph, sorted as they were. -/
theorem translated_edges {us : List UnionNode} (hus : Increasing Prod.fst us)
    (hb : Built nodes edges before) (hsub : ∀ r ∈ resources nodes, r ∈ us.map Prod.fst) :
    Increasing toLex (before.edges.map
        (translate (before.nodes.map fun m => placeOf us m.resource))) ∧
      (∀ p, p ∈ before.edges.map (translate (before.nodes.map fun m => placeOf us m.resource)) ↔
        ∃ q ∈ influences edges, p = place (us.map Prod.fst) q) ∧
      ∀ p ∈ before.edges, Within (before.nodes.map fun m => placeOf us m.resource) p := by
  have hkeys : ∀ q ∈ influences edges, q.1 ∈ before.nodes.map Node.resource ∧
      q.2 ∈ before.nodes.map Node.resource := by
    intro q hq
    rw [hb.mem_keys, hb.mem_keys]
    exact hb.endpoints q hq
  have hto : ∀ q ∈ influences edges,
      translate (before.nodes.map fun m => placeOf us m.resource)
        (place (before.nodes.map Node.resource) q) = place (us.map Prod.fst) q :=
    fun q hq => translate_place (hkeys q hq).1 (hkeys q hq).2
  -- an order of two resources is an order of their places, in either list
  have hplace : ∀ {ks : List ResourceId}, ks.Pairwise (· < ·) → ∀ {r s : ResourceId},
      r ∈ ks → s ∈ ks → (ks.idxOf r < ks.idxOf s ↔ r < s) := by
    intro ks hks r s hr hs
    refine ⟨fun h => ?_, idxOf_lt_idxOf hks hr hs⟩
    by_contra hc
    rcases lt_or_eq_of_le (not_lt.mp hc) with h1 | h1
    · exact absurd (idxOf_lt_idxOf hks hs hr h1) (by omega)
    · rw [h1] at h
      omega
  refine ⟨?_, ?_, ?_⟩
  · unfold Increasing
    rw [List.map_map, List.pairwise_map]
    have hinc := List.pairwise_map.mp hb.edges_increasing
    refine hinc.imp_of_mem ?_
    intro p p' hp hp' hlt
    obtain ⟨q, hq, rfl⟩ := (hb.mem_edges p).mp hp
    obtain ⟨q', hq', rfl⟩ := (hb.mem_edges p').mp hp'
    obtain ⟨hq1, hq2⟩ := hkeys q hq
    obtain ⟨hq1', hq2'⟩ := hkeys q' hq'
    have hu : ∀ r ∈ before.nodes.map Node.resource, r ∈ us.map Prod.fst :=
      fun r hr => hsub r ((hb.mem_keys r).mp hr)
    simp only [Function.comp_apply, hto q hq, hto q' hq']
    rw [Prod.Lex.toLex_lt_toLex] at hlt ⊢
    simp only [place] at hlt ⊢
    rw [hplace hb.increasing hq1 hq1', hplace hb.increasing hq2 hq2'] at hlt
    rw [hplace hus (hu _ hq1) (hu _ hq1'), hplace hus (hu _ hq2) (hu _ hq2')]
    rcases hlt with h | ⟨h1, h2⟩
    · exact .inl h
    · have h1' := idxOf_getElem? hq1
      rw [h1, idxOf_getElem? hq1', Option.some.injEq] at h1'
      exact .inr ⟨by rw [h1'], h2⟩
  · intro p
    rw [List.mem_map]
    constructor
    · rintro ⟨p, hp, rfl⟩
      obtain ⟨q, hq, rfl⟩ := (hb.mem_edges p).mp hp
      exact ⟨q, hq, hto q hq⟩
    · rintro ⟨q, hq, rfl⟩
      exact ⟨_, (hb.mem_edges _).mpr ⟨q, hq, rfl⟩, hto q hq⟩
  · intro p hp
    obtain ⟨q, hq, rfl⟩ := (hb.mem_edges p).mp hp
    have hlen : (before.nodes.map fun m => placeOf us m.resource).length =
        (before.nodes.map Node.resource).length := by simp
    unfold Within place
    rw [hlen]
    exact ⟨List.idxOf_lt_length_of_mem (hkeys q hq).1, List.idxOf_lt_length_of_mem (hkeys q hq).2⟩

/-- The combined graph: the sorted resources of both graphs and the sorted places of the
edges of both graphs. -/
structure Combined (nodes nodes' : List Node) (edges edges' : List Influence) (c : CombinedGraph) :
    Prop where
  increasing : Increasing Prod.fst c.nodes
  mem_keys : ∀ r, r ∈ c.nodes.map Prod.fst ↔ r ∈ resources nodes ∪ resources nodes'
  unknown : ∀ r, (∃ u ∈ c.nodes, u.1 = r ∧ u.2 = .Unknown) ↔
    ∃ n ∈ nodes ++ nodes', n.resource = r ∧ n.knowledge = .Unknown
  edges_increasing : Increasing toLex c.edges
  mem_edges : ∀ p, p ∈ c.edges ↔
    ∃ q ∈ influences edges ∪ influences edges', p = place (c.nodes.map Prod.fst) q
  endpoints : ∀ q ∈ influences edges ∪ influences edges',
    q.1 ∈ c.nodes.map Prod.fst ∧ q.2 ∈ c.nodes.map Prod.fst

theorem Combined.length_nodes {c : CombinedGraph} (h : Combined nodes nodes' edges edges' c) :
    c.nodes.length = (resources nodes ∪ resources nodes').card := by
  rw [← List.length_map (f := Prod.fst), ← List.toFinset_card_of_nodup h.increasing.nodup]
  congr 1
  ext r
  rw [List.mem_toFinset, h.mem_keys]

theorem Combined.length_edges {c : CombinedGraph} (h : Combined nodes nodes' edges edges' c) :
    c.edges.length = (influences edges ∪ influences edges').card := by
  have hn : c.edges.Nodup := List.Nodup.of_map _ h.edges_increasing.nodup
  have himage : c.edges.toFinset =
      (influences edges ∪ influences edges').image (place (c.nodes.map Prod.fst)) := by
    ext p
    rw [List.mem_toFinset, h.mem_edges, Finset.mem_image]
    simp only [eq_comm]
  rw [← List.toFinset_card_of_nodup hn, himage]
  apply Finset.card_image_of_injOn
  intro q hq q' hq' heq
  simp only [place, Prod.mk.injEq] at heq
  have hback : ∀ {r s : ResourceId}, r ∈ c.nodes.map Prod.fst → s ∈ c.nodes.map Prod.fst →
      (c.nodes.map Prod.fst).idxOf r = (c.nodes.map Prod.fst).idxOf s → r = s := by
    intro r s hr hs he
    have h1 := idxOf_getElem? hr
    rw [he, idxOf_getElem? hs, Option.some.injEq] at h1
    exact h1.symm
  exact Prod.ext (hback (h.endpoints q hq).1 (h.endpoints q' hq').1 heq.1)
    (hback (h.endpoints q hq).2 (h.endpoints q' hq').2 heq.2)

/-- The union of the nodes and the union of the translated edges. -/
def unionGraph (before after : EffectGraph) : CombinedGraph :=
  let us := unionNodes before.nodes after.nodes
  { nodes := us
    edges :=
      unionEdges (before.edges.map (translate (before.nodes.map fun m => placeOf us m.resource)))
      (after.edges.map (translate (after.nodes.map fun m => placeOf us m.resource))) }

theorem unionGraph_combined (hb : Built nodes edges before) (ha : Built nodes' edges' after) :
    Combined nodes nodes' edges edges' (unionGraph before after) := by
  have hus := unionNodes_increasing hb ha
  have hkeys := mem_keys_unionNodes hb ha
  obtain ⟨hinc, hmem, -⟩ := translated_edges hus hb
    (fun r hr => (hkeys r).mpr (Finset.mem_union_left _ hr))
  obtain ⟨hinc', hmem', -⟩ := translated_edges hus ha
    (fun r hr => (hkeys r).mpr (Finset.mem_union_right _ hr))
  refine ⟨hus, hkeys, unionNodes_unknown hb ha, ?_, ?_, ?_⟩
  · exact union_increasing (fun _ _ _ => rfl) hinc hinc'
  · intro p
    unfold unionGraph
    rw [mem_unionEdges, hmem, hmem']
    simp only [Finset.mem_union, or_and_right, exists_or]
  · intro q hq
    simp only [unionGraph, hkeys, Finset.mem_union] at hq ⊢
    rcases hq with hq | hq
    · exact ⟨.inl (hb.endpoints q hq).1, .inl (hb.endpoints q hq).2⟩
    · exact ⟨.inr (ha.endpoints q hq).1, .inr (ha.endpoints q hq).2⟩

/-- `combined_graph` fails exactly when the union has too many nodes or edges. -/
theorem combined_graph_eq (hb : Built nodes edges before) (ha : Built nodes' edges' after) :
    combined_graph before after =
      if MAX_EFFECT_NODES < (resources nodes ∪ resources nodes').card ∨
          MAX_EFFECT_EDGES < (influences edges ∪ influences edges').card then
        .error (.err .LimitExceeded)
      else .ok (unionGraph before after) := by
  have hc := unionGraph_combined hb ha
  have hus := unionNodes_increasing hb ha
  have hkeys := mem_keys_unionNodes hb ha
  obtain ⟨-, -, hw⟩ := translated_edges hus hb
    (fun r hr => (hkeys r).mpr (Finset.mem_union_left _ hr))
  obtain ⟨-, -, hw'⟩ := translated_edges hus ha
    (fun r hr => (hkeys r).mpr (Finset.mem_union_right _ hr))
  rw [← hc.length_nodes, ← hc.length_edges]
  unfold combined_graph
  rw [merge_nodes_eq _ _ hb.increasing ha.increasing [] [] [] (by simp)]
  unfold mergedNodes
  by_cases hn : MAX_EFFECT_NODES < (unionGraph before after).nodes.length
  · rw [if_neg (by simpa [unionGraph] using hn), if_pos (.inl hn)]
    rfl
  · rw [if_pos (by simpa [unionGraph] using hn)]
    simp only [bind, Except.bind, List.nil_append, List.length_nil, Nat.zero_add]
    rw [merge_edges_eq _ _ _ _ hw hw' [] (by simp)]
    unfold mergedEdges
    by_cases he : MAX_EFFECT_EDGES < (unionGraph before after).edges.length
    · rw [if_neg (by simpa [unionGraph] using he), if_pos (.inr he)]
    · rw [if_pos (by simpa [unionGraph] using he), if_neg (by tauto)]
      rfl

end

end openwrt_mcp_core.management
