-- The search of `analyze_effects`: the tables it reads, the nodes it visits,
-- and the verdict, as a statement about the resources of both graphs.
import OpenwrtMcp.EffectAnalysis

open text slices sorted_union worklist

namespace openwrt_mcp_core.management

/-! ## Flags of places -/

/-- The flag of place `i` is set for exactly the places of `P`. -/
structure Marks (flags : List Bool) (n : Nat) (P : Nat → Prop) : Prop where
  len : flags.length = n
  iff : ∀ i < n, flags[i]? = some true ↔ P i

theorem marks_replicate (n : Nat) : Marks (List.replicate n false) n (fun _ => False) where
  len := by simp
  iff := by
    intro i hi
    simp [hi]

theorem Marks.set {flags : List Bool} {n i : Nat} {P : Nat → Prop} (h : Marks flags n P)
    (hi : i < n) : Marks (flags.set i true) n (fun j => j = i ∨ P j) where
  len := by simp [h.len]
  iff := by
    intro j hj
    by_cases hij : j = i
    · subst hij
      simp [h.len, hi]
    · rw [List.getElem?_set_ne (Ne.symm hij), h.iff j hj]
      simp [hij]

theorem Marks.congr {flags : List Bool} {n : Nat} {P Q : Nat → Prop} (h : Marks flags n P)
    (hpq : ∀ i < n, P i ↔ Q i) : Marks flags n Q :=
  ⟨h.len, fun i hi => (h.iff i hi).trans (hpq i hi)⟩

/-- A flag in bounds reads as a Boolean that tells whether its place is marked. -/
theorem Marks.get {flags : List Bool} {n i : Nat} {P : Nat → Prop} (h : Marks flags n P)
    (hi : i < n) : ∃ b, flags[i]? = some b ∧ (b = true ↔ P i) := by
  have hlt : i < flags.length := h.len ▸ hi
  have hp := h.iff i hi
  rw [List.getElem?_eq_getElem hlt, Option.some.injEq] at hp
  exact ⟨flags[i], List.getElem?_eq_getElem hlt, hp⟩

/-! ## Roots and protected resources -/

theorem union_index_eq {us : List UnionNode} (hs : Increasing Prod.fst us) (r : ResourceId) :
    union_index us r = if r ∈ us.map Prod.fst then some (placeOf us r) else none := by
  unfold union_index placeOf
  by_cases hr : r ∈ us.map Prod.fst
  · rw [binary_search_by_eq Prod.fst r us hs hr, if_pos hr]
    rfl
  · obtain ⟨j, hj⟩ := binary_search_by_none Prod.fst r us hs hr
    rw [hj, if_neg hr]
    rfl

theorem placeOf_lt {us : List UnionNode} {r : ResourceId} (h : r ∈ us.map Prod.fst) :
    placeOf us r < us.length := by
  unfold placeOf
  simpa using List.idxOf_lt_length_of_mem h

theorem placeOf_inj {us : List UnionNode} {r s : ResourceId} (hr : r ∈ us.map Prod.fst)
    (hs : s ∈ us.map Prod.fst) (h : placeOf us r = placeOf us s) : r = s := by
  have h1 := idxOf_getElem? hr
  unfold placeOf at h
  rw [h, idxOf_getElem? hs, Option.some.injEq] at h1
  exact h1.symm

/-- Every root has a place: each is on the stack, and is visited. -/
theorem push_roots_ok {us : List UnionNode} (hs : Increasing Prod.fst us) (roots : List ResourceId)
    (hroots : ∀ r ∈ roots, r ∈ us.map Prod.fst) (stack : List Nat) (visited : List Bool)
    {P : Nat → Prop} (hv : Marks visited us.length P) :
    ∃ visited', push_roots us roots stack visited =
        .ok ((roots.map (placeOf us)).reverse ++ stack, visited') ∧
      Marks visited' us.length (fun i => i ∈ roots.map (placeOf us) ∨ P i) := by
  induction roots generalizing stack visited P with
  | nil => exact ⟨visited, by simp [push_roots], hv.congr (by simp)⟩
  | cons r roots ih =>
    obtain ⟨hr, hrest⟩ := List.forall_mem_cons.mp hroots
    have hlt := placeOf_lt hr
    unfold push_roots
    rw [union_index_eq hs, if_pos hr]
    simp only [write_eq true (hv.len ▸ hlt), bind, Except.bind]
    obtain ⟨visited', he, hm⟩ := ih hrest (placeOf us r :: stack) _ (hv.set hlt)
    refine ⟨visited', by simpa using he, hm.congr ?_⟩
    intro i _
    simp only [List.map_cons, List.mem_cons]
    tauto

/-- A root that neither graph has: `MissingRoot`. -/
theorem push_roots_missing {us : List UnionNode} (hs : Increasing Prod.fst us)
    (roots : List ResourceId) (hroots : ∃ r ∈ roots, r ∉ us.map Prod.fst) (stack : List Nat)
    (visited : List Bool) (hv : visited.length = us.length) :
    push_roots us roots stack visited = .error (.err .MissingRoot) := by
  induction roots generalizing stack visited with
  | nil => simp at hroots
  | cons r roots ih =>
    unfold push_roots
    rw [union_index_eq hs]
    by_cases hr : r ∈ us.map Prod.fst
    · rw [if_pos hr]
      simp only [write_eq true (hv ▸ placeOf_lt hr), bind, Except.bind]
      apply ih
      · obtain ⟨s, hs, hns⟩ := hroots
        rcases List.mem_cons.mp hs with rfl | hs
        · exact absurd hr hns
        · exact ⟨s, hs, hns⟩
      · simpa using hv
    · rw [if_neg hr]

theorem flag_protected_ok {us : List UnionNode} (hs : Increasing Prod.fst us)
    (ids : List ResourceId) (hids : ∀ r ∈ ids, r ∈ us.map Prod.fst) (flags : List Bool)
    {P : Nat → Prop} (hv : Marks flags us.length P) :
    ∃ flags', flag_protected us ids flags = .ok flags' ∧
      Marks flags' us.length (fun i => i ∈ ids.map (placeOf us) ∨ P i) := by
  induction ids generalizing flags P with
  | nil => exact ⟨flags, rfl, hv.congr (by simp)⟩
  | cons r ids ih =>
    obtain ⟨hr, hrest⟩ := List.forall_mem_cons.mp hids
    have hlt := placeOf_lt hr
    unfold flag_protected
    rw [union_index_eq hs, if_pos hr]
    simp only [write_eq true (hv.len ▸ hlt), bind, Except.bind]
    obtain ⟨flags', he, hm⟩ := ih hrest _ (hv.set hlt)
    refine ⟨flags', he, hm.congr ?_⟩
    intro i _
    simp only [List.map_cons, List.mem_cons]
    tauto

/-! ## The offsets -/

/-- The number of edges with source `i - 1`: what the first loop puts at place `i`. -/
def sourcesAt (es : List (Nat × Nat)) (i : Nat) : Nat := es.countP (fun e => e.1 + 1 = i)

/-- The number of edges with a source below `i`. -/
def sourcesBelow (es : List (Nat × Nat)) (i : Nat) : Nat := es.countP (fun e => e.1 < i)

theorem sourcesBelow_succ (es : List (Nat × Nat)) (i : Nat) :
    sourcesBelow es (i + 1) = sourcesBelow es i + sourcesAt es (i + 1) := by
  unfold sourcesBelow sourcesAt
  induction es with
  | nil => rfl
  | cons e es ih =>
    simp only [List.countP_cons, ih, decide_eq_true_eq]
    split_ifs <;> omega

theorem count_sources_ok (es : List (Nat × Nat)) (offsets targets : List Nat)
    (h : ∀ e ∈ es, e.1 + 1 < offsets.length) :
    ∃ offsets', count_sources es offsets targets = .ok (offsets', targets ++ es.map Prod.snd) ∧
      offsets'.length = offsets.length ∧
      ∀ i < offsets.length, ∀ n, offsets[i]? = some n →
        offsets'[i]? = some (n + sourcesAt es i) := by
  induction es generalizing offsets targets with
  | nil => exact ⟨offsets, by simp [count_sources], rfl, by simp [sourcesAt]⟩
  | cons e es ih =>
    obtain ⟨source, target⟩ := e
    obtain ⟨he, hrest⟩ := List.forall_mem_cons.mp h
    unfold count_sources
    rw [index_eq (List.getElem?_eq_getElem he)]
    simp only [bind, Except.bind, write_eq _ he]
    obtain ⟨offsets', heq, hlen, hget⟩ :=
      ih (offsets.set (source + 1) (offsets[source + 1] + 1)) (targets ++ [target])
        (by simpa using hrest)
    refine ⟨offsets', by simpa using heq, by simpa using hlen, ?_⟩
    intro i hi n hn
    have hcons : sourcesAt ((source, target) :: es) i =
        sourcesAt es i + if source + 1 = i then 1 else 0 := by
      unfold sourcesAt
      simp [List.countP_cons]
    by_cases his : source + 1 = i
    · subst his
      rw [List.getElem?_eq_getElem hi, Option.some.injEq] at hn
      rw [hget _ (by simpa using hi) (n + 1) (by simp [hi, hn]), hcons, if_pos rfl]
      congr 1
      omega
    · rw [hget i (by simpa using hi) n (by rw [List.getElem?_set_ne his]; exact hn), hcons,
        if_neg his]
      rfl

/-- Before turn `i` the places below `i` hold their sums. -/
theorem sum_offsets_ok (es : List (Nat × Nat)) (todo i : Nat) (offsets : List Nat) (hi : 1 ≤ i)
    (hlen : offsets.length = i + todo) (hdone : ∀ j < i, offsets[j]? = some (sourcesBelow es j))
    (hrest : ∀ j, i ≤ j → j < offsets.length → offsets[j]? = some (sourcesAt es j)) :
    ∃ offsets', sum_offsets offsets i todo = .ok offsets' ∧ offsets'.length = offsets.length ∧
      ∀ j < offsets.length, offsets'[j]? = some (sourcesBelow es j) := by
  induction todo generalizing i offsets with
  | zero => exact ⟨offsets, rfl, rfl, fun j hj => hdone j (by omega)⟩
  | succ todo ih =>
    unfold sum_offsets
    rw [index_eq (hrest i (Nat.le_refl i) (by omega)), index_eq (hdone (i - 1) (by omega))]
    simp only [bind, Except.bind]
    rw [write_eq _ (by omega)]
    have hsum : sourcesAt es i + sourcesBelow es (i - 1) = sourcesBelow es i := by
      obtain ⟨k, rfl⟩ : ∃ k, i = k + 1 := ⟨i - 1, by omega⟩
      rw [sourcesBelow_succ]
      simp only [Nat.add_sub_cancel]
      omega
    rw [hsum]
    obtain ⟨offsets', heq, hl, hget⟩ := ih (i + 1) (offsets.set i (sourcesBelow es i)) (by omega)
      (by simp only [List.length_set]; omega)
      (by
        intro j hj
        by_cases hji : j = i
        · subst hji
          rw [List.getElem?_set_self (by omega)]
        · rw [List.getElem?_set_ne (Ne.symm hji)]
          exact hdone j (by omega))
      (by
        intro j hj hjl
        rw [List.length_set] at hjl
        rw [List.getElem?_set_ne (by omega)]
        exact hrest j (by omega) hjl)
    exact ⟨offsets', heq, by simpa using hl, fun j hj => hget j (by simpa using hj)⟩

/-- Edges sorted by source stand in three groups around a source. -/
theorem groups_of_sorted (es : List (Nat × Nat)) (hs : es.Pairwise (fun a b => a.1 ≤ b.1))
    (n : Nat) :
    es = es.filter (fun e => e.1 < n) ++ (es.filter (fun e => e.1 = n) ++
      es.filter (fun e => n < e.1)) := by
  induction es with
  | nil => rfl
  | cons e es ih =>
    obtain ⟨he, hes⟩ := List.pairwise_cons.mp hs
    have hnil : ∀ p : Nat × Nat → Bool, (∀ x ∈ es, p x = false) → es.filter p = [] := by
      intro p hp
      rw [List.filter_eq_nil_iff]
      intro x hx
      simp [hp x hx]
    rcases Nat.lt_trichotomy e.1 n with h | h | h
    · have h1 : ¬ e.1 = n := by omega
      have h2 : ¬ n < e.1 := by omega
      simp only [List.filter_cons, h, h1, h2, decide_true, decide_false, if_true,
        Bool.false_eq_true, if_false, List.cons_append]
      rw [← ih hes]
    · have h3 := hnil (fun e => e.1 < n) fun x hx => by
        have := he x hx
        simp only [decide_eq_false_iff_not]
        omega
      have hih := ih hes
      rw [h3, List.nil_append] at hih
      simp only [List.filter_cons, h, decide_true, decide_false, if_true,
        Bool.false_eq_true, if_false, h3, List.nil_append, List.cons_append, lt_irrefl]
      rw [← hih]
    · have h1 : ¬ e.1 < n := by omega
      have h2 : ¬ e.1 = n := by omega
      have h3 := hnil (fun e => e.1 < n) fun x hx => by
        have := he x hx
        simp only [decide_eq_false_iff_not]
        omega
      have h4 := hnil (fun e => e.1 = n) fun x hx => by
        have := he x hx
        simp only [decide_eq_false_iff_not]
        omega
      have hih := ih hes
      rw [h3, h4, List.nil_append, List.nil_append] at hih
      simp only [List.filter_cons, h, h1, h2, decide_true, decide_false, if_true,
        Bool.false_eq_true, if_false, h3, h4, List.nil_append]
      rw [← hih]

/-- The targets between two offsets are the targets of the edges of one source. -/
theorem slice_targets (es : List (Nat × Nat)) (hs : es.Pairwise (fun a b => a.1 ≤ b.1)) (n : Nat) :
    slice (ε := EffectError) (es.map Prod.snd) (sourcesBelow es n) (sourcesBelow es (n + 1)) =
      .ok ((es.filter fun e => e.1 = n).map Prod.snd) := by
  have hbelow : sourcesBelow es n = (es.filter fun e => e.1 < n).length :=
    List.countP_eq_length_filter ..
  have hat : sourcesAt es (n + 1) = (es.filter fun e => e.1 = n).length := by
    unfold sourcesAt
    rw [List.countP_eq_length_filter]
    simp
  have hsum := sourcesBelow_succ es n
  have hgroups := groups_of_sorted es hs n
  have hlen : es.length = sourcesBelow es n + (sourcesAt es (n + 1) +
      (es.filter fun e => n < e.1).length) := by
    have := congrArg List.length hgroups
    simpa only [List.length_append, ← hbelow, ← hat] using this
  rw [slice_eq (by omega) (by rw [List.length_map]; omega), hsum, Nat.add_sub_cancel_left]
  congr 1
  rw [← List.map_drop, ← List.map_take]
  congr 1
  generalize hA : es.filter (fun e => e.1 < n) = A at *
  generalize hB : es.filter (fun e => e.1 = n) = B at *
  rw [hbelow, hat, hgroups, List.drop_left, List.take_left]

/-! ## The search -/

/-- The tables of a combined graph: `marked` are the places of the protected resources. -/
structure TablesOf (c : CombinedGraph) (marked : Nat → Prop) (t : Tables) : Prop where
  nodes : t.nodes = c.nodes
  flags : Marks t.protected_flags c.nodes.length marked
  offsets : ∀ i ≤ c.nodes.length, t.offsets[i]? = some (sourcesBelow c.edges i)
  targets : t.targets = c.edges.map Prod.snd

/-- Both ends of every edge are places of nodes, and the edges are sorted by source. -/
structure EdgesFit (c : CombinedGraph) : Prop where
  within : ∀ e ∈ c.edges, e.1 < c.nodes.length ∧ e.2 < c.nodes.length
  sorted : c.edges.Pairwise (fun a b => a.1 ≤ b.1)

/-- The place holds a node of unknown effects. -/
def UnknownAt (c : CombinedGraph) (i : Nat) : Prop := c.nodes[i]?.map Prod.snd = some .Unknown

/-- The tally counts the done places. -/
structure Tallied (c : CombinedGraph) (marked : Nat → Prop) (done : List Nat) (tally : Tally) :
    Prop where
  affected : tally.affected = done.length
  hit : tally.hit = true ↔ ∃ i ∈ done, marked i
  incomplete : tally.incomplete = true ↔ ∃ i ∈ done, UnknownAt c i

section
variable {c : CombinedGraph} {marked : Nat → Prop} {t : Tables} {start : Nat → Prop}

/-- An edge leads from one place to the other. -/
abbrev Leads (c : CombinedGraph) (i j : Nat) : Prop := (i, j) ∈ c.edges

/-- The inner loop keeps the search explored, and visits what it pushes. -/
theorem push_dependents_ok (waiting stack done : List Nat) (visited : List Bool)
    (he : Explored (Leads c) start stack waiting done)
    (hv : Marks visited c.nodes.length (fun i => i ∈ stack ∨ i ∈ done))
    (hw : ∀ i ∈ waiting, i < c.nodes.length) (hst : ∀ i ∈ stack, i < c.nodes.length) :
    ∃ stack' visited', push_dependents waiting stack visited = .ok (stack', visited') ∧
      Explored (Leads c) start stack' [] done ∧
      Marks visited' c.nodes.length (fun i => i ∈ stack' ∨ i ∈ done) ∧
      ∀ i ∈ stack', i < c.nodes.length := by
  induction waiting generalizing stack visited with
  | nil => exact ⟨stack, visited, rfl, he, hv, hst⟩
  | cons d waiting ih =>
    obtain ⟨hd, hrest⟩ := List.forall_mem_cons.mp hw
    obtain ⟨seen, hget, hseen⟩ := hv.get hd
    unfold push_dependents
    rw [index_eq hget]
    simp only [bind, Except.bind]
    cases seen with
    | true =>
      simp only [Bool.not_true, Bool.false_eq_true, if_false]
      exact ih stack visited (he.skip (hseen.mp rfl)) hv hrest hst
    | false =>
      have hnew : ¬ (d ∈ stack ∨ d ∈ done) := fun hc => by simpa using hseen.mpr hc
      simp only [Bool.not_false, if_true, write_eq true (hv.len ▸ hd)]
      apply ih (d :: stack) (visited.set d true)
      · exact he.push (fun h => hnew (.inl h)) (fun h => hnew (.inr h))
      · refine (hv.set hd).congr ?_
        intro i _
        simp only [List.mem_cons]
        tauto
      · exact hrest
      · simpa using ⟨hd, hst⟩

/-- The loop ends, and its tally counts the places that the start places reach. -/
theorem visit_ok (hc : EdgesFit c) (ht : TablesOf c marked t) (stack done : List Nat)
    (visited : List Bool) (tally : Tally) (he : Explored (Leads c) start stack [] done)
    (hv : Marks visited c.nodes.length (fun i => i ∈ stack ∨ i ∈ done))
    (hst : ∀ i ∈ stack, i < c.nodes.length) (hta : Tallied c marked done tally) :
    ∃ done' tally', visit t stack visited tally = .ok tally' ∧
      Explored (Leads c) start [] [] done' ∧ Tallied c marked done' tally' := by
  obtain ⟨n, hn⟩ : ∃ n, n = stack.length + visited.count false := ⟨_, rfl⟩
  induction n using Nat.strongRecOn generalizing stack done visited tally with
  | ind n ih =>
    unfold visit
    rcases stack with _ | ⟨node, stack⟩
    · exact ⟨done, tally, rfl, he, hta⟩
    · obtain ⟨hnode, hst'⟩ := List.forall_mem_cons.mp hst
      obtain ⟨flag, hflag, hmarked⟩ := ht.flags.get hnode
      have hhere := List.getElem?_eq_getElem hnode
      simp only [index_eq hflag, ht.nodes, index_eq hhere, index_eq (ht.offsets node (by omega)),
        index_eq (ht.offsets (node + 1) (by omega)), ht.targets,
        slice_targets c.edges hc.sorted node,
        bind, Except.bind]
      have hwait : ∀ y, y ∈ (c.edges.filter fun e => e.1 = node).map Prod.snd ↔ Leads c node y := by
        intro y
        simp only [List.mem_map, List.mem_filter, decide_eq_true_eq]
        constructor
        · rintro ⟨⟨a, b⟩, ⟨hab, rfl⟩, rfl⟩
          exact hab
        · intro h
          exact ⟨(node, y), ⟨h, rfl⟩, rfl⟩
      have hpop := he.pop hwait
      obtain ⟨stack', visited', hpush, he', hv', hst''⟩ :=
        push_dependents_ok _ stack (node :: done) visited hpop
          (hv.congr (by intro i _; simp only [List.mem_cons]; tauto))
          (fun i hi => (hc.within _ ((hwait i).mp hi)).2) hst'
      have hmeasure := push_dependents_measure hpush
      split
      · rename_i hbad
        rw [hpush] at hbad
        cases hbad
      · rename_i s' v' hgood
        rw [hpush] at hgood
        cases hgood
        refine ih _ (by simp only [List.length_cons] at hn ⊢; omega) stack' (node :: done) visited'
          _ he' hv' hst'' ?_ rfl
        refine ⟨by simp [hta.affected], ?_, ?_⟩
        · simp only [Bool.or_eq_true, hta.hit, hmarked, List.exists_mem_cons_iff]
          exact or_comm
        · simp only [Bool.or_eq_true, hta.incomplete, List.exists_mem_cons_iff, UnknownAt, hhere,
            Option.map_some, Option.some.injEq, decide_eq_true_eq]
          exact or_comm

end

/-! ## The verdict -/

/-- The resources that the roots of a change reach in the union of both graphs. A path may
use an edge of either graph at each step. -/
def Affected (edges edges' : List Influence) (roots : List ResourceId) : Set ResourceId :=
  {r | Reachable (fun a b => (a, b) ∈ influences edges ∪ influences edges') (· ∈ roots) r}

/-- The resource is unknown in one of the graphs. -/
def HasUnknown (nodes nodes' : List Node) (r : ResourceId) : Prop :=
  ∃ n ∈ nodes ++ nodes', n.resource = r ∧ n.knowledge = .Unknown

open Classical in
/-- What `analyze_effects` says, from the lists that the two graphs were built of. -/
noncomputable def expectedAssessment (nodes nodes' : List Node) (edges edges' : List Influence)
    (protection : ProtectedResources) (scope : ChangeScope) :
    Except EffectError EffectAssessment :=
  if 4096 < (resources nodes ∪ resources nodes').card ∨
      8192 < (influences edges ∪ influences edges').card then
    .error .LimitExceeded
  else if ∃ r ∈ protection.ids.ids, r ∉ resources nodes ∨ r ∉ resources nodes' then
    .error .MissingProtectedResource
  else
    match scope.roots with
    | none => .error .GlobalEffects
    | some roots =>
      if ∃ r ∈ roots.ids, r ∉ resources nodes ∪ resources nodes' then .error .MissingRoot
      else if ∃ r ∈ Affected edges edges' roots.ids, r ∈ protection.ids.ids then
        .error .ProtectedImpact
      else if ∃ r ∈ Affected edges edges' roots.ids, HasUnknown nodes nodes' r then
        .error .IncompleteEffects
      else .ok (.NoKnownProtectedImpact (Affected edges edges' roots.ids).ncard)

section
variable {nodes nodes' : List Node} {edges edges' : List Influence} {c : CombinedGraph}

theorem Combined.edgesFit (h : Combined nodes nodes' edges edges' c) : EdgesFit c where
  within := by
    intro e he
    obtain ⟨q, hq, rfl⟩ := (h.mem_edges e).mp he
    exact ⟨placeOf_lt (h.endpoints q hq).1, placeOf_lt (h.endpoints q hq).2⟩
  sorted := by
    have hinc := List.pairwise_map.mp h.edges_increasing
    refine hinc.imp ?_
    intro a b hab
    rcases Prod.Lex.toLex_lt_toLex.mp hab with h1 | h1
    · exact h1.le
    · exact h1.1.le

/-- The search in places is the search in resources. -/
theorem Combined.reachable_iff (h : Combined nodes nodes' edges edges' c) {roots : List ResourceId}
    (hroots : ∀ r ∈ roots, r ∈ c.nodes.map Prod.fst) (i : Nat) :
    Reachable (Leads c) (· ∈ roots.map (placeOf c.nodes)) i ↔
      ∃ r ∈ Affected edges edges' roots, r ∈ c.nodes.map Prod.fst ∧ i = placeOf c.nodes r := by
  constructor
  · rintro ⟨j, hj, hp⟩
    obtain ⟨r, hr, rfl⟩ := List.mem_map.mp hj
    induction hp with
    | refl => exact ⟨r, ⟨r, hr, .refl⟩, hroots r hr, rfl⟩
    | tail _ hstep ih =>
      obtain ⟨s, hs, hkey, rfl⟩ := ih
      obtain ⟨q, hq, he⟩ := (h.mem_edges _).mp hstep
      simp only [place, Prod.mk.injEq] at he
      obtain rfl : s = q.1 := placeOf_inj hkey (h.endpoints q hq).1 he.1
      exact ⟨q.2, Reachable.step hs hq, (h.endpoints q hq).2, he.2⟩
  · rintro ⟨r, ⟨s, hs, hp⟩, -, rfl⟩
    induction hp with
    | refl => exact ⟨_, List.mem_map_of_mem hs, .refl⟩
    | tail _ hstep ih => exact ih.step ((h.mem_edges _).mpr ⟨_, hstep, rfl⟩)

theorem Combined.affected_mem (h : Combined nodes nodes' edges edges' c) {roots : List ResourceId}
    (hroots : ∀ r ∈ roots, r ∈ c.nodes.map Prod.fst) {r : ResourceId}
    (hr : r ∈ Affected edges edges' roots) : r ∈ c.nodes.map Prod.fst := by
  obtain ⟨s, hs, hp⟩ := hr
  rcases Relation.ReflTransGen.cases_tail hp with rfl | ⟨_, _, hstep⟩
  · exact hroots r hs
  · exact (h.endpoints _ hstep).2

/-- The done places are the places of the affected resources, so they are as many. -/
theorem Combined.ncard_affected (h : Combined nodes nodes' edges edges' c)
    {roots : List ResourceId} (hroots : ∀ r ∈ roots, r ∈ c.nodes.map Prod.fst) {done : List Nat}
    (he : Explored (Leads c) (· ∈ roots.map (placeOf c.nodes)) [] [] done) :
    (Affected edges edges' roots).ncard = done.length := by
  have himage : placeOf c.nodes '' Affected edges edges' roots = (done.toFinset : Set Nat) := by
    ext i
    simp only [Set.mem_image, List.coe_toFinset, Set.mem_ofPred_eq]
    rw [he.mem_done_iff, h.reachable_iff hroots]
    constructor
    · rintro ⟨r, hr, rfl⟩
      exact ⟨r, hr, h.affected_mem hroots hr, rfl⟩
    · rintro ⟨r, hr, -, rfl⟩
      exact ⟨r, hr, rfl⟩
  have hinj : Set.InjOn (placeOf c.nodes) (Affected edges edges' roots) :=
    fun r hr s hs heq => placeOf_inj (h.affected_mem hroots hr) (h.affected_mem hroots hs) heq
  have hnodup : done.Nodup := by simpa using he.nodup
  rw [← hinj.ncard_image, himage, Set.ncard_coe_finset,
    List.toFinset_card_of_nodup hnodup]

theorem unknownAt_placeOf (h : Combined nodes nodes' edges edges' c) {r : ResourceId}
    (hr : r ∈ c.nodes.map Prod.fst) :
    UnknownAt c (placeOf c.nodes r) ↔ HasUnknown nodes nodes' r := by
  unfold UnknownAt HasUnknown
  rw [← h.unknown]
  have hget := idxOf_getElem? hr
  rw [List.getElem?_map] at hget
  unfold placeOf
  constructor
  · intro hu
    cases hn : c.nodes[(c.nodes.map Prod.fst).idxOf r]? with
    | none => simp [hn] at hu
    | some u =>
      simp only [hn, Option.map_some, Option.some.injEq] at hu hget
      exact ⟨u, List.mem_of_getElem? hn, hget, hu⟩
  · rintro ⟨u, hu, rfl, hk⟩
    obtain ⟨j, hj⟩ := List.getElem?_of_mem hu
    have hju : (c.nodes.map Prod.fst)[j]? = some u.1 := by rw [List.getElem?_map, hj]; rfl
    have hlt := List.idxOf_lt_length_of_mem hr
    have hjeq : j = (c.nodes.map Prod.fst).idxOf u.1 :=
      (List.getElem?_inj (by simpa using (List.getElem?_eq_some_iff.mp hju).1)
        h.increasing.nodup).mp (hju.trans (idxOf_getElem? hr).symm)
    rw [← hjeq, hj]
    simp [hk]

/-- The loops after the tests: the verdict speaks about the affected resources. -/
theorem search_eq (h : Combined nodes nodes' edges edges' c) (protection : ProtectedResources)
    (hprot : ∀ r ∈ protection.ids.ids, r ∈ c.nodes.map Prod.fst)
    (roots : Selection MAX_CHANGE_ROOTS)
    (hroots : ∀ r ∈ roots.ids, r ∈ c.nodes.map Prod.fst) :
    ∃ stack visited flags counts targets offsets tally done,
      push_roots c.nodes roots.ids [] (List.replicate c.nodes.length false) = .ok (stack, visited) ∧
      flag_protected c.nodes protection.ids.ids (List.replicate c.nodes.length false) = .ok flags ∧
      count_sources c.edges (List.replicate (c.nodes.length + 1) 0) [] = .ok (counts, targets) ∧
      sum_offsets counts 1 (counts.length - 1) = .ok offsets ∧
      visit { nodes := c.nodes, protected_flags := flags, offsets, targets } stack visited
        { affected := 0, hit := false, incomplete := false } = .ok tally ∧
      Explored (Leads c) (· ∈ roots.ids.map (placeOf c.nodes)) [] [] done ∧
      Tallied c (· ∈ protection.ids.ids.map (placeOf c.nodes)) done tally := by
  have hfit := h.edgesFit
  obtain ⟨visited, hpush, hv⟩ := push_roots_ok h.increasing roots.ids hroots []
    (List.replicate c.nodes.length false) (marks_replicate _)
  obtain ⟨flags, hflag, hf⟩ := flag_protected_ok h.increasing protection.ids.ids hprot
    (List.replicate c.nodes.length false) (marks_replicate _)
  obtain ⟨counts, hcount, hlen, hget⟩ := count_sources_ok c.edges
    (List.replicate (c.nodes.length + 1) 0) [] (by
      intro e he
      have := (hfit.within e he).1
      simp only [List.length_replicate]
      omega)
  rw [List.length_replicate] at hlen hget
  have hat : ∀ i < c.nodes.length + 1, counts[i]? = some (sourcesAt c.edges i) := by
    intro i hi
    have := hget i hi 0 (by simp [hi])
    rwa [Nat.zero_add] at this
  obtain ⟨offsets, hsum, hl, hoff⟩ := sum_offsets_ok c.edges (counts.length - 1) 1 counts
    (Nat.le_refl 1) (by omega)
    (by
      intro j hj
      obtain rfl : j = 0 := by omega
      rw [hat 0 (by omega)]
      simp [sourcesAt, sourcesBelow])
    (fun j _ hj => hat j (by omega))
  have htables : TablesOf c (· ∈ protection.ids.ids.map (placeOf c.nodes))
      { nodes := c.nodes, protected_flags := flags, offsets, targets := c.edges.map Prod.snd } :=
    ⟨rfl, hf.congr (by simp), fun i hi => hoff i (by omega), rfl⟩
  have hnodup : (roots.ids.map (placeOf c.nodes)).Nodup := by
    refine List.Nodup.map_on ?_ (roots.increasing.imp ne_of_lt)
    intro r hr s hs he
    exact placeOf_inj (hroots r hr) (hroots s hs) he
  have hinit : Explored (Leads c) (· ∈ roots.ids.map (placeOf c.nodes))
      (roots.ids.map (placeOf c.nodes)).reverse [] [] :=
    explored_init (List.nodup_reverse.mpr hnodup) (by simp)
  obtain ⟨done, tally, hvisit, he, ht⟩ := visit_ok hfit htables _ [] visited
    { affected := 0, hit := false, incomplete := false } hinit (hv.congr (by simp))
    (by
      intro i hi
      obtain ⟨r, hr, rfl⟩ := List.mem_map.mp (List.mem_reverse.mp hi)
      exact placeOf_lt (hroots r hr))
    ⟨rfl, by simp, by simp⟩
  exact ⟨_, visited, flags, counts, _, offsets, tally, done, by simpa using hpush, hflag,
    by simpa using hcount, hsum, hvisit, he, ht⟩

open Classical in
/-- What the tally says about the affected resources. -/
theorem assess_eq (h : Combined nodes nodes' edges edges' c) {roots ids : List ResourceId}
    (hroots : ∀ r ∈ roots, r ∈ c.nodes.map Prod.fst) (hids : ∀ r ∈ ids, r ∈ c.nodes.map Prod.fst)
    {done : List Nat} {tally : Tally}
    (he : Explored (Leads c) (· ∈ roots.map (placeOf c.nodes)) [] [] done)
    (ht : Tallied c (· ∈ ids.map (placeOf c.nodes)) done tally) :
    assess tally =
      if ∃ r ∈ Affected edges edges' roots, r ∈ ids then .error (.err .ProtectedImpact)
      else if ∃ r ∈ Affected edges edges' roots, HasUnknown nodes nodes' r then
        .error (.err .IncompleteEffects)
      else .ok (.NoKnownProtectedImpact (Affected edges edges' roots).ncard) := by
  have hdone : ∀ i, i ∈ done ↔ ∃ r ∈ Affected edges edges' roots,
      r ∈ c.nodes.map Prod.fst ∧ i = placeOf c.nodes r := by
    intro i
    rw [he.mem_done_iff, h.reachable_iff hroots]
  have hhit : tally.hit = true ↔ ∃ r ∈ Affected edges edges' roots, r ∈ ids := by
    rw [ht.hit]
    constructor
    · rintro ⟨i, hi, hm⟩
      obtain ⟨r, hr, hkey, rfl⟩ := (hdone i).mp hi
      obtain ⟨s, hs, heq⟩ := List.mem_map.mp hm
      exact ⟨r, hr, placeOf_inj (hids s hs) hkey heq ▸ hs⟩
    · rintro ⟨r, hr, hm⟩
      exact ⟨_, (hdone _).mpr ⟨r, hr, hids r hm, rfl⟩, List.mem_map_of_mem hm⟩
  have hinc : tally.incomplete = true ↔
      ∃ r ∈ Affected edges edges' roots, HasUnknown nodes nodes' r := by
    rw [ht.incomplete]
    constructor
    · rintro ⟨i, hi, hm⟩
      obtain ⟨r, hr, hkey, rfl⟩ := (hdone i).mp hi
      exact ⟨r, hr, (unknownAt_placeOf h hkey).mp hm⟩
    · rintro ⟨r, hr, hm⟩
      have hkey := h.affected_mem hroots hr
      exact ⟨_, (hdone _).mpr ⟨r, hr, hkey, rfl⟩, (unknownAt_placeOf h hkey).mpr hm⟩
  unfold assess
  rw [h.ncard_affected hroots he, ← ht.affected]
  simp only [← hhit, ← hinc]

end

/-- `analyze_effects` never panics and never says `InvalidGraph`: for all lists that two graphs
can be built of, it gives the verdict on the resources that the roots reach. -/
theorem analyze_effects_gives_the_expected_assessment {nodes nodes' : List Node}
    {edges edges' : List Influence} {before after : EffectGraph}
    (hb : EffectGraph.new nodes edges = .ok before) (ha : EffectGraph.new nodes' edges' = .ok after)
    (protection : ProtectedResources) (scope : ChangeScope) :
    analyze_effects before after protection scope =
        (expectedAssessment nodes nodes' edges edges' protection scope).mapError .err ∧
      analyze_effects before after protection scope ≠ .error (.err .InvalidGraph) ∧
      analyze_effects before after protection scope ≠ .error .panic := by
  have hb' := EffectGraph.new_built hb
  have ha' := EffectGraph.new_built ha
  have hc := unionGraph_combined hb' ha'
  have hmissing : (protection.ids.ids.any fun id => (before.index id).isNone ||
      (after.index id).isNone) = true ↔
      ∃ r ∈ protection.ids.ids, r ∉ resources nodes ∨ r ∉ resources nodes' := by
    simp only [List.any_eq_true, Bool.or_eq_true, hb'.index_isNone, ha'.index_isNone]
  have heq : analyze_effects before after protection scope =
      (expectedAssessment nodes nodes' edges edges' protection scope).mapError .err := by
    unfold analyze_effects expectedAssessment
    rw [combined_graph_eq hb' ha']
    unfold MAX_EFFECT_NODES MAX_EFFECT_EDGES
    by_cases hbig : 4096 < (resources nodes ∪ resources nodes').card ∨
        8192 < (influences edges ∪ influences edges').card
    · rw [if_pos hbig, if_pos hbig]
      rfl
    rw [if_neg hbig, if_neg hbig]
    simp only [bind, Except.bind]
    by_cases hm : ∃ r ∈ protection.ids.ids, r ∉ resources nodes ∨ r ∉ resources nodes'
    · rw [if_pos hm, if_pos (hmissing.mpr hm)]
      rfl
    rw [if_neg hm, if_neg (fun h => hm (hmissing.mp h))]
    rcases scope.roots with _ | roots
    · rfl
    dsimp only
    by_cases hr : ∃ r ∈ roots.ids, r ∉ resources nodes ∪ resources nodes'
    · rw [if_pos hr, push_roots_missing hc.increasing roots.ids
        (by simpa only [hc.mem_keys] using hr) [] _ (by simp)]
      rfl
    rw [if_neg hr]
    have hprot : ∀ r ∈ protection.ids.ids, r ∈ (unionGraph before after).nodes.map Prod.fst := by
      intro r hr
      rw [hc.mem_keys, Finset.mem_union]
      by_contra hno
      exact hm ⟨r, hr, .inl fun h => hno (.inl h)⟩
    have hroots : ∀ r ∈ roots.ids, r ∈ (unionGraph before after).nodes.map Prod.fst := by
      intro r hrr
      rw [hc.mem_keys]
      by_contra hno
      exact hr ⟨r, hrr, hno⟩
    obtain ⟨stack, visited, flags, counts, targets, offsets, tally, done, h1, h2, h3, h4, h5, he,
      ht⟩ :=
      search_eq hc protection hprot roots hroots
    simp only [h1, h2, h3, h4, h5, assess_eq hc hroots hprot he ht]
    split_ifs <;> rfl
  refine ⟨heq, ?_, ?_⟩ <;> rw [heq] <;> unfold expectedAssessment <;> cases scope.roots <;>
    simp only <;> split_ifs <;> simp [Except.mapError]

def wanPort : ResourceId := ⟨.PhysicalPort, "wan".toList, by decide⟩

def lanBridge : ResourceId := ⟨.Bridge, "br-lan".toList, by decide⟩

/-- The bridge stands before the port in the list, and after it in the graph. -/
theorem a_change_of_the_bridge_reaches_the_port :
    ∃ g protection scope,
      EffectGraph.new [⟨lanBridge, .Complete⟩, ⟨wanPort, .Complete⟩] [⟨lanBridge, wanPort⟩] =
        .ok g ∧
      ProtectedResources.new [wanPort] = .ok protection ∧
      ChangeScope.of_roots [lanBridge] = .ok scope ∧
      analyze_effects g g protection scope = .error (.err .ProtectedImpact) ∧
      analyze_effects g g protection scope =
        (expectedAssessment [⟨lanBridge, .Complete⟩, ⟨wanPort, .Complete⟩]
          [⟨lanBridge, .Complete⟩, ⟨wanPort, .Complete⟩] [⟨lanBridge, wanPort⟩]
          [⟨lanBridge, wanPort⟩] protection scope).mapError .err :=
  ⟨_, _, _, rfl, rfl, rfl, by decide +kernel,
    (analyze_effects_gives_the_expected_assessment rfl rfl _ _).1⟩

end openwrt_mcp_core.management
