import Mathlib.Data.List.Nodup
import CyclePlan.Proofs.Graph.Extension
import CyclePlan.Proofs.Graph.Walk

/-!
# Views by Membership

Which nodes and which pairs a view consists of.

A view is made with positions: an edge joins two numbers, and both are found by
searching the list of kept operations. Constraints are made from pairs of
nodes, and for those the positions do not matter any more. This module turns
every list of a view into a membership statement about the graph, once, so that
nothing after it mentions a position.

A node remembers the number of its operation, and these numbers are distinct
(`origins_nodup`), so searching for one finds the place it came from. A forward
pair is then a pair of kept nodes such that the walk from the first meets the
second, and a back pair is a back-edge whose ends are both kept.

## Main definitions

* `View.nodeOf`: The node that an operation becomes.
* `Graph.keptNodes`, `Graph.bridges`: The nodes and the forward edges that a view
  is made with.

## Theorems

* `ofGraph_eq_ok_iff`: What a view consists of, and when there is one.
* `mem_nodes_iff`: The nodes of a view.
* `mem_forwardPairs_iff`: The forward pairs of a view.
* `mem_backPairs_iff`: The back pairs of a view.
* `mem_keptSuccessors_iff`: What a walk from a node meets, as a path.
* `exists_ofGraph`: A graph whose edges raise a numbering has a view.
-/

namespace CyclePlan

variable {α : Type}

/-- The node that an operation becomes. -/
def View.nodeOf (id : Nat) (op : Operation α) : View.Node α where
  origin := id
  name := op.name
  kind := op.kind
  block := op.block
  latency := op.latency

/-- Erasing duplicates leaves every item once. -/
theorem nodup_eraseDups (ns : List Nat) : ns.eraseDups.Nodup := by
  induction hlen : ns.length using Nat.strong_induction_on generalizing ns with
  | _ k ih =>
      cases ns with
      | nil => exact List.nodup_nil
      | cons n rest =>
          rw [List.eraseDups_cons, List.nodup_cons, List.mem_eraseDups]
          refine ⟨by simp, ih _ ?_ _ rfl⟩
          rw [← hlen, List.length_cons]
          exact Nat.lt_succ_of_le (List.length_filter_le _ _)

namespace Graph

variable (g : Graph α)

/-- The nodes that the kept operations become. -/
def keptNodes : List (View.Node α) :=
  (g.ops.zipIdx.filter fun p => !p.1.kind.isStripped).map fun p => View.nodeOf p.2 p.1

/-- The place of a kept operation among the kept ones. -/
def keptPosition? (id : Nat) : Option Nat := g.keptIds.findIdx? (· == id)

theorem mem_keptNodes_iff {n : View.Node α} :
    n ∈ g.keptNodes ↔
      ∃ op, g.ops[n.origin]? = some op ∧ op.kind.isStripped = false ∧
        n = View.nodeOf n.origin op := by
  rw [keptNodes, List.mem_map]
  constructor
  · rintro ⟨⟨op, id⟩, hmem, rfl⟩
    rcases List.mem_filter.mp hmem with ⟨hmem, hkept⟩
    exact ⟨op, List.mem_zipIdx_iff_getElem?.mp hmem, by simpa using hkept, rfl⟩
  · rintro ⟨op, hop, hkept, heq⟩
    refine ⟨(op, n.origin), List.mem_filter.mpr ⟨List.mem_zipIdx_iff_getElem?.mpr hop, ?_⟩,
      heq.symm⟩
    simp only [hkept, Bool.not_false]

theorem map_origin_keptNodes : g.keptNodes.map (·.origin) = g.keptIds := by
  rw [keptNodes, keptIds, List.map_map]
  rfl

theorem keptIds_nodup : g.keptIds.Nodup := by
  have hsub : g.keptIds.Sublist (g.ops.zipIdx.map (·.2)) := (List.filter_sublist).map _
  refine hsub.nodup ?_
  rw [List.zipIdx_map_snd]
  exact List.nodup_range'

/-- Searching for the number of a node finds the place of the node. -/
theorem keptPosition?_eq_some_iff {id i : Nat} :
    g.keptPosition? id = some i ↔ ∃ n, g.keptNodes[i]? = some n ∧ n.origin = id := by
  have hget : g.keptIds[i]? = some id ↔ ∃ n, g.keptNodes[i]? = some n ∧ n.origin = id := by
    rw [← g.map_origin_keptNodes, List.getElem?_map, Option.map_eq_some_iff]
  rw [← hget, keptPosition?]
  constructor
  · intro h
    rcases List.findIdx?_eq_some_iff_getElem.mp h with ⟨hlt, heq, _⟩
    rw [List.getElem?_eq_getElem hlt, beq_iff_eq.mp heq]
  · intro h
    rcases List.getElem?_eq_some_iff.mp h with ⟨hlt, heq⟩
    refine List.findIdx?_eq_some_iff_getElem.mpr ⟨hlt, by rw [heq, beq_self_eq_true], ?_⟩
    -- Numbers are distinct, so no earlier place has this one.
    intro j hji hj
    have hsame : g.keptIds[j] = g.keptIds[i] := by rw [beq_iff_eq.mp hj, heq]
    exact absurd ((List.Nodup.getElem_inj_iff g.keptIds_nodup).mp hsame) (by omega)

/-- A walk from a node meets the kept nodes that a path through stripped ones
    leads to. -/
theorem mem_keptSuccessors_iff {id s : Nat} :
    s ∈ g.keptSuccessors id ↔ ∃ t ∈ g.successors id,
      LeadsTo g.successors g.keptIds.contains (g.forwardEdges.map (·.target)).eraseDups t s := by
  rw [keptSuccessors, mem_walk_iff (nodup_eraseDups _)]
  simp only [List.mem_reverse]

theorem exists_forwardEdge_iff {id t : Nat} :
    (∃ e ∈ g.forwardEdges, e.source = id ∧ e.target = t) ↔ ⟨id, t, false⟩ ∈ g.edges := by
  constructor
  · rintro ⟨⟨source, target, back⟩, hmem, rfl, rfl⟩
    rcases List.mem_filter.mp hmem with ⟨hmem, hforward⟩
    cases back with
    | false => exact hmem
    | true => cases hforward
  · exact fun hmem => ⟨_, List.mem_filter.mpr ⟨hmem, rfl⟩, rfl, rfl⟩

theorem mem_successors_iff {id t : Nat} :
    t ∈ g.successors id ↔ ⟨id, t, false⟩ ∈ g.edges := by
  rw [successors, List.mem_map, ← g.exists_forwardEdge_iff]
  refine exists_congr fun e => ?_
  rw [List.mem_filter, beq_iff_eq, and_assoc]

theorem mem_predecessors_iff {id t : Nat} :
    id ∈ g.predecessors t ↔ ⟨id, t, false⟩ ∈ g.edges := by
  rw [predecessors, List.mem_map, ← g.exists_forwardEdge_iff]
  refine exists_congr fun e => ?_
  rw [List.mem_filter, beq_iff_eq, and_assoc, and_comm (a := e.target = t)]

/-- A consumer that is kept is met at once. -/
theorem mem_keptSuccessors_of_edge {id t : Nat} (h : ⟨id, t, false⟩ ∈ g.edges)
    (hkept : t ∈ g.keptIds) : t ∈ g.keptSuccessors id := by
  refine g.mem_keptSuccessors_iff.mpr ⟨t, g.mem_successors_iff.mpr h, .stop ?_ ?_⟩
  · rw [List.mem_eraseDups]
    exact List.mem_map_of_mem (List.mem_filter.mpr ⟨h, rfl⟩)
  · exact List.contains_iff_mem.mpr hkept

/-- The forward edges that a view is made with: producers in the order of their
    numbers, the consumers of each as the walk meets them. -/
def bridges : List View.Edge :=
  g.keptIds.zipIdx.flatMap fun p =>
    (g.keptSuccessors p.1).filterMap fun id => (g.keptPosition? id).map (View.Edge.mk p.2)

theorem mem_bridges_iff {i j : Nat} :
    ⟨i, j⟩ ∈ g.bridges ↔ ∃ a b, g.keptNodes[i]? = some a ∧ g.keptNodes[j]? = some b ∧
      b.origin ∈ g.keptSuccessors a.origin := by
  rw [bridges, List.mem_flatMap]
  constructor
  · rintro ⟨⟨id, k⟩, hid, hmem⟩
    rcases List.mem_filterMap.mp hmem with ⟨s, hs, hedge⟩
    rcases Option.map_eq_some_iff.mp hedge with ⟨l, hl, heq⟩
    cases heq
    rcases g.keptPosition?_eq_some_iff.mp hl with ⟨b, hb, rfl⟩
    rw [List.mem_zipIdx_iff_getElem?, ← g.map_origin_keptNodes, List.getElem?_map] at hid
    rcases Option.map_eq_some_iff.mp hid with ⟨a, ha, rfl⟩
    exact ⟨a, b, ha, hb, hs⟩
  · rintro ⟨a, b, ha, hb, hs⟩
    refine ⟨(a.origin, i), ?_, List.mem_filterMap.mpr ⟨b.origin, hs, ?_⟩⟩
    · rw [List.mem_zipIdx_iff_getElem?, ← g.map_origin_keptNodes, List.getElem?_map, ha]
      rfl
    · rw [g.keptPosition?_eq_some_iff.mpr ⟨b, hb, rfl⟩]
      rfl

/-- A numbering that every forward edge raises is raised by what a walk meets
    as well. -/
theorem lt_of_mem_keptSuccessors {rank : Nat → Nat}
    (hrank : ∀ u t, ⟨u, t, false⟩ ∈ g.edges → rank u < rank t) {id s : Nat}
    (h : s ∈ g.keptSuccessors id) : rank id < rank s := by
  rcases g.mem_keptSuccessors_iff.mp h with ⟨t, ht, hleads⟩
  -- The first edge raises it, and the path that follows does not lower it again.
  have hraise : rank t ≤ rank s := by
    clear ht h
    induction hleads with
    | stop _ _ => exact Nat.le_refl _
    | pass _ _ hnext _ ih =>
        exact Nat.le_trans (Nat.le_of_lt (hrank _ _ (g.mem_successors_iff.mp hnext))) ih
  exact Nat.lt_of_lt_of_le (hrank _ _ (g.mem_successors_iff.mp ht)) hraise

end Graph

namespace View

variable {g : Graph α} {v : View α}

/-- What a view consists of, and when there is one. -/
theorem ofGraph_eq_ok_iff :
    ofGraph g = .ok v ↔
      v.nodes = g.keptNodes ∧
      v.forward = g.bridges ∧
      v.back = g.backEdges.filterMap (fun e => do
        return ⟨← g.keptPosition? e.source, ← g.keptPosition? e.target⟩) ∧
      Graph.linearExtension? v.nodes.length (v.forward.map fun e => (e.source, e.target))
        = some v.order ∧
      v.stripped = (g.ops.filter (·.kind.isStripped)).map (·.name) := by
  constructor
  · intro h
    simp only [ofGraph] at h
    split at h
    · next order horder =>
      cases h
      exact ⟨rfl, rfl, rfl, horder, rfl⟩
    · cases h
  · rintro ⟨hnodes, hforward, hback, horder, hstripped⟩
    rcases v with ⟨nodes, forward, back, order, stripped⟩
    simp only at hnodes hforward hback horder hstripped
    subst hnodes hforward hback hstripped
    simp only [ofGraph]
    split
    · next found hfound =>
      have heq : found = order := Option.some.inj (hfound.symm.trans horder)
      rw [heq]
      rfl
    · next hnone =>
      have heq : none = some order := hnone.symm.trans horder
      cases heq

theorem mem_nodes_iff (h : ofGraph g = .ok v) {n : View.Node α} :
    n ∈ v.nodes ↔
      ∃ op, g.ops[n.origin]? = some op ∧ op.kind.isStripped = false ∧ n = nodeOf n.origin op := by
  rw [(ofGraph_eq_ok_iff.mp h).1, g.mem_keptNodes_iff]

/-- An operation that is kept becomes a node. -/
theorem nodeOf_mem_nodes (h : ofGraph g = .ok v) {id : Nat} {op : Operation α}
    (hop : g.ops[id]? = some op) (hkept : op.kind.isStripped = false) :
    nodeOf id op ∈ v.nodes := (mem_nodes_iff h).mpr ⟨op, hop, hkept, rfl⟩

/-- The numbers of the nodes are distinct. -/
theorem origins_nodup (h : ofGraph g = .ok v) : (v.nodes.map (·.origin)).Nodup := by
  rw [(ofGraph_eq_ok_iff.mp h).1, g.map_origin_keptNodes]
  exact g.keptIds_nodup

theorem mem_keptIds_iff (h : ofGraph g = .ok v) {id : Nat} :
    id ∈ g.keptIds ↔ ∃ n ∈ v.nodes, n.origin = id := by
  rw [← g.map_origin_keptNodes, ← (ofGraph_eq_ok_iff.mp h).1, List.mem_map]

theorem ends?_eq_some_iff {e : Edge} {a b : View.Node α} :
    v.ends? e = some (a, b) ↔ v.nodes[e.source]? = some a ∧ v.nodes[e.target]? = some b := by
  rw [ends?, node?, node?]
  cases v.nodes[e.source]? <;> cases v.nodes[e.target]? <;> simp

theorem mem_back_iff (h : ofGraph g = .ok v) {i j : Nat} :
    ⟨i, j⟩ ∈ v.back ↔ ∃ a b, v.nodes[i]? = some a ∧ v.nodes[j]? = some b ∧
      ⟨a.origin, b.origin, true⟩ ∈ g.edges := by
  rcases ofGraph_eq_ok_iff.mp h with ⟨hnodes, _, hback, _, _⟩
  rw [hback, hnodes, List.mem_filterMap]
  constructor
  · rintro ⟨⟨source, target, back⟩, hmem, hedge⟩
    rcases List.mem_filter.mp hmem with ⟨hmem, rfl⟩
    rcases Option.bind_eq_some_iff.mp hedge with ⟨k, hk, hedge⟩
    rcases Option.bind_eq_some_iff.mp hedge with ⟨l, hl, heq⟩
    cases heq
    rcases g.keptPosition?_eq_some_iff.mp hk with ⟨a, ha, rfl⟩
    rcases g.keptPosition?_eq_some_iff.mp hl with ⟨b, hb, rfl⟩
    exact ⟨a, b, ha, hb, hmem⟩
  · rintro ⟨a, b, ha, hb, hmem⟩
    refine ⟨⟨a.origin, b.origin, true⟩, List.mem_filter.mpr ⟨hmem, rfl⟩, ?_⟩
    rw [g.keptPosition?_eq_some_iff.mpr ⟨a, ha, rfl⟩, g.keptPosition?_eq_some_iff.mpr ⟨b, hb, rfl⟩]
    rfl

theorem mem_nodes_of_ends? {e : Edge} {p : View.Node α × View.Node α}
    (h : v.ends? e = some p) : p.1 ∈ v.nodes ∧ p.2 ∈ v.nodes := by
  rcases ends?_eq_some_iff.mp h with ⟨ha, hb⟩
  exact ⟨List.mem_of_getElem? ha, List.mem_of_getElem? hb⟩

/-- Both ends of a forward pair are nodes. -/
theorem mem_nodes_of_forwardPairs {p : View.Node α × View.Node α} (h : p ∈ v.forwardPairs) :
    p.1 ∈ v.nodes ∧ p.2 ∈ v.nodes := by
  rcases List.mem_filterMap.mp h with ⟨e, _, he⟩
  exact mem_nodes_of_ends? he

/-- Both ends of a back pair are nodes. -/
theorem mem_nodes_of_backPairs {p : View.Node α × View.Node α} (h : p ∈ v.backPairs) :
    p.1 ∈ v.nodes ∧ p.2 ∈ v.nodes := by
  rcases List.mem_filterMap.mp h with ⟨e, _, he⟩
  exact mem_nodes_of_ends? he

/-- The block that a back pair starts in has a back-edge. -/
theorem block_mem_loopBlocks {p : View.Node α × View.Node α} (h : p ∈ v.backPairs) :
    p.1.block ∈ v.loopBlocks := by
  rw [loopBlocks, ascending, List.mem_mergeSort, List.mem_eraseDups]
  exact List.mem_map_of_mem h

theorem loopBlocks_nodup (v : View α) : v.loopBlocks.Nodup :=
  (List.mergeSort_perm _ _).nodup_iff.mpr (nodup_eraseDups _)

/-- The forward pairs join a kept node to those that a walk from it meets. -/
theorem mem_forwardPairs_iff (h : ofGraph g = .ok v) {a b : View.Node α} :
    (a, b) ∈ v.forwardPairs ↔
      a ∈ v.nodes ∧ b ∈ v.nodes ∧ b.origin ∈ g.keptSuccessors a.origin := by
  rcases ofGraph_eq_ok_iff.mp h with ⟨hnodes, hforward, _⟩
  rw [forwardPairs, List.mem_filterMap]
  constructor
  · rintro ⟨⟨i, j⟩, hmem, hends⟩
    rcases ends?_eq_some_iff.mp hends with ⟨ha, hb⟩
    rw [hforward] at hmem
    rw [hnodes] at ha hb ⊢
    rcases g.mem_bridges_iff.mp hmem with ⟨a', b', ha', hb', hs⟩
    cases ha.symm.trans ha'
    cases hb.symm.trans hb'
    exact ⟨List.mem_of_getElem? ha, List.mem_of_getElem? hb, hs⟩
  · rintro ⟨ha, hb, hs⟩
    rcases List.mem_iff_getElem?.mp ha with ⟨i, hi⟩
    rcases List.mem_iff_getElem?.mp hb with ⟨j, hj⟩
    refine ⟨⟨i, j⟩, ?_, ends?_eq_some_iff.mpr ⟨hi, hj⟩⟩
    rw [hforward, g.mem_bridges_iff, ← hnodes]
    exact ⟨a, b, hi, hj, hs⟩

/-- The back pairs are the back-edges with both ends kept. -/
theorem mem_backPairs_iff (h : ofGraph g = .ok v) {a b : View.Node α} :
    (a, b) ∈ v.backPairs ↔
      a ∈ v.nodes ∧ b ∈ v.nodes ∧ ⟨a.origin, b.origin, true⟩ ∈ g.edges := by
  rw [backPairs, List.mem_filterMap]
  constructor
  · rintro ⟨⟨i, j⟩, hmem, hends⟩
    rcases ends?_eq_some_iff.mp hends with ⟨ha, hb⟩
    rcases (mem_back_iff h).mp hmem with ⟨a', b', ha', hb', hs⟩
    cases ha.symm.trans ha'
    cases hb.symm.trans hb'
    exact ⟨List.mem_of_getElem? ha, List.mem_of_getElem? hb, hs⟩
  · rintro ⟨ha, hb, hs⟩
    rcases List.mem_iff_getElem?.mp ha with ⟨i, hi⟩
    rcases List.mem_iff_getElem?.mp hb with ⟨j, hj⟩
    exact ⟨⟨i, j⟩, (mem_back_iff h).mpr ⟨a, b, hi, hj, hs⟩, ends?_eq_some_iff.mpr ⟨hi, hj⟩⟩

/-- Where every forward edge raises a numbering there is a view. -/
theorem exists_ofGraph {rank : Nat → Nat}
    (hrank : ∀ u t, ⟨u, t, false⟩ ∈ g.edges → rank u < rank t) : ∃ v, ofGraph g = .ok v := by
  -- Positions inherit the numbering of the nodes they stand for.
  let place (i : Nat) : Nat :=
    match g.keptNodes[i]? with
    | some n => rank n.origin
    | none => 0
  have hedge : ∀ e ∈ g.bridges.map fun e => (e.source, e.target),
      e.1 < g.keptNodes.length ∧ place e.1 < place e.2 := by
    intro e he
    rcases List.mem_map.mp he with ⟨⟨i, j⟩, hmem, rfl⟩
    rcases g.mem_bridges_iff.mp hmem with ⟨a, b, ha, hb, hs⟩
    refine ⟨(List.getElem?_eq_some_iff.mp ha).1, ?_⟩
    simp only [place, ha, hb]
    exact g.lt_of_mem_keptSuccessors hrank hs
  rcases Graph.exists_linearExtension? place (fun e he => (hedge e he).1)
    (fun e he => (hedge e he).2) with ⟨order, horder⟩
  exact ⟨⟨_, _, _, order, _⟩, ofGraph_eq_ok_iff.mpr ⟨rfl, rfl, rfl, horder, rfl⟩⟩

end View

end CyclePlan
