import CyclePlan.Proofs.Graph.LeastExtension
import CyclePlan.Proofs.Graph.Projection

/-!
# Canonical Orders

A graph and its view have one order each, whoever built the graph.

Ordering is handed a list of edges, but it answers a question about a relation:
which sequence of nodes comes first, lexicographically, among those in which every
forward edge goes forward. Two graphs with the same operations and the same forward
dependencies ask the same question, so they get the same answer, whatever their
back-edges are and however often a dependency is listed.

The view asks the question about its own nodes. Its edges are bridges, which
depend on the forward dependencies alone, so what holds of the graph carries over.

Edges have to join operations. Otherwise the graph is refused for another reason
than a cycle.

## Main definitions

* `Graph.arrows`: The forward edges as pairs of numbers.
* `Graph.indexedOrder`: Ordering with every end of an edge looked up.

## Theorems

* `Graph.topologicalOrder_eq`: Ordering is finding a linear extension.
* `Graph.topologicalOrder_sorts`: The order of a graph sorts its dependencies.
* `View.order_sorts`: The order of a view sorts its edges.
* `Graph.canonical_orders`: Both, and back-edges are not looked at.
-/

namespace CyclePlan

namespace Graph

variable {α : Type} {g g' : Graph α}

/-- The forward edges as pairs of numbers. -/
def arrows (g : Graph α) : List (Nat × Nat) := g.forwardEdges.map fun e => (e.source, e.target)

theorem mem_arrows_iff {u t : Nat} : (u, t) ∈ g.arrows ↔ g.Precedes u t := by
  rw [Precedes, ← g.exists_forwardEdge_iff, arrows, List.mem_map]
  simp only [Prod.mk.injEq]

theorem IsJoined.arrows_lt (h : g.IsJoined) : ∀ e ∈ g.arrows, e.1 < g.size ∧ e.2 < g.size :=
  fun e he => h ⟨e.1, e.2, false⟩ (mem_arrows_iff.mp he)

/-- Ordering with every end of an edge looked up. -/
def indexedOrder (n : Nat) (edges : List (Nat × Nat)) : Except GraphError (List Nat) :=
  match (edges.flatMap fun e => [e.1, e.2]).find? (n ≤ ·) with
  | some id => .error (.noSuchNode id)
  | none => (linearExtension? n edges).elim (.error .cyclic) .ok

/-- Nothing is missing where every end is a node. -/
theorem find?_ends_eq_none {n : Nat} {edges : List (Nat × Nat)}
    (h : ∀ e ∈ edges, e.1 < n ∧ e.2 < n) :
    (edges.flatMap fun e => [e.1, e.2]).find? (n ≤ ·) = none := by
  rw [List.find?_eq_none]
  intro id hid
  rcases List.mem_flatMap.mp hid with ⟨e, he, hid⟩
  have hinside := h e he
  simp only [List.mem_cons, List.not_mem_nil, or_false] at hid
  rw [decide_eq_true_iff]
  omega

theorem indexedOrder_eq {n : Nat} {edges : List (Nat × Nat)}
    (h : ∀ e ∈ edges, e.1 < n ∧ e.2 < n) :
    indexedOrder n edges = (linearExtension? n edges).elim (.error .cyclic) .ok := by
  rw [indexedOrder, find?_ends_eq_none h]

/-- Where edges join operations, ordering is finding a linear extension, and it can
    only fail for a cycle. -/
theorem topologicalOrder_eq (h : g.IsJoined) :
    g.topologicalOrder = (linearExtension? g.size g.arrows).elim (.error .cyclic) .ok := by
  have hfound := find?_ends_eq_none h.arrows_lt
  rw [arrows] at hfound ⊢
  simp only [topologicalOrder, hfound]
  cases linearExtension? g.size (g.forwardEdges.map fun e => (e.source, e.target)) <;> rfl

theorem linearExtension?_arrows_sorts (h : g.IsJoined) :
    Sorts g.size g.Precedes (linearExtension? g.size g.arrows) := by
  have hrelation : (fun u t => (u, t) ∈ g.arrows) = g.Precedes := by
    funext u t
    exact propext mem_arrows_iff
  rw [← hrelation]
  exact linearExtension?_sorts h.arrows_lt

/-- The order of a graph sorts its forward dependencies. -/
theorem topologicalOrder_sorts (h : g.IsJoined) :
    Sorts g.size g.Precedes g.topologicalOrder.toOption := by
  have hanswer : g.topologicalOrder.toOption = linearExtension? g.size g.arrows := by
    rw [topologicalOrder_eq h]
    cases linearExtension? g.size g.arrows <;> rfl
  rw [hanswer]
  exact linearExtension?_arrows_sorts h

theorem eq_cyclic_of_topologicalOrder (h : g.IsJoined) {e : GraphError}
    (herror : g.topologicalOrder = .error e) : e = .cyclic := by
  rw [topologicalOrder_eq h] at herror
  cases hfound : linearExtension? g.size g.arrows with
  | none => rw [hfound] at herror; cases herror; rfl
  | some order => rw [hfound] at herror; cases herror

/-- Only the forward dependencies matter, and those only as a relation. -/
theorem topologicalOrder_congr (hjoined : g.IsJoined) (hjoined' : g'.IsJoined)
    (hops : g'.ops = g.ops) (hforward : ∀ u t, g'.Precedes u t ↔ g.Precedes u t) :
    g'.topologicalOrder = g.topologicalOrder := by
  have hrelation : g'.Precedes = g.Precedes := by
    funext u t
    exact propext (hforward u t)
  have hsize : g'.size = g.size := by rw [size, size, hops]
  have hsorts := linearExtension?_arrows_sorts hjoined'
  rw [hrelation, hsize] at hsorts
  rw [topologicalOrder_eq hjoined, topologicalOrder_eq hjoined', hsize,
    hsorts.unique (linearExtension?_arrows_sorts hjoined)]

theorem Bridged.of_precedes {u s : Nat} (h : g'.Bridged u s) (hops : g'.ops = g.ops)
    (hforward : ∀ u t, g'.Precedes u t → g.Precedes u t) : g.Bridged u s := by
  induction h with
  | edge hedge => exact .edge (hforward _ _ hedge)
  | through hedge hstripped _ ih =>
      rw [IsStripped, hops] at hstripped
      exact .through (hforward _ _ hedge) hstripped ih

end Graph

namespace View

variable {α : Type} {g g' : Graph α} {v : View α}

/-- The order of a view, by its own nodes and edges. -/
theorem order_least (h : ofGraph g = .ok v) :
    Graph.IsLeastExtension v.size (fun i j => ⟨i, j⟩ ∈ v.forward) v.order := by
  rcases ofGraph_eq_ok_iff.mp h with ⟨hnodes, hforward, _⟩
  rw [size, hnodes, hforward]
  refine (order_sorts g).least v.order ?_
  rw [h]
  rfl

/-- A view fails to exist for no other reason than a cycle. -/
theorem eq_cyclic_of_ofGraph {e : GraphError} (h : ofGraph g = .error e) : e = .cyclic := by
  simp only [ofGraph] at h
  split at h
  · cases h
  · cases h
    rfl

/-- The edges of a view depend on the operations and the forward dependencies. -/
theorem mem_bridges_congr (hjoined : g.IsJoined) (hjoined' : g'.IsJoined) (hops : g'.ops = g.ops)
    (hforward : ∀ u t, g'.Precedes u t ↔ g.Precedes u t) {i j : Nat} :
    ⟨i, j⟩ ∈ g'.bridges ↔ ⟨i, j⟩ ∈ g.bridges := by
  have hkept : g'.keptNodes = g.keptNodes := by rw [Graph.keptNodes, Graph.keptNodes, hops]
  rw [Graph.mem_bridges_iff_bridged hjoined, Graph.mem_bridges_iff_bridged hjoined', hkept]
  refine exists₂_congr fun a b => and_congr_right fun _ => and_congr_right fun _ => ?_
  exact ⟨fun h => h.of_precedes hops fun u t => (hforward u t).mp,
    fun h => h.of_precedes hops.symm fun u t => (hforward u t).mpr⟩

theorem order_congr (hjoined : g.IsJoined) (hjoined' : g'.IsJoined) (hops : g'.ops = g.ops)
    (hforward : ∀ u t, g'.Precedes u t ↔ g.Precedes u t) :
    (ofGraph g').toOption.map (·.order) = (ofGraph g).toOption.map (·.order) := by
  have hkept : g'.keptNodes = g.keptNodes := by rw [Graph.keptNodes, Graph.keptNodes, hops]
  have hrelation : (fun i j => ⟨i, j⟩ ∈ g'.bridges) = fun i j => ⟨i, j⟩ ∈ g.bridges := by
    funext i j
    exact propext (mem_bridges_congr hjoined hjoined' hops hforward)
  have hsorts := order_sorts g'
  rw [hrelation, hkept] at hsorts
  exact hsorts.unique (order_sorts g)

end View

namespace Graph

variable {α : Type} {g : Graph α}

/-- Where edges join operations, a graph has an order exactly if its forward
    dependencies have no cycle, and it is the least one in which they all go forward.
    The same is true of the nodes and the edges of its view. No other graph with these
    operations and forward dependencies has other orders. -/
theorem canonical_orders (hjoined : g.IsJoined) :
    (Sorts g.size g.Precedes g.topologicalOrder.toOption ∧
      ∀ e, g.topologicalOrder = .error e → e = .cyclic) ∧
    (Sorts g.keptNodes.length (fun i j => ⟨i, j⟩ ∈ g.bridges)
        ((View.ofGraph g).toOption.map (·.order)) ∧
      (∀ v, View.ofGraph g = .ok v → v.nodes = g.keptNodes ∧ v.forward = g.bridges ∧
        IsLeastExtension v.size (fun i j => ⟨i, j⟩ ∈ v.forward) v.order) ∧
      ∀ e, View.ofGraph g = .error e → e = .cyclic) ∧
    ∀ g' : Graph α, g'.IsJoined → g'.ops = g.ops →
      (∀ u t, g'.Precedes u t ↔ g.Precedes u t) →
      g'.topologicalOrder = g.topologicalOrder ∧
        (View.ofGraph g').toOption.map (·.order) = (View.ofGraph g).toOption.map (·.order) := by
  refine ⟨⟨topologicalOrder_sorts hjoined, fun e => eq_cyclic_of_topologicalOrder hjoined⟩,
    ⟨View.order_sorts g, fun v hview => ?_, fun e => View.eq_cyclic_of_ofGraph⟩, ?_⟩
  · rcases View.ofGraph_eq_ok_iff.mp hview with ⟨hnodes, hforward, _⟩
    exact ⟨hnodes, hforward, View.order_least hview⟩
  · intro g' hjoined' hops hforward
    exact ⟨topologicalOrder_congr hjoined hjoined' hops hforward,
      View.order_congr hjoined hjoined' hops hforward⟩

/-- The loop that counts is ordered, with the supersource first. -/
theorem canonical_orders_countingLoop :
    countingLoop.IsJoined ∧
      IsLeastExtension countingLoop.size countingLoop.Precedes [5, 0, 1, 2, 3, 4, 6] := by
  have hjoined : countingLoop.IsJoined := (fit_of_defects countingLoop_defects).joined
  refine ⟨hjoined, (canonical_orders hjoined).1.1.least _ ?_⟩
  decide +kernel

end Graph

end CyclePlan
