import CyclePlan.Graph.Defect
import CyclePlan.Proofs.Graph.View
import CyclePlan.Scalar.Rational

/-!
# Graphs Without Defects

What the inspection of a graph vouches for.

The inspection returns a list, and everything after it asks only whether that
list is empty. An empty list is a conjunction: every part of the inspection
came back empty. `Formed` names the parts that do not depend on the type of
latencies, and `Fit` the parts that scheduling depends on where latencies are
rational. `formed_of_defects` and `fit_of_defects` read them off. Acyclicity is kept
as a numbering that every forward edge raises, the position in the topological
order, because a numbering passes through stripped operations and an order of the
view does not say anything about them.

A formed graph always has a view (`Formed.exists_view`), and the parts carry over to
its nodes and pairs: the names stay distinct, latencies are finite and not negative,
forward pairs raise a numbering, and back pairs stay in their block.

## Main definitions

* `Graph.Formed`: What a model needs of a graph.
* `Graph.Fit`: What scheduling needs of a graph.
* `Graph.selfLoop`: The smallest loop without defects.
* `Graph.countingLoop`: A loop with operations that are stripped.

## Theorems

* `formed_of_defects`, `fit_of_defects`: A graph without defects is formed, and fit.
* `countP_superNode`: It has each supernode once.
* `Formed.exists_view`: A formed graph has a view.
* `Formed.node_names_nodup`, `Formed.backPairs_block`, `Fit.eq_nodeOf`,
  `Fit.node_latency`, `Fit.forwardPairs_rank`: What that means for the view.
-/

namespace CyclePlan

namespace Graph

/-- What a model needs of a graph, whatever its latencies are. -/
structure Formed {α : Type} (g : Graph α) : Prop where
  names : (g.ops.map (·.name)).Nodup
  joined : ∀ e ∈ g.edges, e.source < g.size ∧ e.target < g.size
  /-- Back-edges between kept operations stay in their block. -/
  inBlock : ∀ u t, ⟨u, t, true⟩ ∈ g.edges → ∀ a b, g.ops[u]? = some a → g.ops[t]? = some b →
    a.kind.isStripped = false → b.kind.isStripped = false → a.block = b.block
  /-- Every forward edge raises some numbering of the operations. -/
  ranked : ∃ rank : Nat → Nat, ∀ u t, ⟨u, t, false⟩ ∈ g.edges → rank u < rank t

/-- What scheduling needs of a graph. -/
structure Fit (g : Graph Rat) : Prop where
  names : (g.ops.map (·.name)).Nodup
  latencies : ∀ op ∈ g.ops, 0 ≤ op.latency
  joined : ∀ e ∈ g.edges, e.source < g.size ∧ e.target < g.size
  /-- Back-edges between kept operations stay in their block. -/
  inBlock : ∀ u t, ⟨u, t, true⟩ ∈ g.edges → ∀ a b, g.ops[u]? = some a → g.ops[t]? = some b →
    a.kind.isStripped = false → b.kind.isStripped = false → a.block = b.block
  /-- Every forward edge raises some numbering of the operations. -/
  ranked : ∃ rank : Nat → Nat, ∀ u t, ⟨u, t, false⟩ ∈ g.edges → rank u < rank t

/-- Operations without a defect have new, different names and proper latencies, and they
    lie in blocks that there are. -/
theorem operationDefects_eq_nil {α : Type} [Scalar α] {blocks : Nat} {seen : List String}
    {ops : List (Operation α)} (h : operationDefects blocks seen ops = []) :
    (ops.map (·.name)).Nodup ∧ (∀ op ∈ ops, op.name ∉ seen) ∧
      (∀ op ∈ ops, isLatency op.latency = true) ∧ ∀ op ∈ ops, op.block < blocks := by
  induction ops generalizing seen with
  | nil => exact ⟨List.nodup_nil, fun _ hop => absurd hop List.not_mem_nil,
      fun _ hop => absurd hop List.not_mem_nil, fun _ hop => absurd hop List.not_mem_nil⟩
  | cons op rest ih =>
      rw [operationDefects, List.append_eq_nil_iff, List.append_eq_nil_iff,
        List.append_eq_nil_iff] at h
      rcases h with ⟨⟨⟨hname, hblock⟩, hlatency⟩, hrest⟩
      rcases ih hrest with ⟨hnodup, hseen, hlatencies, hblocks⟩
      -- Each part of the inspection came back empty, so what it looks for is not there.
      have hnew : op.name ∉ seen := by
        intro hmem
        rw [if_pos (List.contains_iff_mem.mpr hmem)] at hname
        cases hname
      have hproper : isLatency op.latency = true := by
        by_contra hbad
        rw [if_neg hbad] at hlatency
        cases hlatency
      have hinside : op.block < blocks := by
        by_contra hoff
        rw [if_pos (Nat.le_of_not_lt hoff)] at hblock
        cases hblock
      refine ⟨?_, ?_, ?_, ?_⟩
      · rw [List.map_cons, List.nodup_cons]
        refine ⟨fun hmem => ?_, hnodup⟩
        rcases List.mem_map.mp hmem with ⟨other, hother, heq⟩
        exact hseen other hother (heq ▸ List.mem_cons_self)
      · exact List.forall_mem_cons.mpr
          ⟨hnew, fun other hother hmem => hseen other hother (List.mem_cons_of_mem _ hmem)⟩
      · exact List.forall_mem_cons.mpr ⟨hproper, hlatencies⟩
      · exact List.forall_mem_cons.mpr ⟨hinside, hblocks⟩

/-- A graph without defects has no defects of operations, also where the inspection
    stops early. -/
theorem operationDefects_of_defects {α : Type} [Scalar α] {g : Graph α} (h : g.defects = []) :
    operationDefects g.blocks.length [] g.ops = [] := by
  simp only [defects] at h
  split at h
  · exact (List.append_eq_nil_iff.mp h).1
  · simp only [List.append_eq_nil_iff] at h
    exact h.1.1.1.1

theorem isLatency_of_defects {α : Type} [Scalar α] {g : Graph α} (h : g.defects = []) :
    ∀ op ∈ g.ops, isLatency op.latency = true :=
  (operationDefects_eq_nil (operationDefects_of_defects h)).2.2.1

theorem block_lt_of_defects {α : Type} [Scalar α] {g : Graph α} (h : g.defects = []) :
    ∀ op ∈ g.ops, op.block < g.blocks.length :=
  (operationDefects_eq_nil (operationDefects_of_defects h)).2.2.2

section

variable {α : Type} {g : Graph α}

/-- An order that is found is a numbering that every forward edge raises. -/
theorem rank_of_topologicalOrder {order : List Nat} (h : g.topologicalOrder = .ok order)
    {u t : Nat} (hedge : ⟨u, t, false⟩ ∈ g.edges) : order.idxOf u < order.idxOf t := by
  have hforward : (⟨u, t, false⟩ : Dependency) ∈ g.forwardEdges :=
    List.mem_filter.mpr ⟨hedge, rfl⟩
  have harrow : (u, t) ∈ g.forwardEdges.map fun e => (e.source, e.target) :=
    List.mem_map.mpr ⟨_, hforward, rfl⟩
  simp only [topologicalOrder] at h
  split at h
  · cases h
  · next hinside =>
    split at h
    · next found hfound =>
      cases h
      have hlt : ∀ id ∈ [u, t], id < g.size := by
        intro id hid
        have hnot := List.find?_eq_none.mp hinside id (List.mem_flatMap.mpr ⟨_, harrow, hid⟩)
        simpa using hnot
      exact linearExtension?_rank hfound harrow (hlt u List.mem_cons_self)
        (hlt t (List.mem_cons_of_mem _ List.mem_cons_self))
    · cases h

/-- A graph without defects is formed as a model needs it. -/
theorem formed_of_defects [Scalar α] (h : g.defects = []) : g.Formed := by
  have hnames := (operationDefects_eq_nil (operationDefects_of_defects h)).1
  simp only [defects] at h
  split at h
  · next hdangling =>
    -- Some edge leads nowhere, and that is a defect.
    rw [List.append_eq_nil_iff] at h
    rw [h.2] at hdangling
    cases hdangling
  · next hdangling =>
    rw [List.append_eq_nil_iff, List.append_eq_nil_iff, List.append_eq_nil_iff,
      List.append_eq_nil_iff] at h
    rcases h with ⟨⟨⟨⟨_, _⟩, _⟩, hback⟩, hcycles⟩
    refine ⟨hnames, ?_, ?_, ?_⟩
    · intro e he
      have hnil : g.danglingEdges = [] := by simpa using hdangling
      have hnot := List.filter_eq_nil_iff.mp hnil e he
      simpa using hnot
    · intro u t hedge a b ha hb hkepta hkeptb
      have htest : backEdgeDefects a b = [] := by
        have hmem := List.flatMap_eq_nil_iff.mp hback ⟨u, t, true⟩
          (List.mem_filter.mpr ⟨hedge, rfl⟩)
        simpa only [node?, ha, hb] using hmem
      simp only [backEdgeDefects, hkepta, hkeptb, Bool.false_or] at htest
      split at htest
      · next heq => exact beq_iff_eq.mp heq
      · cases htest
    · cases horder : g.topologicalOrder with
      | ok order => exact ⟨order.idxOf, fun u t hedge => rank_of_topologicalOrder horder hedge⟩
      | error e =>
          rw [horder] at hcycles
          cases hcycles

namespace Formed

variable {v : View α}

/-- A formed graph has a view. -/
theorem exists_view (h : g.Formed) : ∃ v, View.ofGraph g = .ok v := by
  rcases h.ranked with ⟨rank, hrank⟩
  exact View.exists_ofGraph hrank

/-- The nodes of the view have different names. -/
theorem node_names_nodup (h : g.Formed) (hview : View.ofGraph g = .ok v) :
    (v.nodes.map (·.name)).Nodup := by
  rw [(View.ofGraph_eq_ok_iff.mp hview).1, keptNodes, List.map_map]
  -- The kept operations are a part of all operations, in the same order.
  have hsub : ((g.ops.zipIdx.filter fun p => !p.1.kind.isStripped).map fun p => p.1.name).Sublist
      (g.ops.zipIdx.map fun p => p.1.name) := List.filter_sublist.map _
  have hall : (g.ops.zipIdx.map fun p => p.1.name) = g.ops.map (·.name) := by
    rw [← List.zipIdx_map_fst 0 g.ops, List.map_map, List.zipIdx_map_fst]
    rfl
  rw [hall] at hsub
  exact hsub.nodup h.names

/-- The back pairs of the view stay in their block. -/
theorem backPairs_block (h : g.Formed) (hview : View.ofGraph g = .ok v) :
    ∀ p ∈ v.backPairs, p.1.block = p.2.block := by
  intro p hp
  rcases (View.mem_backPairs_iff hview).mp hp with ⟨ha, hb, hedge⟩
  rcases (View.mem_nodes_iff hview).mp ha with ⟨a, hopa, hkepta, heqa⟩
  rcases (View.mem_nodes_iff hview).mp hb with ⟨b, hopb, hkeptb, heqb⟩
  rw [heqa, heqb]
  exact h.inBlock _ _ hedge a b hopa hopb hkepta hkeptb

end Formed

/-- The nodes of the view have finite latencies. -/
theorem isFinite_node_of_defects [Scalar α] {v : View α} (h : g.defects = [])
    (hview : View.ofGraph g = .ok v) : ∀ n ∈ v.nodes, Scalar.isFinite n.latency = true := by
  intro n hn
  rcases (View.mem_nodes_iff hview).mp hn with ⟨op, hop, _, heq⟩
  have hlatency := isLatency_of_defects h op (List.mem_of_getElem? hop)
  rw [isLatency, Bool.and_eq_true] at hlatency
  rw [heq]
  exact hlatency.1

end

variable {g : Graph Rat}

theorem isLatency_iff (x : Rat) : isLatency x = true ↔ 0 ≤ x := by
  have hfinite : Scalar.isFinite x = true := rfl
  rw [isLatency, hfinite, Bool.true_and, Bool.not_eq_true', decide_eq_false_iff_not]
  exact not_lt

/-- A graph without defects is fit for scheduling. -/
theorem fit_of_defects (h : g.defects = []) : g.Fit := by
  have hformed := formed_of_defects h
  exact ⟨hformed.names, fun op hop => (isLatency_iff _).mp (isLatency_of_defects h op hop),
    hformed.joined, hformed.inBlock, hformed.ranked⟩

/-- A graph without defects has each supernode of each block once. -/
theorem countP_superNode (h : g.defects = []) {b : Block} (hb : b ∈ g.blocks) (role : SuperRole) :
    g.ops.countP (fun op => op.kind == role.kind && op.block == b.id) = 1 := by
  have hnone : g.superNodeDefects b role = [] := by
    simp only [defects] at h
    split at h
    · next hdangling =>
      rw [List.append_eq_nil_iff] at h
      rw [h.2] at hdangling
      cases hdangling
    · simp only [List.append_eq_nil_iff, List.flatMap_eq_nil_iff] at h
      have hblock := h.1.1.1.2 b hb
      cases role with
      | source => exact hblock.1
      | sink => exact hblock.2
  rw [superNodeDefects] at hnone
  split at hnone
  · cases hnone
  · assumption
  · cases hnone

namespace Fit

variable {v : View Rat}

theorem formed (h : g.Fit) : g.Formed := ⟨h.names, h.joined, h.inBlock, h.ranked⟩

/-- A fit graph has a view. -/
theorem exists_view (h : g.Fit) : ∃ v, View.ofGraph g = .ok v := h.formed.exists_view

/-- The nodes of the view have different names. -/
theorem node_names_nodup (h : g.Fit) (hview : View.ofGraph g = .ok v) :
    (v.nodes.map (·.name)).Nodup := h.formed.node_names_nodup hview

/-- A node with the name of an operation is that operation, which is kept. -/
theorem eq_nodeOf (h : g.Fit) (hview : View.ofGraph g = .ok v) {id : Nat} {op : Operation Rat}
    (hop : g.ops[id]? = some op) {n : View.Node Rat} (hn : n ∈ v.nodes)
    (hname : n.name = op.name) : n = View.nodeOf id op ∧ op.kind.isStripped = false := by
  rcases (View.mem_nodes_iff hview).mp hn with ⟨op', hop', hkept, heq⟩
  -- Operations with the same name are the same operation.
  have hplace : n.origin = id := by
    refine (List.getElem?_inj (l := g.ops.map (·.name)) ?_ h.names).mp ?_
    · rw [List.length_map]
      exact (List.getElem?_eq_some_iff.mp hop').1
    · rw [List.getElem?_map, List.getElem?_map, hop, hop', Option.map_some, Option.map_some,
        ← hname, heq]
      rfl
  rw [hplace, hop] at hop'
  cases hop'
  exact ⟨hplace ▸ heq, hkept⟩

/-- No node of the view has a negative latency. -/
theorem node_latency (h : g.Fit) (hview : View.ofGraph g = .ok v) :
    ∀ n ∈ v.nodes, 0 ≤ n.latency := by
  intro n hn
  rcases (View.mem_nodes_iff hview).mp hn with ⟨op, hop, _, heq⟩
  rw [heq]
  exact h.latencies op (List.mem_of_getElem? hop)

/-- The forward pairs of the view raise a numbering of the names. -/
theorem forwardPairs_rank (h : g.Fit) (hview : View.ofGraph g = .ok v) :
    ∃ rank : String → Nat, ∀ p ∈ v.forwardPairs, rank p.1.name < rank p.2.name := by
  rcases h.ranked with ⟨rank, hrank⟩
  -- A name is numbered by the operation that has it.
  refine ⟨fun name => rank ((g.ops.map (·.name)).idxOf name), fun p hp => ?_⟩
  rcases (View.mem_forwardPairs_iff hview).mp hp with ⟨ha, hb, hs⟩
  have hplace : ∀ n ∈ v.nodes, (g.ops.map (·.name)).idxOf n.name = n.origin := by
    intro n hn
    rcases (View.mem_nodes_iff hview).mp hn with ⟨op, hop, _, heq⟩
    have hget : (g.ops.map (·.name))[n.origin]? = some n.name := by
      rw [List.getElem?_map, hop, heq]
      rfl
    rcases List.getElem?_eq_some_iff.mp hget with ⟨hlt, hat⟩
    rw [← hat]
    exact h.names.idxOf_getElem n.origin hlt
  simp only [hplace p.1 ha, hplace p.2 hb]
  exact g.lt_of_mem_keptSuccessors hrank hs

/-- The back pairs of the view stay in their block. -/
theorem backPairs_block (h : g.Fit) (hview : View.ofGraph g = .ok v) :
    ∀ p ∈ v.backPairs, p.1.block = p.2.block := h.formed.backPairs_block hview

end Fit

/-- The smallest loop: one value that every iteration takes over from the one
    before. -/
def selfLoop : Graph Rat where
  name := "self"
  ops := [.ofKind "p" .phi 0, .ofKind "ssrc_0" .superSource 0, .ofKind "ssink_0" .superSink 0]
  register := ["p", "ssrc_0", "ssink_0"]
  edges := [⟨0, 0, true⟩, ⟨1, 0, false⟩, ⟨0, 2, false⟩]
  blocks := [{ id := 0, name := "b", members := [0], source := some 1, sink := some 2 }]

theorem selfLoop_defects : selfLoop.defects = [] := rfl

/-- A loop that counts up. A constant is added to the count, which takes two and a
    half cycles, the sum is compared, and a branch leads back. -/
def countingLoop : Graph Rat where
  name := "loop"
  ops := [.ofKind "one" .constant 0, .ofKind "i" .phi 0,
    { name := "next", kind := .add, block := 0, latency := 5 / 2 }, .ofKind "cmp" .icmp 0,
    .ofKind "br" .br 0, .ofKind "ssrc_0" .superSource 0, .ofKind "ssink_0" .superSink 0]
  register := ["one", "i", "next", "cmp", "br", "ssrc_0", "ssink_0"]
  edges := [⟨0, 2, false⟩, ⟨1, 2, false⟩, ⟨2, 3, false⟩, ⟨3, 4, false⟩, ⟨2, 1, true⟩,
    ⟨4, 1, true⟩, ⟨5, 0, false⟩, ⟨5, 1, false⟩, ⟨4, 6, false⟩]
  blocks := [
    { id := 0, name := "body", members := [0, 1, 2, 3, 4], source := some 5, sink := some 6 }]

theorem countingLoop_defects : countingLoop.defects = [] := by decide +kernel

end Graph

end CyclePlan
