import Mathlib.Data.List.Nodup
import Mathlib.Logic.Relation
import CyclePlan.Proofs.Graph.Fit
import CyclePlan.Proofs.Graph.LeastExtension

/-!
# What a View Preserves

A view has the precedence of its graph.

Taking operations out of a graph would lose every path that runs through them.
A view joins two kept operations instead wherever such a path leads from one to
the other (`Bridged`), and this is all that has to be known about its forward
edges. A path of the graph between kept operations is cut at the kept ones in
between, and each of the pieces is an edge of the view, so the two have the same
paths between kept operations (`transGen_bridges_iff`). In particular a view
fails to exist exactly if a cycle runs through a kept operation. Cycles of
stripped operations alone are not seen, and they do no harm, since nothing that
is scheduled depends on them.

The edges of the graph have to join operations. Otherwise a path could run
through a number that is neither kept nor stripped.

## Main definitions

* `Graph.IsKept`, `Graph.IsStripped`, `Graph.Precedes`: The graph as a relation.
* `Graph.Bridged`: A path whose inner nodes are stripped.
* `View.Projects`: A view is the projection of a graph.

## Theorems

* `Graph.mem_keptSuccessors_iff_bridged`: What a walk meets.
* `Graph.bridges_nodup`: No edge of a view is repeated.
* `Graph.transGen_bridges_iff`: The paths of a view.
* `View.order_sorts`: The order of a view sorts its edges.
* `View.exists_ofGraph_iff`: Which graphs have a view.
* `View.ofGraph_preserves_precedence`: A view is the projection of its graph.
-/

namespace CyclePlan

namespace Graph

variable {α : Type} (g : Graph α)

/-- A number is that of an operation that is kept. -/
def IsKept (id : Nat) : Prop := ∃ op, g.ops[id]? = some op ∧ op.kind.isStripped = false

/-- A number is that of an operation that is left out of the view. -/
def IsStripped (id : Nat) : Prop := ∃ op, g.ops[id]? = some op ∧ op.kind.isStripped = true

instance : DecidablePred g.IsKept := fun id =>
  decidable_of_iff ((g.ops[id]?).any (fun op => !op.kind.isStripped) = true) (by
    rw [IsKept]
    cases g.ops[id]? <;> simp)

/-- A forward dependency joins two numbers. -/
def Precedes (u t : Nat) : Prop := ⟨u, t, false⟩ ∈ g.edges

/-- Every edge joins two operations. -/
def IsJoined : Prop := ∀ e ∈ g.edges, e.source < g.size ∧ e.target < g.size

/-- A forward path of at least one edge leads from one number to another, and its
    inner nodes are all stripped. -/
inductive Bridged : Nat → Nat → Prop
  | edge {u s : Nat} (h : g.Precedes u s) : Bridged u s
  | through {u t s : Nat} (h : g.Precedes u t) (hstripped : g.IsStripped t)
    (hrest : Bridged t s) : Bridged u s

variable {g} {u t s i j : Nat}

theorem mem_keptIds_iff_isKept : u ∈ g.keptIds ↔ g.IsKept u := by
  rw [← g.map_origin_keptNodes, List.mem_map]
  constructor
  · rintro ⟨n, hn, rfl⟩
    rcases g.mem_keptNodes_iff.mp hn with ⟨op, hop, hkept, _⟩
    exact ⟨op, hop, hkept⟩
  · rintro ⟨op, hop, hkept⟩
    exact ⟨View.nodeOf u op, g.mem_keptNodes_iff.mpr ⟨op, hop, hkept, rfl⟩, rfl⟩

theorem not_isKept_iff (h : u < g.size) : ¬ g.IsKept u ↔ g.IsStripped u := by
  have hop : g.ops[u]? = some g.ops[u] := List.getElem?_eq_getElem h
  rw [IsKept, IsStripped, hop]
  cases hkind : g.ops[u].kind.isStripped <;> simp [hkind]

theorem IsJoined.target_lt (h : g.IsJoined) (hedge : g.Precedes u t) : t < g.size :=
  (h _ hedge).2

/-- What a walk from a node meets is what bridges lead to. -/
theorem mem_keptSuccessors_iff_bridged (hjoined : g.IsJoined) :
    s ∈ g.keptSuccessors u ↔ g.IsKept s ∧ g.Bridged u s := by
  have htarget : ∀ {u t}, g.Precedes u t → t ∈ (g.forwardEdges.map (·.target)).eraseDups := by
    intro u t h
    rw [List.mem_eraseDups]
    exact List.mem_map_of_mem (List.mem_filter.mpr ⟨h, rfl⟩)
  have hstops : ∀ t, g.keptIds.contains t = true ↔ g.IsKept t := fun t =>
    List.contains_iff_mem.trans mem_keptIds_iff_isKept
  rw [mem_keptSuccessors_iff]
  constructor
  · rintro ⟨t, ht, hleads⟩
    refine ⟨(hstops s).mp hleads.stops_last, ?_⟩
    -- The edge that leads to the first node of the path comes in front of it.
    have hfront : ∀ u, g.Precedes u t → g.Bridged u s := by
      clear ht
      induction hleads with
      | stop _ _ => exact fun u hu => .edge hu
      | @pass t' w s _ hpass hnext _ ih =>
          intro u hu
          have hstripped : g.IsStripped t' := by
            rw [← not_isKept_iff (hjoined.target_lt hu), ← hstops, hpass]
            exact Bool.false_ne_true
          exact .through hu hstripped (ih t' (g.mem_successors_iff.mp hnext))
    exact hfront u (g.mem_successors_iff.mp ht)
  · rintro ⟨hkept, hbridged⟩
    induction hbridged with
    | edge h =>
        exact ⟨_, g.mem_successors_iff.mpr h, .stop (htarget h) ((hstops _).mpr hkept)⟩
    | @through u t s h hstripped _ ih =>
        rcases ih hkept with ⟨w, hw, hleads⟩
        have hpass : g.keptIds.contains t = false := by
          rw [← Bool.not_eq_true, hstops, not_isKept_iff (hjoined.target_lt h)]
          exact hstripped
        exact ⟨t, g.mem_successors_iff.mpr h, .pass (htarget h) hpass hw hleads⟩

/-- In the loop that counts, the comparison comes before the end of the block, by
    way of the branch. -/
example : countingLoop.keptSuccessors 3 = [6] := by cbv

/-! ### Paths -/

/-- Two kept operations are joined by an edge of the view. -/
def Joins (g : Graph α) (u s : Nat) : Prop := g.IsKept u ∧ g.IsKept s ∧ g.Bridged u s

theorem Bridged.transGen (h : g.Bridged u s) : Relation.TransGen g.Precedes u s := by
  induction h with
  | edge h => exact .single h
  | through h _ _ ih => exact .head h ih

/-- A path to a kept operation is a bridge to the first kept one on it, and goes
    on over bridges. -/
theorem exists_bridged_of_transGen (hjoined : g.IsJoined) (hs : g.IsKept s)
    (hpath : Relation.TransGen g.Precedes u s) :
    ∃ w, g.IsKept w ∧ g.Bridged u w ∧ Relation.ReflTransGen g.Joins w s := by
  induction hpath using Relation.TransGen.head_induction_on with
  | single h => exact ⟨s, hs, .edge h, .refl⟩
  | @head u t h _ ih =>
      rcases ih with ⟨w, hw, hbridged, hrest⟩
      by_cases ht : g.IsKept t
      · exact ⟨t, ht, .edge h, .head ⟨ht, hw, hbridged⟩ hrest⟩
      · exact ⟨w, hw, .through h ((not_isKept_iff (hjoined.target_lt h)).mp ht) hbridged, hrest⟩

/-- Between kept operations, paths over bridges are paths of the graph. -/
theorem transGen_joins_iff (hjoined : g.IsJoined) (hu : g.IsKept u) (hs : g.IsKept s) :
    Relation.TransGen g.Joins u s ↔ Relation.TransGen g.Precedes u s := by
  constructor
  · intro hpath
    exact hpath.lift' id fun _ _ h => h.2.2.transGen
  · intro hpath
    rcases exists_bridged_of_transGen hjoined hs hpath with ⟨w, hw, hbridged, hrest⟩
    exact .head' ⟨hu, hw, hbridged⟩ hrest

/-! ### Positions -/

theorem isKept_origin {a : View.Node α} (h : g.keptNodes[i]? = some a) : g.IsKept a.origin := by
  rcases g.mem_keptNodes_iff.mp (List.mem_of_getElem? h) with ⟨op, hop, hkept, _⟩
  exact ⟨op, hop, hkept⟩

/-- An edge of the view joins the places of two operations that a bridge joins. -/
theorem mem_bridges_iff_bridged (hjoined : g.IsJoined) :
    ⟨i, j⟩ ∈ g.bridges ↔ ∃ a b, g.keptNodes[i]? = some a ∧ g.keptNodes[j]? = some b ∧
      g.Bridged a.origin b.origin := by
  rw [mem_bridges_iff]
  refine exists₂_congr fun a b => and_congr_right fun _ => and_congr_right fun hb => ?_
  exact (mem_keptSuccessors_iff_bridged hjoined).trans (and_iff_right (isKept_origin hb))

theorem exists_keptNodes_of_isKept (h : g.IsKept u) :
    ∃ (i : Nat) (a : View.Node α), g.keptNodes[i]? = some a ∧ a.origin = u := by
  rcases h with ⟨op, hop, hkept⟩
  have hmem : View.nodeOf u op ∈ g.keptNodes :=
    g.mem_keptNodes_iff.mpr ⟨op, hop, hkept, rfl⟩
  rcases List.mem_iff_getElem?.mp hmem with ⟨i, hi⟩
  exact ⟨i, _, hi, rfl⟩

/-- The edges of a view have the paths of the graph. -/
theorem transGen_bridges_iff (hjoined : g.IsJoined) {a b : View.Node α}
    (ha : g.keptNodes[i]? = some a) (hb : g.keptNodes[j]? = some b) :
    Relation.TransGen (fun i j => ⟨i, j⟩ ∈ g.bridges) i j ↔
      Relation.TransGen g.Precedes a.origin b.origin := by
  constructor
  · intro hpath
    -- Positions are read as the operations that they stand for.
    let origin (k : Nat) : Nat := ((g.keptNodes[k]?).map (·.origin)).getD 0
    have hread := hpath.lift' (p := g.Precedes) origin fun k l hkl => by
      rcases (mem_bridges_iff_bridged hjoined).mp hkl with ⟨c, d, hc, hd, hbridged⟩
      change Relation.TransGen g.Precedes (origin k) (origin l)
      simp only [origin, hc, hd]
      exact hbridged.transGen
    change Relation.TransGen g.Precedes (origin i) (origin j) at hread
    simpa only [origin, ha, hb, Option.map_some, Option.getD_some] using hread
  · intro hpath
    let place (id : Nat) : Nat := (g.keptPosition? id).getD 0
    have hplace : ∀ {k c}, g.keptNodes[k]? = some c → place c.origin = k := by
      intro k c hc
      simp only [place, g.keptPosition?_eq_some_iff.mpr ⟨c, hc, rfl⟩, Option.getD_some]
    rw [← transGen_joins_iff hjoined (isKept_origin ha) (isKept_origin hb)] at hpath
    have hwrite := hpath.lift (p := fun i j => ⟨i, j⟩ ∈ g.bridges) place fun u s hus => by
      rcases exists_keptNodes_of_isKept hus.1 with ⟨k, c, hc, rfl⟩
      rcases exists_keptNodes_of_isKept hus.2.1 with ⟨l, d, hd, rfl⟩
      change (⟨place c.origin, place d.origin⟩ : View.Edge) ∈ g.bridges
      rw [hplace hc, hplace hd]
      exact (mem_bridges_iff_bridged hjoined).mpr ⟨c, d, hc, hd, hus.2.2⟩
    change Relation.TransGen (fun i j => ⟨i, j⟩ ∈ g.bridges) (place a.origin)
      (place b.origin) at hwrite
    rwa [hplace ha, hplace hb] at hwrite

/-- The edges of a view join two of its nodes. -/
theorem bridges_lt (g : Graph α) : ∀ e ∈ g.bridges.map fun e => (e.source, e.target),
    e.1 < g.keptNodes.length ∧ e.2 < g.keptNodes.length := by
  intro e he
  rcases List.mem_map.mp he with ⟨⟨i, j⟩, hmem, rfl⟩
  rcases g.mem_bridges_iff.mp hmem with ⟨a, b, ha, hb, _⟩
  exact ⟨(List.getElem?_eq_some_iff.mp ha).1, (List.getElem?_eq_some_iff.mp hb).1⟩

/-- No edge of a view is repeated. -/
theorem bridges_nodup : g.bridges.Nodup := by
  rw [bridges, List.nodup_flatMap]
  constructor
  · intro p _
    -- Two consumers have two places, so one producer has no edge twice.
    refine (walk_nodup (nodup_eraseDups _)).filterMap fun s t e hs ht => ?_
    rcases Option.map_eq_some_iff.mp hs with ⟨k, hk, rfl⟩
    rcases Option.map_eq_some_iff.mp ht with ⟨l, hl, heq⟩
    cases heq
    rcases g.keptPosition?_eq_some_iff.mp hk with ⟨c, hc, rfl⟩
    rcases g.keptPosition?_eq_some_iff.mp hl with ⟨d, hd, rfl⟩
    rw [Option.some.inj (hc.symm.trans hd)]
  · -- Edges of different producers start at different places.
    have hplaces : (g.keptIds.zipIdx.map (·.2)).Nodup := by
      rw [List.zipIdx_map_snd]
      exact List.nodup_range'
    refine (List.pairwise_map.mp hplaces).imp fun {p q} hne e hp hq => hne ?_
    rcases List.mem_filterMap.mp hp with ⟨_, _, hp⟩
    rcases List.mem_filterMap.mp hq with ⟨_, _, hq⟩
    rcases Option.map_eq_some_iff.mp hp with ⟨_, _, rfl⟩
    rcases Option.map_eq_some_iff.mp hq with ⟨_, _, heq⟩
    exact (View.Edge.mk.inj heq).1.symm

end Graph

open CyclePlan.Graph

namespace View

variable {α : Type} {g : Graph α} {v : View α}

/-- The number of the operation that a position stands for. -/
def origin? (v : View α) (i : Nat) : Option Nat := (v.nodes[i]?).map (·.origin)

/-- A view is the projection of a graph. -/
structure Projects (v : View α) (g : Graph α) : Prop where
  /-- The nodes are the kept operations, with their attributes. -/
  nodes : ∀ n, n ∈ v.nodes ↔
    ∃ op, g.ops[n.origin]? = some op ∧ op.kind.isStripped = false ∧ n = nodeOf n.origin op
  /-- They are in the order of their numbers. -/
  ascending : v.nodes.Pairwise fun a b => a.origin < b.origin
  /-- No forward edge is repeated. -/
  nodup : v.forward.Nodup
  /-- A forward edge is a path through stripped operations. -/
  forward : ∀ i j, ⟨i, j⟩ ∈ v.forward ↔
    ∃ a b, v.nodes[i]? = some a ∧ v.nodes[j]? = some b ∧ g.Bridged a.origin b.origin
  /-- Kept operations are reached from each other as in the graph. -/
  paths : ∀ i j a b, v.nodes[i]? = some a → v.nodes[j]? = some b →
    (Relation.TransGen (fun i j => ⟨i, j⟩ ∈ v.forward) i j ↔
      Relation.TransGen g.Precedes a.origin b.origin)
  /-- The back-edges are those with both ends kept, in the order of the graph. -/
  back : v.back.map (fun e => (v.origin? e.source, v.origin? e.target)) =
    (g.backEdges.filter fun e => g.IsKept e.source ∧ g.IsKept e.target).map
      fun e => (some e.source, some e.target)

theorem keptIds_ascending (g : Graph α) : g.keptIds.Pairwise (· < ·) := by
  have hsub : g.keptIds.Sublist (g.ops.zipIdx.map (·.2)) := List.filter_sublist.map _
  refine List.Pairwise.sublist hsub ?_
  rw [List.zipIdx_map_snd]
  exact List.pairwise_lt_range'

/-- Finding a view is finding a linear extension of the bridges. -/
theorem map_order_ofGraph (g : Graph α) :
    (ofGraph g).toOption.map (·.order) =
      Graph.linearExtension? g.keptNodes.length (g.bridges.map fun e => (e.source, e.target)) := by
  cases hview : ofGraph g with
  | ok v =>
      rcases ofGraph_eq_ok_iff.mp hview with ⟨hnodes, hforward, _, horder, _⟩
      rw [hnodes, hforward] at horder
      exact horder.symm
  | error e =>
      -- An order would have made a view.
      cases horder : Graph.linearExtension? g.keptNodes.length
          (g.bridges.map fun e => (e.source, e.target)) with
      | none => rfl
      | some order =>
          have hview' : ofGraph g = .ok ⟨_, _, _, order, _⟩ :=
            ofGraph_eq_ok_iff.mpr ⟨rfl, rfl, rfl, horder, rfl⟩
          rw [hview] at hview'
          cases hview'

/-- The order of a view sorts its edges. -/
theorem order_sorts (g : Graph α) :
    Graph.Sorts g.keptNodes.length (fun i j => ⟨i, j⟩ ∈ g.bridges)
      ((ofGraph g).toOption.map (·.order)) := by
  have hedge : (fun i j => (i, j) ∈ g.bridges.map fun e => (e.source, e.target))
      = fun i j => ⟨i, j⟩ ∈ g.bridges := by
    funext i j
    rw [eq_iff_iff, List.mem_map]
    constructor
    · rintro ⟨⟨k, l⟩, hmem, heq⟩
      cases heq
      exact hmem
    · exact fun hmem => ⟨_, hmem, rfl⟩
  rw [map_order_ofGraph, ← hedge]
  exact Graph.linearExtension?_sorts (Graph.bridges_lt g)

/-- A graph has a view exactly if no cycle runs through a kept operation. -/
theorem exists_ofGraph_iff (hjoined : g.IsJoined) :
    (∃ v, ofGraph g = .ok v) ↔ ∀ u, g.IsKept u → ¬ Relation.TransGen g.Precedes u u := by
  have hview : (∃ v, ofGraph g = .ok v) ↔ ((ofGraph g).toOption.map (·.order)).isSome := by
    cases ofGraph g <;> simp [Except.toOption]
  rw [hview, (order_sorts g).isSome_iff]
  constructor
  · intro hacyclic u hu hcycle
    rcases exists_keptNodes_of_isKept hu with ⟨i, a, ha, rfl⟩
    exact hacyclic i ((transGen_bridges_iff hjoined ha ha).mpr hcycle)
  · intro hacyclic i hcycle
    -- A cycle of positions starts at one that stands for an operation.
    rcases Relation.TransGen.head'_iff.mp hcycle with ⟨j, hij, _⟩
    rcases g.mem_bridges_iff.mp hij with ⟨a, _, ha, _⟩
    exact hacyclic a.origin (isKept_origin ha) ((transGen_bridges_iff hjoined ha ha).mp hcycle)

/-- Looking up both ends of an edge keeps it exactly if both ends are kept. -/
theorem map_origin?_back (h : ofGraph g = .ok v) :
    v.back.map (fun e => (v.origin? e.source, v.origin? e.target)) =
      (g.backEdges.filter fun e => g.IsKept e.source ∧ g.IsKept e.target).map
        fun e => (some e.source, some e.target) := by
  rcases ofGraph_eq_ok_iff.mp h with ⟨hnodes, _, hback, _⟩
  have hplace : ∀ id, (∃ i, g.keptPosition? id = some i ∧ v.origin? i = some id) ∨
      (g.keptPosition? id = none ∧ ¬ g.IsKept id) := by
    intro id
    cases hpos : g.keptPosition? id with
    | some i =>
        rcases g.keptPosition?_eq_some_iff.mp hpos with ⟨n, hn, rfl⟩
        refine .inl ⟨i, rfl, ?_⟩
        rw [origin?, hnodes, hn]
        rfl
    | none =>
        refine .inr ⟨rfl, fun hkept => ?_⟩
        rcases exists_keptNodes_of_isKept hkept with ⟨i, n, hn, rfl⟩
        rw [g.keptPosition?_eq_some_iff.mpr ⟨n, hn, rfl⟩] at hpos
        cases hpos
  have hkept : ∀ {id i}, g.keptPosition? id = some i → g.IsKept id := by
    intro id i hpos
    rcases g.keptPosition?_eq_some_iff.mp hpos with ⟨n, hn, rfl⟩
    exact isKept_origin hn
  rw [hback]
  induction g.backEdges with
  | nil => rfl
  | cons e rest ih =>
      rcases hplace e.source with ⟨i, hi, hsource⟩ | ⟨hi, hsource⟩
      · rcases hplace e.target with ⟨j, hj, htarget⟩ | ⟨hj, htarget⟩
        · rw [List.filter_cons_of_pos (by simp [hkept hi, hkept hj]), List.map_cons, ← ih]
          simp [hi, hj, hsource, htarget]
        · rw [List.filter_cons_of_neg (by simp [htarget]), ← ih]
          simp [hi, hj]
      · rw [List.filter_cons_of_neg (by simp [hsource]), ← ih]
        simp [hi]

/-- A graph whose edges join operations has a view exactly if no forward cycle runs
    through a kept operation, and its view is its projection. -/
theorem ofGraph_preserves_precedence (hjoined : g.IsJoined) :
    ((∃ v, ofGraph g = .ok v) ↔ ∀ u, g.IsKept u → ¬ Relation.TransGen g.Precedes u u) ∧
      ∀ v, ofGraph g = .ok v → v.Projects g := by
  refine ⟨exists_ofGraph_iff hjoined, fun v hv => ?_⟩
  rcases ofGraph_eq_ok_iff.mp hv with ⟨hnodes, hforward, _⟩
  refine ⟨fun n => mem_nodes_iff hv, ?_, ?_, ?_, ?_, map_origin?_back hv⟩
  · rw [hnodes, ← List.pairwise_map (f := View.Node.origin) (R := (· < ·)), g.map_origin_keptNodes]
    exact keptIds_ascending g
  · rw [hforward]
    exact bridges_nodup
  · rw [hforward, hnodes]
    exact fun i j => mem_bridges_iff_bridged hjoined
  · rw [hforward, hnodes]
    exact fun i j a b ha hb => transGen_bridges_iff hjoined ha hb

/-- A constant and a branch are taken out of the loop that counts. -/
theorem ofGraph_preserves_precedence_countingLoop :
    countingLoop.IsJoined ∧
      ((∃ v, ofGraph countingLoop = .ok v) ↔
        ∀ u, countingLoop.IsKept u → ¬ Relation.TransGen countingLoop.Precedes u u) ∧
      ∀ v, ofGraph countingLoop = .ok v → v.Projects countingLoop := by
  have hjoined : countingLoop.IsJoined := (fit_of_defects countingLoop_defects).joined
  exact ⟨hjoined, ofGraph_preserves_precedence hjoined⟩

end View

end CyclePlan
