import CyclePlan.Proofs.Engine.Potentials
import CyclePlan.Proofs.Ordering

/-!
# Waiting and Dependencies

Why operations that wait for each other never wait in a circle.

The arcs of ordering jump between operations that have nothing to do with each other,
and several calls with different limits add several systems of them. All of them
follow the order of the view, though, and so do the dependencies. The place of a
node in that order is a rank that every arc raises (`View.place_lt_of_forwardPairs`,
`View.waitingPairs_cases`). The one exception is a class without any units, whose
operations wait for themselves. Such an arc is harmless as long as the operation
takes no time, and cannot be satisfied otherwise.

## Main definitions

* `View.place`: The place of a node in the order of the view.
* `View.waitingArcs`: Operations that wait, as arcs.
* `View.orderedArcs`: Dependencies and operations that wait, as one system.

## Theorems

* `View.place_lt_of_forwardPairs`, `View.waitingPairs_cases`: Arcs follow the order.
* `View.freeUnits_of_meets`, `View.orderedArcs_noGain`: When the system has no gain.
* `View.startsHold_and_waits_iff`: What its potentials are.
-/

namespace CyclePlan

open Arc

namespace View

variable {g : Graph Rat} {v : View Rat} {limits : Limits} {ls : List Limits}
  {sameBlockOnly : Bool}

/-! ### Places -/

/-- The place of a node in the order of the view. -/
def place (v : View Rat) (n : Node Rat) : Nat :=
  v.order.idxOf ((v.nodes.map (·.name)).idxOf n.name)

theorem place_of_getElem? (hnames : (v.nodes.map (·.name)).Nodup) {i : Nat} {n : Node Rat}
    (hn : v.nodes[i]? = some n) : v.place n = v.order.idxOf i := by
  rcases List.getElem?_eq_some_iff.mp hn with ⟨hlt, rfl⟩
  have hat : (v.nodes.map (·.name)).idxOf v.nodes[i].name = i := by
    have hidx := hnames.idxOf_getElem i (by rwa [List.length_map])
    rwa [List.getElem_map] at hidx
  rw [place, hat]

/-- Dependencies follow the order. -/
theorem place_lt_of_forwardPairs (hfit : g.Fit) (hview : ofGraph g = .ok v)
    {p : Node Rat × Node Rat} (hp : p ∈ v.forwardPairs) : v.place p.1 < v.place p.2 := by
  have hnames := hfit.node_names_nodup hview
  rcases List.mem_filterMap.mp hp with ⟨e, he, hends⟩
  rcases ends?_eq_some_iff.mp hends with ⟨hsource, htarget⟩
  rw [place_of_getElem? hnames hsource, place_of_getElem? hnames htarget]
  rcases ofGraph_eq_ok_iff.mp hview with ⟨_, _, _, horder, _⟩
  exact Graph.linearExtension?_rank horder (List.mem_map_of_mem he)
    (List.getElem?_eq_some_iff.mp hsource).1 (List.getElem?_eq_some_iff.mp htarget).1

/-- The nodes are listed by their places. -/
theorem orderedNodes_pairwise (hfit : g.Fit) (hview : ofGraph g = .ok v) :
    v.orderedNodes.Pairwise fun a b => v.place a < v.place b := by
  have hnames := hfit.node_names_nodup hview
  rcases ofGraph_eq_ok_iff.mp hview with ⟨_, _, _, horder, _⟩
  have hnodup : v.order.Nodup :=
    (Graph.linearExtension?_perm horder).nodup_iff.mpr List.nodup_range
  rw [orderedNodes, List.pairwise_filterMap, List.pairwise_iff_getElem]
  intro i j hi hj hlt a ha b hb
  rw [place_of_getElem? hnames ha, place_of_getElem? hnames hb, hnodup.idxOf_getElem,
    hnodup.idxOf_getElem]
  exact hlt

/-- An operation waits for one at an earlier place, or for itself if its class has no
    units. -/
theorem waitingPairs_cases (hfit : g.Fit) (hview : ofGraph g = .ok v)
    {p : Node Rat × Node Rat} (hp : p ∈ waitingPairs v limits) :
    v.place p.1 < v.place p.2 ∨ (p.1 = p.2 ∧ limits.capacityOf? p.1.kind = some 0) := by
  rcases List.mem_flatMap.mp hp with ⟨block, _, hblock⟩
  rcases List.mem_flatMap.mp hblock with ⟨⟨unit, capacity⟩, hlimit, hpair⟩
  rcases mem_pairsAtDistance_iff.mp hpair with ⟨i, hearlier, hlater⟩
  cases capacity with
  | zero =>
      have hunit := (List.mem_filter.mp (List.mem_of_getElem? hearlier)).2
      rw [Bool.and_eq_true, beq_iff_eq, beq_iff_eq] at hunit
      refine .inr ⟨Option.some.inj (hearlier.symm.trans hlater), ?_⟩
      exact Option.bind_eq_some_iff.mpr ⟨unit, hunit.2, NameMap.get?_eq_some_iff.mpr hlimit⟩
  | succ k =>
      have hqueue : (v.orderedUnits block unit).Pairwise fun a b => v.place a < v.place b :=
        (orderedNodes_pairwise hfit hview).filter _
      rcases List.getElem?_eq_some_iff.mp hearlier with ⟨hi, heq⟩
      rcases List.getElem?_eq_some_iff.mp hlater with ⟨hj, heq'⟩
      rw [← heq, ← heq']
      exact .inl (List.pairwise_iff_getElem.mp hqueue i (i + (k + 1)) hi hj (by omega))

/-- Operations of a class without units do wait for themselves. -/
theorem mem_waitingPairs_of_zero (hview : ofGraph g = .ok v) {n : Node Rat} (hn : n ∈ v.nodes)
    (hzero : limits.capacityOf? n.kind = some 0) : (n, n) ∈ waitingPairs v limits := by
  rcases Option.bind_eq_some_iff.mp hzero with ⟨unit, hunit, hcapacity⟩
  have hqueued : n ∈ v.orderedUnits n.block unit := by
    refine List.mem_filter.mpr ⟨(orderedNodes_perm hview).mem_iff.mpr hn, ?_⟩
    rw [Bool.and_eq_true, beq_iff_eq, beq_iff_eq]
    exact ⟨rfl, hunit⟩
  rcases List.mem_iff_getElem?.mp hqueued with ⟨i, hi⟩
  refine List.mem_flatMap.mpr ⟨n.block, v.mem_blocks_iff.mpr ⟨n, hn, rfl⟩, ?_⟩
  refine List.mem_flatMap.mpr ⟨(unit, 0), NameMap.get?_eq_some_iff.mp hcapacity, ?_⟩
  exact mem_pairsAtDistance_iff.mpr ⟨i, hi, hi⟩

/-! ### Arcs -/

/-- Operations that wait, as arcs. -/
def waitingArcs (v : View Rat) (limits : Limits) : List (Arc (Node Rat)) :=
  (waitingPairs v limits).map (arcOf false)

/-- The dependencies that get a constraint and the operations that wait, for several
    limits one after the other. -/
def orderedArcs (v : View Rat) (sameBlockOnly : Bool) (ls : List Limits) :
    List (Arc (Node Rat)) :=
  v.forwardArcs sameBlockOnly ++ ls.flatMap v.waitingArcs

/-- Operations of classes without units take no time. -/
def FreeUnits (v : View Rat) (ls : List Limits) : Prop :=
  ∀ limits ∈ ls, ∀ n ∈ v.nodes, limits.capacityOf? n.kind = some 0 → n.latency = 0

theorem orderedArcs_mem_nodes {a : Arc (Node Rat)} (ha : a ∈ v.orderedArcs sameBlockOnly ls) :
    a.source ∈ v.nodes ∧ a.target ∈ v.nodes := by
  rcases List.mem_append.mp ha with ha | ha
  · exact arcs_mem_nodes (forwardArcs_subset ha)
  · rcases List.mem_flatMap.mp ha with ⟨limits, _, ha⟩
    rcases List.mem_map.mp ha with ⟨p, hp, rfl⟩
    exact mem_nodes_of_waitingPairs hp

theorem cycles_arcOf (p : Node Rat × Node Rat) : cycles (arcOf false p) = ⌈p.1.latency⌉ := rfl

/-- The system has a potential only if operations without units take no time. -/
theorem freeUnits_of_meets (hfit : g.Fit) (hview : ofGraph g = .ok v) {c : Node Rat → Int}
    (hmeets : Meets cycles c (v.orderedArcs sameBlockOnly ls)) : v.FreeUnits ls := by
  intro limits hlimits n hn hzero
  have harc : arcOf false (n, n) ∈ v.orderedArcs sameBlockOnly ls :=
    List.mem_append_right _ (List.mem_flatMap.mpr
      ⟨limits, hlimits, List.mem_map_of_mem (mem_waitingPairs_of_zero hview hn hzero)⟩)
  have hself : c n + ⌈n.latency⌉ ≤ c n := hmeets _ harc
  have hle : n.latency ≤ ((0 : Int) : Rat) := Int.ceil_le.mp (by omega)
  rw [Int.cast_zero] at hle
  exact le_antisymm hle (hfit.node_latency hview n hn)

/-- If they do, then the system has no gain. -/
theorem orderedArcs_noGain (hfit : g.Fit) (hview : ofGraph g = .ok v)
    (hfree : v.FreeUnits ls) : NoGain cycles (v.orderedArcs sameBlockOnly ls) := by
  refine noGain_of_rank_or_loop v.place fun a ha => ?_
  rcases List.mem_append.mp ha with ha | ha
  · rcases List.mem_map.mp ha with ⟨p, hp, rfl⟩
    exact .inl (place_lt_of_forwardPairs hfit hview (List.mem_of_mem_filter hp))
  · rcases List.mem_flatMap.mp ha with ⟨limits, hlimits, ha⟩
    rcases List.mem_map.mp ha with ⟨p, hp, rfl⟩
    rcases waitingPairs_cases hfit hview hp with hlt | ⟨hself, hzero⟩
    · exact .inl hlt
    · have hlatency := hfree limits hlimits p.1 (mem_nodes_of_waitingPairs hp).1 hzero
      refine .inr ⟨hself, ?_⟩
      rw [cycles_arcOf, hlatency, Int.ceil_zero]

/-- Then every node has a longest path of dependencies and operations that wait. -/
theorem exists_longest_ordered (sameBlockOnly : Bool) (hfit : g.Fit) (hview : ofGraph g = .ok v)
    (hfree : v.FreeUnits ls) :
    ∃ d : Node Rat → Int, ∀ n, IsLongest (v.orderedArcs sameBlockOnly ls) cycles n (d n) := by
  have hcap : IsCapped (v.orderedArcs sameBlockOnly ls) cycles (fun n => ⌈n.latency⌉) v.nodes :=
    ⟨fun n hn => Int.ceil_nonneg (hfit.node_latency hview n hn),
      fun a ha => (orderedArcs_mem_nodes ha).1, fun a _ => le_refl _⟩
  choose d hd using (orderedArcs_noGain hfit hview hfree).exists_longest hcap
  exact ⟨d, hd⟩

/-! ### Potentials -/

/-- The arcs of ordering hold exactly if its rows do. -/
theorem meets_waitingArcs_iff {c : Node Rat → Int} {y : String → Rat} (hy : v.Times c y) :
    Meets cycles c (ls.flatMap v.waitingArcs) ↔
      ∀ r ∈ ls.flatMap (waitingRows v), r.Holds y := by
  have heach : ∀ limits ∈ ls, Meets cycles c (v.waitingArcs limits) ↔
      ∀ r ∈ waitingRows v limits, r.Holds y := by
    intro limits _
    rw [← lag_zero, waitingArcs, meets_map_arcOf_iff hy fun p hp => mem_nodes_of_waitingPairs hp,
      waitingRows, List.forall_mem_map]
    exact forall₂_congr fun p _ => Row.dependency_holds_iff.symm
  constructor
  · intro hmeets r hr
    rcases List.mem_flatMap.mp hr with ⟨limits, hlimits, hr⟩
    exact (heach limits hlimits).mp
      (fun a ha => hmeets a (List.mem_flatMap.mpr ⟨limits, hlimits, ha⟩)) r hr
  · intro hholds a ha
    rcases List.mem_flatMap.mp ha with ⟨limits, hlimits, ha⟩
    exact (heach limits hlimits).mpr
      (fun r hr => hholds r (List.mem_flatMap.mpr ⟨limits, hlimits, hr⟩)) a ha

/-- Start cycles that keep to the dependencies and satisfy the rows of ordering are the
    potentials of the whole system that are nowhere negative. -/
theorem startsHold_and_waits_iff {c : Node Rat → Int} {y : String → Rat} (hy : v.Times c y) :
    (Discipline.StartsHold v sameBlockOnly y ∧ ∀ r ∈ ls.flatMap (waitingRows v), r.Holds y) ↔
      (∀ n ∈ v.nodes, 0 ≤ c n) ∧ Meets cycles c (v.orderedArcs sameBlockOnly ls) := by
  rw [Discipline.startsHold_iff_meets 0 hy, lag_zero, ← meets_waitingArcs_iff hy, and_assoc]
  exact and_congr_right fun _ => List.forall_mem_append.symm

end View

end CyclePlan
