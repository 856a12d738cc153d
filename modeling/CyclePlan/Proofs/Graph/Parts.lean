import CyclePlan.Proofs.Graph.CanonicalOrder
import CyclePlan.Proofs.Graph.RefusedCalls
import CyclePlan.Proofs.Schedule.KeyFigures

/-!
# Graphs from Parts

Which numbers of a graph from parts can be followed.

A graph can be put together from parts that were supplied independently and that
refer to each other by number. Two of the references are checked: names are
distinct, and edges join operations. That is enough for the inspection, for the
checks of a schedule, for the order and for the view, none of which follows any other
number than the end of an edge.

Control edges are not checked, and neither are the supernodes that a block has
recorded. The key figures of a schedule follow the recorded last supernodes, and
bounding the blocks follows control edges that do not go back. So these two can lead to
a number that is not there, and `parts_are_safe` says exactly when. A graph that calls
have made has no such numbers, and its parts make a graph that is safe throughout.

To see that nothing is looked up in vain, the inspection is repeated here with every
look-up in the open (`inspect`), and so is the ordering of the view.

## Main definitions

* `Graph.Safe`: An answer is not that a number is missing.
* `Graph.inspect`: The inspection with every end of an edge looked up.
* `Graph.farParts`: Parts with numbers that are not there.

## Theorems

* `Graph.isJoined_of_ofParts`: What parts have been checked for.
* `Graph.inspect_eq`: The inspection looks up nothing that is missing.
* `Graph.safe_keyFigures_iff`, `Graph.safe_boundBlocks_iff`: When the others do not.
* `Graph.parts_are_safe`: What a graph from parts is safe for.
* `Graph.Consistent.safe`: What calls have made is safe for all of it.
-/

namespace CyclePlan

/-- A number of an operation or a block that is not there was followed. -/
def GraphError.isMissing : GraphError → Bool
  | .noSuchNode _ | .noSuchBlock _ => true
  | _ => false

namespace Graph

/-- An answer is not that a number is missing. -/
def Safe {β : Type} (answer : Except GraphError β) : Prop :=
  ∀ e, answer = .error e → e.isMissing = false

section

variable {β γ : Type} {e : GraphError} {f : β → Except GraphError γ} {bs : List β}

theorem Safe.ok (b : β) : Safe (.ok b) := nofun

theorem safe_error_iff : Safe (.error e : Except GraphError β) ↔ e.isMissing = false :=
  ⟨fun h => h e rfl, fun h _ he => by cases he; exact h⟩

/-- What is made of an answer does not matter. -/
theorem safe_bind_pure_iff {answer : Except GraphError β} {f : β → γ} :
    Safe (answer >>= fun b => pure (f b)) ↔ Safe answer := by
  cases answer with
  | error e => exact safe_error_iff.trans safe_error_iff.symm
  | ok b => exact ⟨fun _ => Safe.ok b, fun _ => Safe.ok (f b)⟩

/-- Looking up several numbers is safe exactly if each of them is there. -/
theorem safe_mapM_iff (hmissing : ∀ b ∈ bs, ∀ e, f b = .error e → e.isMissing = true) :
    Safe (bs.mapM f) ↔ ∀ b ∈ bs, ∃ c, f b = .ok c := by
  induction bs with
  | nil => exact ⟨fun _ => nofun, fun _ => Safe.ok []⟩
  | cons b bs ih =>
      rw [List.forall_mem_cons] at hmissing ⊢
      rw [List.mapM_cons]
      cases hfirst : f b with
      | error e =>
          refine ⟨fun hsafe => ?_, fun ⟨⟨_, hok⟩, _⟩ => nomatch hok⟩
          have hnot : e.isMissing = false := safe_error_iff.mp hsafe
          rw [hmissing.1 e hfirst] at hnot
          cases hnot
      | ok c =>
          rw [← ih hmissing.2]
          exact safe_bind_pure_iff.trans ⟨fun h => ⟨⟨c, rfl⟩, h⟩, fun h => h.2⟩

theorem safe_mapM (h : ∀ b ∈ bs, ∃ c, f b = .ok c) : Safe (bs.mapM f) := by
  refine (safe_mapM_iff fun b hb e he => ?_).mpr h
  rcases h b hb with ⟨c, hc⟩
  rw [hc] at he
  cases he

end

variable {α : Type} {g : Graph α}

/-- Parts are checked for edges that lead nowhere. -/
theorem isJoined_of_ofParts {name : String} {ops : List (Operation α)} {edges : List Dependency}
    {blocks : List Block} {controlEdges : List ControlEdge}
    (h : ofParts name ops edges blocks controlEdges = .ok g) :
    g = { name, ops, register := ops.map (·.name), edges, blocks, controlEdges } ∧
      g.IsJoined ∧ g.register.Nodup := by
  unfold ofParts at h
  split at h
  · cases h
  · next hnames =>
    split at h
    · cases h
    · next hedges =>
      cases h
      refine ⟨rfl, fun e he => ?_, (repeatedName?_eq_none_iff.mp hnames).1⟩
      have hnot := List.find?_eq_none.mp hedges e he
      simp only [Bool.or_eq_true, decide_eq_true_iff, not_or, Nat.not_le] at hnot
      exact hnot

/-! ### The inspection -/

section

variable [Scalar α]

/-- What a test finds at the ends of an edge, both of them looked up. -/
def inspectEdge (g : Graph α) (test : Operation α → Operation α → List (GraphDefect α))
    (e : Dependency) : Except GraphError (List (GraphDefect α)) := do
  let some u := g.node? e.source | throw (.noSuchNode e.source)
  let some v := g.node? e.target | throw (.noSuchNode e.target)
  return test u v

/-- What a test finds at the ends of every edge, each of them looked up. -/
def inspectEnds (g : Graph α) (test : Operation α → Operation α → List (GraphDefect α))
    (edges : List Dependency) : Except GraphError (List (GraphDefect α)) := do
  let found ← edges.mapM (g.inspectEdge test)
  return found.flatten

/-- All defects of a graph, with every end of an edge looked up. -/
def inspect (g : Graph α) : Except GraphError (List (GraphDefect α)) := do
  let ofOperations := operationDefects g.blocks.length [] g.ops
  let dangling : List (GraphDefect α) :=
    g.danglingEdges.map fun e => .danglingEdge e.source e.target
  if !dangling.isEmpty then return ofOperations ++ dangling
  let connections ← g.inspectEnds connectionDefects g.forwardEdges
  let backEdges ← g.inspectEnds backEdgeDefects g.backEdges
  let cycles : List (GraphDefect α) ← match g.topologicalOrder with
    | .ok _ => pure []
    | .error .cyclic => pure [.cyclic]
    | .error e => throw e
  return ofOperations
    ++ g.blocks.flatMap (fun b => g.superNodeDefects b .source ++ g.superNodeDefects b .sink)
    ++ connections ++ backEdges ++ cycles

omit [Scalar α] in
theorem inspectEdge_eq (test : Operation α → Operation α → List (GraphDefect α)) {e : Dependency}
    (hsource : e.source < g.size) (htarget : e.target < g.size) :
    g.inspectEdge test e = .ok (g.atEnds test [e]) := by
  have hu : g.node? e.source = some g.ops[e.source] := List.getElem?_eq_getElem hsource
  have hv : g.node? e.target = some g.ops[e.target] := List.getElem?_eq_getElem htarget
  rw [inspectEdge, atEnds, List.flatMap_singleton]
  simp only [hu, hv]
  rfl

omit [Scalar α] in
theorem inspectEnds_eq (test : Operation α → Operation α → List (GraphDefect α))
    {edges : List Dependency} (h : ∀ e ∈ edges, e.source < g.size ∧ e.target < g.size) :
    g.inspectEnds test edges = .ok (g.atEnds test edges) := by
  have hedges : edges.mapM (g.inspectEdge test) = .ok (edges.map fun e => g.atEnds test [e]) :=
    mapM_ok_iff.mpr ⟨_, fun e he => inspectEdge_eq test (h e he).1 (h e he).2, rfl⟩
  rw [inspectEnds, hedges, atEnds, List.flatMap_def]
  simp only [atEnds, List.flatMap_singleton]
  rfl

/-- The inspection of any graph looks up nothing that is missing. Where an edge leads
    nowhere, it has stopped before. -/
theorem inspect_eq (g : Graph α) : g.inspect = .ok g.defects := by
  rw [inspect, defects]
  by_cases hdangling : g.danglingEdges = []
  · have hjoined : g.IsJoined := by
      intro e he
      have hnot := List.filter_eq_nil_iff.mp hdangling e he
      simp only [Bool.or_eq_true, decide_eq_true_iff, not_or, Nat.not_le] at hnot
      exact hnot
    have hforward : g.inspectEnds connectionDefects g.forwardEdges = .ok _ :=
      inspectEnds_eq connectionDefects fun e he => hjoined e (List.mem_of_mem_filter he)
    have hback : g.inspectEnds backEdgeDefects g.backEdges = .ok _ :=
      inspectEnds_eq backEdgeDefects fun e he => hjoined e (List.mem_of_mem_filter he)
    simp only [hdangling, List.map_nil, List.isEmpty_nil, Bool.not_true, Bool.false_eq_true,
      if_false, hforward, hback]
    cases horder : g.topologicalOrder with
    | ok order => rfl
    | error e =>
        cases eq_cyclic_of_topologicalOrder hjoined horder
        rfl
  · have hsome : (!(g.danglingEdges.map fun e =>
        (.danglingEdge e.source e.target : GraphDefect α)).isEmpty) = true := by
      rw [List.isEmpty_map, Bool.not_eq_true', List.isEmpty_eq_false_iff]
      exact hdangling
    simp only [hsome, if_true]
    rfl

end

/-! ### Schedules and views -/

section

variable [Scalar α] (s : Schedule α)

/-- Checking a schedule follows edges. -/
theorem safe_checkDependencies (h : g.IsJoined) : Safe (s.checkDependencies g) := by
  have hall : ∀ e ∈ g.edges, ∃ found, s.checkDependency g e = .ok found := by
    intro e he
    rcases h e he with ⟨hsource, htarget⟩
    have hu : g.node? e.source = some g.ops[e.source] := List.getElem?_eq_getElem hsource
    have hv : g.node? e.target = some g.ops[e.target] := List.getElem?_eq_getElem htarget
    simp only [Schedule.checkDependency, hu, hv]
    cases s.slack? e.backEdge g.ops[e.source] g.ops[e.target] with
    | none => exact ⟨none, rfl⟩
    | some slack => exact ⟨_, rfl⟩
  exact safe_bind_pure_iff.mpr (safe_mapM hall)

omit [Scalar α] in
/-- Key figures follow the recorded last supernodes. -/
theorem safe_keyFigures_iff :
    Safe (s.keyFigures g) ↔ ∀ b ∈ g.blocks, ∀ u, b.sink = some u → u < g.size := by
  have hlookup : Safe (s.keyFigures g) ↔ Safe (g.blockSinks.mapM (s.sinkCycle? g)) :=
    safe_bind_pure_iff
  have hmissing : ∀ u ∈ g.blockSinks, ∀ e, s.sinkCycle? g u = .error e → e.isMissing = true := by
    intro u _ e he
    unfold Schedule.sinkCycle? at he
    split at he
    · cases he
    · cases he
      rfl
  rw [hlookup, safe_mapM_iff hmissing]
  simp only [Schedule.exists_sinkCycle?_iff, blockSinks, List.mem_filterMap]
  exact ⟨fun h b hb u hu => h u ⟨b, hb, hu⟩, fun h u ⟨b, hb, hu⟩ => h b hb u hu⟩

end

/-- The ordering of a view looks up nothing that is missing. -/
theorem indexedOrder_bridges (g : Graph α) :
    indexedOrder g.keptNodes.length (g.bridges.map fun e => (e.source, e.target)) =
      (View.ofGraph g).map (·.order) := by
  rw [indexedOrder_eq (bridges_lt g), ← View.map_order_ofGraph]
  cases hview : View.ofGraph g with
  | ok v => rfl
  | error e =>
      cases View.eq_cyclic_of_ofGraph hview
      rfl

/-! ### Bounding the blocks -/

section

variable [Scalar α]

theorem loop_controlEdges {g' : Graph α} {count : Nat}
    (h : perform ((List.range count).forM boundBlock) g = (.ok ⟨⟩, g')) :
    g'.controlEdges = g.controlEdges := by
  refine forM_range_induction (P := fun _ s => s.controlEdges = g.controlEdges)
    (fun k _ s t hs hrun => ?_) rfl h
  cases bounding_of_perform hrun with
  | kept _ => exact hs
  | bounded b _ _ _ _ heq =>
      rcases s.withSupers_eq k b with ⟨edges, hsupers, _⟩
      rw [heq, hsupers]
      exact hs

omit [Scalar α] in
theorem isMissing_of_controlLink? {c : ControlEdge} {e : GraphError}
    (h : g.controlLink? c = .error e) : e.isMissing = true := by
  simp only [controlLink?] at h
  split at h
  · split at h
    · cases h
    · split at h
      · cases h
      · cases h
        rfl
  · cases h
    rfl

/-- Bounding the blocks follows control edges that do not go back, once no block is
    stuck. -/
theorem safe_boundBlocks_iff :
    Safe (perform boundBlocks g).1 ↔ (∃ id, g.IsStuck id) ∨
      ∀ c ∈ g.controlEdges, c.backEdge = false →
        c.source < g.blocks.length ∧ c.target < g.blocks.length := by
  rw [perform_boundBlocks]
  rcases hloop : perform ((List.range g.blocks.length).forM boundBlock) g with ⟨answer, g₁⟩
  cases answer with
  | error e =>
      rcases stopsAt_of_loop hloop with ⟨id, hstuck, _, hstops⟩
      refine ⟨fun _ => .inl ⟨id, hstuck⟩, fun _ e' he => ?_⟩
      cases he
      cases hstops <;> rfl
  | ok u =>
      have hfree : ¬ ∃ id, g.IsStuck id := fun ⟨id, hstuck⟩ =>
        (loop_frame hloop).2 id hstuck.lt hstuck
      rcases isBounded_of_loop hloop with ⟨hlength, hbounded⟩
      have hlinks : Safe ((g₁.controlEdges.filter fun c => !c.backEdge).mapM g₁.controlLink?) ↔
          ∀ c ∈ g.controlEdges, c.backEdge = false →
            c.source < g.blocks.length ∧ c.target < g.blocks.length := by
        rw [safe_mapM_iff fun c _ e he => isMissing_of_controlLink? he, loop_controlEdges hloop,
          ← hlength]
        simp only [exists_link_iff hbounded, List.mem_filter, Bool.not_eq_true', and_imp]
      rw [or_iff_right hfree, ← hlinks]
      simp only []
      cases (g₁.controlEdges.filter fun c => !c.backEdge).mapM g₁.controlLink? with
      | error e => exact safe_error_iff.trans safe_error_iff.symm
      | ok found => exact ⟨fun _ => Safe.ok _, fun _ => Safe.ok _⟩

/-- The numbers in a graph that calls have made can all be followed. -/
theorem Consistent.safe (h : g.Consistent) (s : Schedule α) :
    Safe (s.keyFigures g) ∧ Safe (perform Graph.boundBlocks g).1 := by
  constructor
  · rw [safe_keyFigures_iff]
    intro b hb u hu
    rcases List.mem_iff_getElem?.mp hb with ⟨i, hi⟩
    exact h.lt_of_recorded .sink hi hu
  · rw [safe_boundBlocks_iff]
    exact .inr fun c hc _ => h.controlJoined c hc

/-- A graph from parts can be inspected, ordered and projected, and any schedule of it
    checked, with every number looked up where it is. Key figures are safe exactly if the
    last supernodes that blocks have recorded are operations. Bounding the blocks is safe
    exactly if a block is stuck, so that the call is refused before, or the control edges
    that do not go back join blocks that there are. -/
theorem parts_are_safe {name : String} {ops : List (Operation α)} {edges : List Dependency}
    {blocks : List Block} {controlEdges : List ControlEdge}
    (h : ofParts name ops edges blocks controlEdges = .ok g) (s : Schedule α) :
    g.inspect = .ok g.defects ∧ Safe (s.checkDependencies g) ∧ Safe g.topologicalOrder ∧
      (indexedOrder g.keptNodes.length (g.bridges.map fun e => (e.source, e.target)) =
          (View.ofGraph g).map (·.order) ∧ Safe (View.ofGraph g)) ∧
      (Safe (s.keyFigures g) ↔ ∀ b ∈ blocks, ∀ u, b.sink = some u → u < ops.length) ∧
      (Safe (perform boundBlocks g).1 ↔ (∃ id, g.IsStuck id) ∨
        ∀ c ∈ controlEdges, c.backEdge = false →
          c.source < blocks.length ∧ c.target < blocks.length) := by
  rcases isJoined_of_ofParts h with ⟨rfl, hjoined, _⟩
  refine ⟨inspect_eq _, safe_checkDependencies s hjoined, fun e he => ?_,
    ⟨indexedOrder_bridges _, fun e he => ?_⟩, safe_keyFigures_iff s, safe_boundBlocks_iff⟩
  · rw [eq_cyclic_of_topologicalOrder hjoined he]
    rfl
  · rw [View.eq_cyclic_of_ofGraph he]
    rfl

end

/-- The one block has recorded a last supernode that is not there, and control passes from
    it to a block that is not there. -/
def farParts : Graph Rat where
  name := "far"
  ops := [.ofKind "a" .add 0]
  register := ["a"]
  blocks := [{ id := 0, name := "entry", members := [0], sink := some 7 }]
  controlEdges := [⟨0, 5, false⟩]

/-- Such parts are accepted. -/
theorem exists_unsafe_parts :
    ofParts "far" farParts.ops [] farParts.blocks farParts.controlEdges = .ok farParts ∧
      (perform boundBlocks farParts).1 = .error (.noSuchBlock 5) ∧
      ({} : Schedule Rat).keyFigures farParts = .error (.noSuchNode 7) ∧
      ¬ Safe (perform boundBlocks farParts).1 ∧
      ¬ Safe (({} : Schedule Rat).keyFigures farParts) := by
  have hbound : (perform boundBlocks farParts).1 = .error (.noSuchBlock 5) := rfl
  have hfigures : ({} : Schedule Rat).keyFigures farParts = .error (.noSuchNode 7) := rfl
  refine ⟨rfl, hbound, hfigures, fun hsafe => ?_, fun hsafe => ?_⟩
  · exact Bool.noConfusion (hsafe _ hbound)
  · exact Bool.noConfusion (hsafe _ hfigures)

/-- They are no worse for what follows edges alone. -/
theorem parts_are_safe_farParts :
    ofParts "far" farParts.ops [] farParts.blocks farParts.controlEdges = .ok farParts ∧
      Safe (({} : Schedule Rat).checkDependencies farParts) ∧
      ¬ Safe (perform boundBlocks farParts).1 := by
  have hparts : ofParts "far" farParts.ops [] farParts.blocks farParts.controlEdges
      = .ok farParts := rfl
  rcases parts_are_safe hparts {} with ⟨_, hcheck, _, _, _, hbound⟩
  refine ⟨hparts, hcheck, fun hsafe => ?_⟩
  rcases hbound.mp hsafe with ⟨id, hstuck⟩ | hjoined
  · -- The names of the supernodes are free.
    have hid : id = 0 := Nat.lt_one_iff.mp hstuck.lt
    subst hid
    rcases hstuck.2 with ⟨role, htaken⟩
    revert htaken
    cases role <;> decide
  · exact absurd (hjoined ⟨0, 5, false⟩ List.mem_cons_self rfl).2 (by decide)

end Graph

end CyclePlan
