import CyclePlan.Proofs.Engine.Built
import CyclePlan.Proofs.Graph.Closed

/-!
# The Order of Blocks

Supernodes bound their blocks in time, and keep blocks in the order of the control flow.

A model with the dependencies alone already puts every node of a block between the
supernodes of the block, the end of the node included. The pairs at supernodes always get
a constraint, so the link from the last supernode of a block to the first one of the next
is among the rows as well, and along a path of control the blocks come one after the
other.

Dependencies between blocks can therefore be dropped. Between blocks that control joins
they hold all the same, because the producer ends before its block does and the consumer
starts after its block has started (`Graph.IsClosed.ordered`).

## Main definitions

* `Graph.PassesTo`: Control passes from a block to another without going back.
* `View.PairsHold`: Start cycles keep to the pairs that get a constraint.
* `Graph.InBlockOrder`: Start cycles keep to the order of blocks.

## Theorems

* `Graph.IsClosed.within`: A node lies between the supernodes of its block.
* `Graph.IsClosed.linked_le`, `Graph.IsClosed.ordered`: Blocks that control joins.
* `Engine.supernodes_order_blocks`: So it is in every model with dependencies.
-/

namespace CyclePlan

/-- Start cycles keep to the pairs that get a constraint. -/
def View.PairsHold (v : View Rat) (sameBlockOnly : Bool) (y : String → Rat) : Prop :=
  ∀ p ∈ v.emitted sameBlockOnly, y (startVar p.1.name) + p.1.latency ≤ y (startVar p.2.name)

namespace Graph

variable {g : Graph Rat} {v : View Rat} {sameBlockOnly : Bool} {y : String → Rat}
  {op : Operation Rat} {i j u t : Nat}

/-- Control passes from a block to another without going back. -/
def PassesTo (g : Graph Rat) (i j : Nat) : Prop :=
  ∃ c ∈ g.controlEdges, c.backEdge = false ∧ c.source = i ∧ c.target = j

/-- Start cycles keep nodes between the supernodes of their blocks, and blocks in the order
    in which control passes through them. -/
structure InBlockOrder (g : Graph Rat) (y : String → Rat) : Prop where
  within : ∀ op ∈ g.ops, op.kind.isStripped = false →
    y (startVar (Block.sourceName op.block)) ≤ y (startVar op.name) ∧
      y (startVar op.name) + op.latency ≤ y (startVar (Block.sinkName op.block))
  linked : ∀ c ∈ g.controlEdges, c.backEdge = false →
    y (startVar (Block.sinkName c.source)) ≤ y (startVar (Block.sourceName c.target))
  /-- Dependencies hold between kept operations of blocks that control joins. -/
  ordered : ∀ u t a b, g.Bridged u t → g.ops[u]? = some a → g.ops[t]? = some b →
    a.kind.isStripped = false → b.kind.isStripped = false →
    Relation.ReflTransGen g.PassesTo a.block b.block →
    y (startVar a.name) + a.latency ≤ y (startVar b.name)

namespace IsClosed

variable (h : g.IsClosed) (hdefects : g.defects = []) (hview : View.ofGraph g = .ok v)
  (hpairs : v.PairsHold sameBlockOnly y)
include h hdefects hview hpairs

/-- A node lies between the supernodes of its block. -/
theorem within (hop : g.ops[u]? = some op) (hkept : op.kind.isStripped = false) :
    y (startVar (Block.sourceName op.block)) ≤ y (startVar op.name) ∧
      y (startVar op.name) + op.latency ≤ y (startVar (Block.sinkName op.block)) := by
  have hlatency := (fit_of_defects hdefects).node_latency hview
  rcases h.isBuilt.encloses op (List.mem_of_getElem? hop) with ⟨hblock, source, sink, henc⟩
  have hnode : View.nodeOf u op ∈ v.nodes := View.nodeOf_mem_nodes hview hop hkept
  have hsource : g.ops[source]? = some (firstOf op.block) := by
    rcases henc.first with ⟨first, hfirst, _⟩
    rw [hfirst, h.eq_superOf .source hdefects hfirst henc.first]
    rfl
  have hsink : g.ops[sink]? = some (lastOf op.block) := by
    rcases henc.last with ⟨last, hlast, _⟩
    rw [hlast, h.eq_superOf .sink hdefects hlast henc.last]
    rfl
  constructor
  · have hfirst : View.nodeOf source (firstOf op.block) ∈ v.nodes :=
      View.nodeOf_mem_nodes hview hsource rfl
    have hpath : v.HasPath sameBlockOnly (View.nodeOf source (firstOf op.block))
        (View.nodeOf u op) := View.hasPath_from_source hdefects hview hfirst henc hblock hnode rfl
    exact hpath.le hlatency hpairs
  · have hlast : View.nodeOf sink (lastOf op.block) ∈ v.nodes :=
      View.nodeOf_mem_nodes hview hsink rfl
    have hpath : v.HasPath sameBlockOnly (View.nodeOf u op) (View.nodeOf sink (lastOf op.block)) :=
      View.hasPath_of_encloses hdefects hview hlast henc hblock sameBlockOnly hnode rfl
    -- The path starts with a pair, unless the node is the last one itself, which takes no time.
    rcases Relation.ReflTransGen.cases_head hpath with heq | ⟨next, hpair, hrest⟩
    · have hname : op.name = Block.sinkName op.block := congrArg View.Node.name heq
      have hzero : op.latency = 0 := congrArg View.Node.latency heq
      rw [hzero, add_zero, ← hname]
    · have hrow : y (startVar op.name) + op.latency ≤ y (startVar next.name) :=
        hpairs (View.nodeOf u op, next) hpair
      have hlater : v.HasPath sameBlockOnly next (View.nodeOf sink (lastOf op.block)) := hrest
      exact le_trans hrow (hlater.le hlatency hpairs)

omit hpairs in
/-- Where control passes, the pair of supernodes gets a constraint. -/
theorem exists_emitted_link (sameBlockOnly : Bool) (hpass : g.PassesTo i j) :
    ∃ p ∈ v.emitted sameBlockOnly, p.1 ∈ v.nodes ∧ p.1.name = Block.sinkName i ∧
      p.2.name = Block.sourceName j := by
  rcases hpass with ⟨c, hc, hforward, rfl, rfl⟩
  rcases h.linked hc hforward with ⟨sink, source, hsink, hsource, hedge⟩
  rcases hsink with ⟨last, hlast, hkind, hblock⟩
  rcases hsource with ⟨first, hfirst, hkind', hblock'⟩
  have hlastOf := h.eq_superOf .sink hdefects hlast ⟨last, hlast, hkind, hblock⟩
  have hfirstOf := h.eq_superOf .source hdefects hfirst ⟨first, hfirst, hkind', hblock'⟩
  have hnode : View.nodeOf sink last ∈ v.nodes :=
    View.nodeOf_mem_nodes hview hlast (by rw [hkind]; rfl)
  have hnode' : View.nodeOf source first ∈ v.nodes :=
    View.nodeOf_mem_nodes hview hfirst (by rw [hkind']; rfl)
  have hpair : (View.nodeOf sink last, View.nodeOf source first) ∈ v.forwardPairs :=
    (View.mem_forwardPairs_iff hview).mpr ⟨hnode, hnode',
      (mem_keptSuccessors_iff_bridged (fit_of_defects hdefects).joined).mpr
        ⟨⟨first, hfirst, by rw [hkind']; rfl⟩, .edge hedge⟩⟩
  refine ⟨_, List.mem_filter.mpr ⟨hpair, ?_⟩, hnode, ?_, ?_⟩
  · -- Pairs at supernodes are never dropped.
    have hsuper : (View.nodeOf sink last).kind.isSuper = true := by
      change last.kind.isSuper = true
      rw [hkind, SuperRole.isSuper_kind]
    simp only [Engine.isEmitted, hsuper, Bool.or_true, Bool.true_or]
  · rw [hlastOf]
    rfl
  · rw [hfirstOf]
    rfl

/-- A block that control passes to starts after the block that it comes from has ended. -/
theorem linked_le (hpass : g.PassesTo i j) :
    y (startVar (Block.sinkName i)) ≤ y (startVar (Block.sourceName j)) := by
  rcases h.exists_emitted_link hdefects hview sameBlockOnly hpass with
    ⟨p, hp, hnode, hsink, hsource⟩
  have hrow := hpairs p hp
  have hsign := (fit_of_defects hdefects).node_latency hview p.1 hnode
  rw [hsink, hsource] at hrow
  exact le_trans (le_add_of_nonneg_right hsign) hrow

/-- So does one at the end of a path of control. -/
theorem ordered_blocks (hpath : Relation.TransGen g.PassesTo i j) :
    y (startVar (Block.sinkName i)) ≤ y (startVar (Block.sourceName j)) := by
  induction hpath with
  | single hpass => exact h.linked_le hdefects hview hpairs hpass
  | @tail j k _ hpass ih =>
      -- The block in between starts before it ends.
      have hinside : j < g.blocks.length := by
        rcases hpass with ⟨c, hc, _, rfl, _⟩
        exact (h.consistent.controlJoined c hc).1
      rcases List.mem_iff_getElem?.mp (h.supers_mem hdefects .source hinside) with ⟨w, hw⟩
      have hthrough := (h.within hdefects hview hpairs hw rfl).2
      have hbetween : y (startVar (Block.sourceName j)) ≤ y (startVar (Block.sinkName j)) :=
        le_trans (le_of_eq (add_zero _).symm) hthrough
      exact le_trans (le_trans ih hbetween) (h.linked_le hdefects hview hpairs hpass)

/-- Between kept operations of blocks that control joins every dependency holds, whether or
    not it got a constraint. -/
theorem ordered {a b : Operation Rat} (hbridged : g.Bridged u t) (ha : g.ops[u]? = some a)
    (hb : g.ops[t]? = some b) (hkepta : a.kind.isStripped = false)
    (hkeptb : b.kind.isStripped = false)
    (hpath : Relation.ReflTransGen g.PassesTo a.block b.block) :
    y (startVar a.name) + a.latency ≤ y (startVar b.name) := by
  rcases Relation.reflTransGen_iff_eq_or_transGen.mp hpath with hsame | hpath
  · -- In one block the dependency has a constraint.
    have hpair : (View.nodeOf u a, View.nodeOf t b) ∈ v.forwardPairs :=
      (View.mem_forwardPairs_iff hview).mpr ⟨View.nodeOf_mem_nodes hview ha hkepta,
        View.nodeOf_mem_nodes hview hb hkeptb,
        (mem_keptSuccessors_iff_bridged (fit_of_defects hdefects).joined).mpr
          ⟨⟨b, hb, hkeptb⟩, hbridged⟩⟩
    exact hpairs (View.nodeOf u a, View.nodeOf t b) (View.mem_emitted_of_block hpair hsame.symm)
  · have hends := (h.within hdefects hview hpairs ha hkepta).2
    have hstarts := (h.within hdefects hview hpairs hb hkeptb).1
    exact le_trans (le_trans hends (h.ordered_blocks hdefects hview hpairs hpath)) hstarts

end IsClosed

end Graph

namespace Engine

variable {t : Discipline} {solver : Solver Rat} {restricted : Bool} {g : Graph Rat}
  {e : Engine Rat}

/-- An engine that has taken a graph whose blocks were bounded last can always be given
    its dependencies, with either choice of pairs. Wherever their constraints hold, every
    node lies between the supernodes of its block, blocks come in the order of the control
    flow, and dependencies between blocks that control joins hold, also those without a
    constraint. -/
theorem supernodes_order_blocks (hclosed : g.IsClosed)
    (hload : perform (load g) (fresh t solver restricted) = (.ok ⟨⟩, e)) (sameBlockOnly : Bool) :
    (∀ i < g.blocks.length, Graph.firstOf i ∈ g.ops ∧ Graph.lastOf i ∈ g.ops) ∧
      ∃ n e', perform (addDependencies sameBlockOnly) e = (.ok n, e') ∧
        ∀ x, (∀ c ∈ e'.model.constraints, c.2.Holds x) → g.InBlockOrder (e'.model.valueOf x) := by
  have hdefects := (load_ok_iff.mp hload).1
  have hsupers := fun role {i} (hi : i < g.blocks.length) => hclosed.supers_mem hdefects role hi
  refine ⟨fun i hi => ⟨hsupers .source hi, hsupers .sink hi⟩, ?_⟩
  rcases exists_addDependencies hload sameBlockOnly with ⟨v, n, m, hview, hconsists, hadd⟩
  refine ⟨n, _, hadd, fun x hx => ?_⟩
  have hpairs : v.PairsHold sameBlockOnly (m.valueOf x) := fun p hp =>
    Row.dependency_holds_iff.mp ((hconsists.meets_iff x).mp hx _ (List.mem_map_of_mem hp))
  refine ⟨fun op hop hkept => ?_, fun c hc hforward => ?_,
    fun u t a b hbridged ha hb hkepta hkeptb hpath => ?_⟩
  · rcases List.mem_iff_getElem?.mp hop with ⟨u, hu⟩
    exact hclosed.within hdefects hview hpairs hu hkept
  · exact hclosed.linked_le hdefects hview hpairs ⟨c, hc, hforward, rfl, rfl⟩
  · exact hclosed.ordered hdefects hview hpairs hbridged ha hb hkepta hkeptb hpath

/-- Three additions in two blocks, of which dependencies between blocks are dropped. -/
theorem supernodes_order_blocks_additions :
    Graph.additions.IsClosed ∧ ∃ e,
      perform (load Graph.additions) (fresh .asap oracle true) = (.ok ⟨⟩, e) ∧
      (∀ i < Graph.additions.blocks.length,
        Graph.firstOf i ∈ Graph.additions.ops ∧ Graph.lastOf i ∈ Graph.additions.ops) ∧
      ∃ n e', perform (addDependencies true) e = (.ok n, e') ∧
        ∀ x, (∀ c ∈ e'.model.constraints, c.2.Holds x) →
          Graph.additions.InBlockOrder (e'.model.valueOf x) := by
  rcases exists_load .asap oracle true Graph.additions_defects with ⟨e, hload⟩
  exact ⟨Graph.additions_isClosed, e, hload,
    supernodes_order_blocks Graph.additions_isClosed hload true⟩

end Engine

end CyclePlan
