import CyclePlan.Proofs.Graph.Bounded
import CyclePlan.Proofs.Graph.Enclosed

/-!
# Paths from the Starts of Blocks

Graphs whose blocks are bounded last, and what holds them together.

If the blocks of a graph are bounded after all its edges were added, control edges
included, the supernodes join everything: each block from its first to its last
supernode, and each block to those that control passes to (`IsClosed.linked`). In an
accepted graph each block has the two supernodes that bounding gave it and no others,
so they have the names and the latency of zero that they came with
(`IsClosed.supers_mem`).

From the first supernode of a block there is a path to every node of the block. It goes
the other way than the path to the end: members are entered from other members, so the
induction is on what comes before. Stripped operations on the way are bridged, which the
induction carries along as a bridge that has not landed yet (`Approaches`).

## Main definitions

* `Graph.IsClosed`: Graphs whose blocks were bounded last.
* `View.Approaches`: A path leads to an operation or to a bridge over it.

## Theorems

* `Graph.IsClosed.supers_mem`, `Graph.IsClosed.linked`: The supernodes and their links.
* `View.hasPath_from_source`: Every node has a path from the first one of its block.
-/

namespace CyclePlan

namespace Graph

/-! ### Graphs whose blocks were bounded last -/

section

variable {α : Type}

/-- Made from a draft by bounding its blocks, with nothing but blocks after that. -/
inductive IsClosed [Scalar α] : Graph α → Prop
  | bound {g g' : Graph α} (h : IsDrafted g) (hcall : perform boundBlocks g = (.ok ⟨⟩, g')) :
      IsClosed g'
  | block {g g' : Graph α} {name : String} {answer : Except GraphError Nat} (h : IsClosed g)
      (hcall : perform (addBlock name) g = (answer, g')) : IsClosed g'

theorem IsDrafted.consistent {g : Graph α} (h : g.IsDrafted) : g.Consistent := by
  induction h with
  | empty name => exact .empty name
  | @block g g' name answer _ hcall ih =>
      cases (g.perform_addBlock name).symm.trans hcall
      exact ih.withBlock name
  | @operation g g' op answer _ hcall ih =>
      have hadded := ih.addOperation op
      rwa [hcall] at hadded
  | @edge g g' source target backEdge answer _ hcall ih =>
      have hadded := ih.addEdge source target backEdge
      rwa [hcall] at hadded
  | @controlEdge g g' source target backEdge answer _ hcall ih =>
      have hadded := ih.addControlEdge source target backEdge
      rwa [hcall] at hadded

/-- The supernode of a role that a block is given. -/
def superOf [Scalar α] : SuperRole → Nat → Operation α
  | .source => firstOf
  | .sink => lastOf

variable [Scalar α] {g g' : Graph α}

theorem superOf_mem_supers {count i : Nat} (role : SuperRole) (hi : i < count) :
    superOf (α := α) role i ∈ supers count := by
  refine List.mem_flatMap.mpr ⟨i, List.mem_range.mpr hi, ?_⟩
  cases role with
  | source => exact List.mem_cons_self
  | sink => exact List.mem_cons_of_mem _ List.mem_cons_self

namespace IsClosed

theorem isBuilt (h : g.IsClosed) : g.IsBuilt := by
  induction h with
  | bound h hcall => exact .bound h hcall
  | block _ hcall ih => exact .block ih hcall

theorem consistent (h : g.IsClosed) : g.Consistent := by
  induction h with
  | bound h hcall =>
      have hbounded := h.consistent.boundBlocks
      rwa [hcall] at hbounded
  | @block g g' name answer _ hcall ih =>
      cases (g.perform_addBlock name).symm.trans hcall
      exact ih.withBlock name

/-- Every operation is in a block that was given both supernodes. -/
theorem superOf_mem (h : g.IsClosed) (role : SuperRole) :
    ∀ op ∈ g.ops, superOf role op.block ∈ g.ops := by
  induction h with
  | @bound g g' h hcall =>
      have hopen : ∀ b ∈ g.blocks, b.isBounded = false := by
        intro b hb
        rcases List.mem_iff_getElem?.mp hb with ⟨i, hi⟩
        exact h.isBoundedUpTo.pending i b (Nat.zero_le i) hi
      have hinside : ∀ op ∈ g'.ops, op.block < g.blocks.length := by
        have hbounded := h.consistent.boundBlocks
        rw [hcall] at hbounded
        rw [← (isBounded_of_boundBlocks hcall).1]
        exact hbounded.inside
      intro op hop
      rw [ops_of_boundBlocks hopen hcall]
      exact List.mem_append_right _ (superOf_mem_supers role (hinside op hop))
  | @block g g' name answer _ hcall ih =>
      cases (g.perform_addBlock name).symm.trans hcall
      exact ih

/-- Control that does not go back leads from the last supernode of a block to the first
    one of another. -/
theorem linked (h : g.IsClosed) {c : ControlEdge} (hc : c ∈ g.controlEdges)
    (hforward : c.backEdge = false) :
    ∃ sink source, g.IsSuper .sink c.source sink ∧ g.IsSuper .source c.target source ∧
      g.Precedes sink source := by
  induction h with
  | @bound g g' h hcall =>
      have hbounded := h.consistent.boundBlocks
      rw [hcall] at hbounded
      rcases linked_of_boundBlocks hcall hc hforward with
        ⟨a, b, sink, source, ha, hsink, hb, hsource, hedge⟩
      exact ⟨sink, source, hbounded.isSuper_of_recorded .sink ha hsink,
        hbounded.isSuper_of_recorded .source hb hsource, hedge⟩
  | @block g g' name answer _ hcall ih =>
      cases (g.perform_addBlock name).symm.trans hcall
      exact ih hc

end IsClosed

theorem additions_isClosed : additions.IsClosed := .bound additionsDraft_isDrafted rfl

end

/-! ### Accepted graphs -/

section

variable {g : Graph Rat} {role : SuperRole} {i u : Nat}

/-- An accepted graph has an operation in every block. -/
theorem exists_super_of_defects (hdefects : g.defects = []) (hg : g.Consistent) (role : SuperRole)
    (hi : i < g.blocks.length) : ∃ u, g.IsSuper role i u := by
  have hone := countP_superNode hdefects (List.getElem_mem hi) role
  rw [hg.ids i _ (List.getElem?_eq_getElem hi)] at hone
  rcases List.countP_pos_iff.mp (hone ▸ Nat.one_pos) with ⟨op, hop, htest⟩
  rw [Bool.and_eq_true, beq_iff_eq, beq_iff_eq] at htest
  rcases List.mem_iff_getElem?.mp hop with ⟨u, hu⟩
  exact ⟨u, op, hu, htest⟩

/-- In an accepted graph every block has the supernodes that it was given. -/
theorem IsClosed.supers_mem (h : g.IsClosed) (hdefects : g.defects = []) (role : SuperRole)
    (hi : i < g.blocks.length) : superOf role i ∈ g.ops := by
  rcases exists_super_of_defects hdefects h.consistent role hi with ⟨u, op, hop, _, hblock⟩
  rw [← hblock]
  exact h.superOf_mem role op (List.mem_of_getElem? hop)

/-- A supernode of an accepted graph is the one that its block was given. -/
theorem IsClosed.eq_superOf (h : g.IsClosed) (role : SuperRole) (hdefects : g.defects = [])
    {op : Operation Rat}
    (hop : g.ops[u]? = some op) (hu : g.IsSuper role i u) : op = superOf role i := by
  rcases hu with ⟨op', hop', hkind, hblock⟩
  cases hop'.symm.trans hop
  have hi : i < g.blocks.length := hblock ▸ h.consistent.inside op (List.mem_of_getElem? hop)
  rcases List.mem_iff_getElem?.mp (h.supers_mem hdefects role hi) with ⟨w, hw⟩
  have hid := h.consistent.ids i _ (List.getElem?_eq_getElem hi)
  -- There is only one of each role.
  have hsame : u = w := by
    have hfirst : g.IsSuper role g.blocks[i].id u := ⟨op, hop, hkind, hblock.trans hid.symm⟩
    have hsecond : g.IsSuper role g.blocks[i].id w := by
      refine ⟨superOf role i, hw, ?_, ?_⟩
      · cases role <;> rfl
      · rw [hid]
        cases role <;> rfl
    exact hfirst.unique hdefects (List.getElem_mem hi) hsecond
  rw [hsame, hw] at hop
  exact (Option.some.inj hop).symm

end

/-- A bridge goes on over one more edge. -/
theorem Bridged.extend {α : Type} {g : Graph α} {u t s : Nat} (h : g.Bridged u t)
    (hstripped : g.IsStripped t) (hedge : g.Precedes t s) : g.Bridged u s := by
  induction h with
  | edge h => exact .through h hstripped (.edge hedge)
  | through h hmid _ ih => exact .through h hmid (ih hstripped hedge)

end Graph

namespace View

variable {g : Graph Rat} {v : View Rat} {sameBlockOnly : Bool} {a first : Node Rat}
  {block u t sink : Nat}

/-- A path within a block leads to an operation, or to a bridge over it. -/
def Approaches (v : View Rat) (g : Graph Rat) (sameBlockOnly : Bool) (first : Node Rat)
    (t : Nat) : Prop :=
  ∃ n ∈ v.nodes, n.block = first.block ∧ v.HasPath sameBlockOnly first n ∧
    (n.origin = t ∨ (g.IsStripped t ∧ g.Bridged n.origin t))

/-- An approach goes on along an edge in the block. -/
theorem Approaches.step (hdefects : g.defects = []) (hview : ofGraph g = .ok v)
    (h : v.Approaches g sameBlockOnly first u) (hedge : g.Precedes u t)
    (ht : g.IsIn first.block t) : v.Approaches g sameBlockOnly first t := by
  have hjoined := (Graph.fit_of_defects hdefects).joined
  rcases h with ⟨n, hn, hblock, hpath, hat⟩
  have hbridged : g.Bridged n.origin t := by
    rcases hat with rfl | ⟨hstripped, hbridged⟩
    · exact .edge hedge
    · exact hbridged.extend hstripped hedge
  by_cases hkept : g.IsKept t
  · rcases ht with ⟨op, hop, hin⟩
    have hnode : nodeOf t op ∈ v.nodes := by
      rcases hkept with ⟨op', hop', hkept'⟩
      cases hop.symm.trans hop'
      exact nodeOf_mem_nodes hview hop hkept'
    have hpair : (n, nodeOf t op) ∈ v.forwardPairs :=
      (mem_forwardPairs_iff hview).mpr ⟨hn, hnode,
        (Graph.mem_keptSuccessors_iff_bridged hjoined).mpr ⟨hkept, hbridged⟩⟩
    exact ⟨nodeOf t op, hnode, hin, hpath.tail (mem_emitted_of_block hpair (hblock.trans hin.symm)),
      .inl rfl⟩
  · have hstripped := (Graph.not_isKept_iff (Graph.IsJoined.target_lt hjoined hedge)).mp hkept
    exact ⟨n, hn, hblock, hpath, .inr ⟨hstripped, hbridged⟩⟩

/-- From the first supernode, every operation of its block is approached. -/
theorem approaches_of_encloses (sameBlockOnly : Bool) (hdefects : g.defects = [])
    (hview : ofGraph g = .ok v) (hfirst : first ∈ v.nodes)
    (henc : g.Encloses first.block first.origin sink)
    (hblock : ∃ b ∈ g.blocks, b.id = first.block) (hu : g.IsIn first.block u) :
    v.Approaches g sameBlockOnly first u := by
  have hstart : v.Approaches g sameBlockOnly first first.origin :=
    ⟨first, hfirst, rfl, .refl, .inl rfl⟩
  have hfit := Graph.fit_of_defects hdefects
  rcases hfit.ranked with ⟨rank, hrank⟩
  -- A member is entered from the supernode or from a member of lower rank.
  have hmember : ∀ t, g.IsMember first.block t → v.Approaches g sameBlockOnly first t := by
    intro t ht
    induction hr : rank t using Nat.strong_induction_on generalizing t with
    | _ r ih =>
        rcases henc.entered t ht with hedge | ⟨w, hw, hedge⟩
        · exact hstart.step hdefects hview hedge ht.isIn
        · exact (ih (rank w) (hr ▸ hrank w t hedge) w hw rfl).step hdefects hview hedge ht.isIn
  rcases hblock with ⟨b, hb, hid⟩
  have hunique : ∀ {role : SuperRole} {w w' : Nat}, g.IsSuper role first.block w →
      g.IsSuper role first.block w' → w = w' := by
    intro role w w' hw hw'
    rw [← hid] at hw hw'
    exact hw.unique hdefects hb hw'
  rcases hu.cases with hu | ⟨role, hu⟩
  · exact hmember u hu
  · cases role with
    | source => rwa [hunique hu henc.first]
    | sink =>
        rw [hunique hu henc.last]
        by_cases hsome : ∃ t, g.IsMember first.block t
        · -- A member that no other follows leads to the last supernode.
          rcases hfit.wellFounded_follows.has_min {t | g.IsMember first.block t} hsome with
            ⟨t, ht, hmin⟩
          rcases henc.left t ht with hedge | ⟨w, hw, hedge⟩
          · exact (hmember t ht).step hdefects hview hedge henc.last.isIn
          · exact absurd hedge (hmin w hw)
        · exact hstart.step hdefects hview (henc.empty fun t ht => hsome ⟨t, ht⟩) henc.last.isIn

/-- Every node has a path from the first node of its block. -/
theorem hasPath_from_source (hdefects : g.defects = []) (hview : ofGraph g = .ok v)
    (hfirst : first ∈ v.nodes) (henc : g.Encloses first.block first.origin sink)
    (hblock : ∃ b ∈ g.blocks, b.id = first.block) (ha : a ∈ v.nodes)
    (hin : a.block = first.block) : v.HasPath sameBlockOnly first a := by
  rcases (mem_nodes_iff hview).mp ha with ⟨op, hop, hkept, heq⟩
  have hu : g.IsIn first.block a.origin := ⟨op, hop, by rw [← hin, heq]; rfl⟩
  rcases approaches_of_encloses sameBlockOnly hdefects hview hfirst henc hblock hu with
    ⟨n, hn, _, hpath, horigin | ⟨⟨op', hop', hstripped⟩, _⟩⟩
  · rwa [← eq_of_origin hview hn ha horigin]
  · -- A node is not stripped.
    cases hop.symm.trans hop'
    rw [hkept] at hstripped
    cases hstripped

end View

end CyclePlan
