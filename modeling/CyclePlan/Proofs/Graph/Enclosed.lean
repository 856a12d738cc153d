import Mathlib.Data.Finset.Lattice.Fold
import CyclePlan.Proofs.Engine.Ends
import CyclePlan.Proofs.Graph.Construction

/-!
# Paths to the Ends of Blocks

In a graph that was built by calls, every node waits for nothing beyond its block's end.

The supernodes around a block are joined to its members one by one, and most of the
members only to each other. That a path leads from a member to the last supernode
takes acyclicity: a path that stays among the members runs out of them, and the only
other way to go on is to the end (`Encloses.exists_kept_next`). Members can be
stripped, so the steps of the path are those of the view, over bridges.

The path stays inside the block, so all its pairs get a constraint, whether or not
pairs between blocks do. Every node therefore starts no later than the last node of
its block, which is the one that is found by block (`View.exists_path_to_sink`).

## Main definitions

* `Graph.IsIn`: A number is that of an operation of a block.
* `View.HasPath`: A path of pairs that get a constraint.

## Theorems

* `Graph.Fit.wellFounded_follows`: Going forward comes to an end.
* `Graph.Encloses.exists_kept_next`: From every kept operation but the last, the view
  goes on in the block.
* `View.sinkOf?_eq`: The last node of a block is the one that is found.
* `View.exists_path_to_sink`: Every node has a path to the last one of its block.
-/

namespace CyclePlan

namespace Graph

/-- In a list with one item of a kind, items of the kind are at the same place. -/
theorem eq_of_countP_eq_one {β : Type} {p : β → Bool} {l : List β} (hone : l.countP p = 1)
    {i j : Nat} {a b : β} (hi : l[i]? = some a) (hj : l[j]? = some b) (ha : p a = true)
    (hb : p b = true) : i = j := by
  induction l generalizing i j with
  | nil => cases hone
  | cons c l ih =>
      cases hc : p c with
      | false =>
          rw [List.countP_cons_of_neg (by rw [hc]; exact Bool.false_ne_true)] at hone
          -- The first item is of another kind, so neither place is the first.
          cases i with
          | zero =>
              cases hi
              rw [hc] at ha
              cases ha
          | succ i =>
              cases j with
              | zero =>
                  cases hj
                  rw [hc] at hb
                  cases hb
              | succ j => rw [ih hone hi hj]
      | true =>
          rw [List.countP_cons_of_pos hc] at hone
          have hnone : ∀ d ∈ l, ¬ p d = true := List.countP_eq_zero.mp (Nat.succ.inj hone)
          cases i with
          | zero =>
              cases j with
              | zero => rfl
              | succ j => exact absurd hb (hnone b (List.mem_of_getElem? hj))
          | succ i => exact absurd ha (hnone a (List.mem_of_getElem? hi))

variable {g : Graph Rat} {block u t source sink : Nat} {role : SuperRole}

/-- A supernode of a block is the only one of its role. -/
theorem IsSuper.unique (hdefects : g.defects = []) {b : Block} (hb : b ∈ g.blocks)
    (hu : g.IsSuper role b.id u) (ht : g.IsSuper role b.id t) : u = t := by
  rcases hu with ⟨op, hop, hkind, hblock⟩
  rcases ht with ⟨op', hop', hkind', hblock'⟩
  refine eq_of_countP_eq_one (countP_superNode hdefects hb role) hop hop' ?_ ?_
  · rw [hkind, hblock, beq_self_eq_true, beq_self_eq_true, Bool.and_self]
  · rw [hkind', hblock', beq_self_eq_true, beq_self_eq_true, Bool.and_self]

theorem IsSuper.isKept (h : g.IsSuper role block u) : g.IsKept u := by
  rcases h with ⟨op, hop, hkind, _⟩
  refine ⟨op, hop, ?_⟩
  rw [hkind]
  cases role <;> rfl

/-- Going forward from an operation comes to an end. -/
theorem Fit.wellFounded_follows (h : g.Fit) : WellFounded fun t u => g.Precedes u t := by
  rcases h.ranked with ⟨rank, hrank⟩
  -- Edges raise the rank, and no operation has a rank above the greatest.
  let top := (Finset.range g.size).sup rank
  have hbelow : ∀ u < g.size, rank u ≤ top := fun u hu =>
    Finset.le_sup (Finset.mem_range.mpr hu)
  refine Subrelation.wf (fun {t u} hedge => ?_) (measure fun u => top - rank u).wf
  have hraise := hrank u t hedge
  have htop := hbelow t (h.joined _ hedge).2
  change top - rank t < top - rank u
  omega

/-- From a first member of a block no member leads to it. -/
theorem Fit.exists_first (h : g.Fit) (hsome : ∃ u, g.IsMember block u) :
    ∃ u, g.IsMember block u ∧ ∀ w, g.IsMember block w → ¬ g.Precedes w u := by
  rcases h.ranked with ⟨rank, hrank⟩
  have hwf : WellFounded g.Precedes :=
    Subrelation.wf (fun {u t} hedge => hrank u t hedge) (measure rank).wf
  rcases hwf.has_min {u | g.IsMember block u} hsome with ⟨u, hu, hmin⟩
  exact ⟨u, hu, fun w hw hedge => hmin w hw hedge⟩

/-- A number is that of an operation of a block. -/
def IsIn (g : Graph Rat) (block u : Nat) : Prop := ∃ op, g.ops[u]? = some op ∧ op.block = block

theorem IsMember.isIn (h : g.IsMember block u) : g.IsIn block u := by
  rcases h with ⟨op, hop, hblock, _⟩
  exact ⟨op, hop, hblock⟩

theorem IsSuper.isIn (h : g.IsSuper role block u) : g.IsIn block u := by
  rcases h with ⟨op, hop, _, hblock⟩
  exact ⟨op, hop, hblock⟩

/-- An operation of a block is a member or one of its supernodes. -/
theorem IsIn.cases (h : g.IsIn block u) :
    g.IsMember block u ∨ ∃ role, g.IsSuper role block u := by
  rcases h with ⟨op, hop, hblock⟩
  cases hkind : op.kind.isSuper with
  | false => exact .inl ⟨op, hop, hblock, hkind⟩
  | true =>
      right
      cases hop' : op.kind with
      | superSource => exact ⟨.source, op, hop, hop', hblock⟩
      | superSink => exact ⟨.sink, op, hop, hop', hblock⟩
      | _ =>
          rw [hop'] at hkind
          cases hkind

/-- After an edge into a block, the view goes on there if it does from stripped
    operations. -/
theorem IsIn.exists_bridged (hw : g.IsIn block t) (hfit : g.Fit) (hedge : g.Precedes u t)
    (hon : ∃ w, g.IsIn block w ∧ g.IsKept w ∧ g.Bridged t w) :
    ∃ w, g.IsIn block w ∧ g.IsKept w ∧ g.Bridged u w := by
  by_cases hkept : g.IsKept t
  · exact ⟨t, hw, hkept, .edge hedge⟩
  · have hstripped := (not_isKept_iff (IsJoined.target_lt hfit.joined hedge)).mp hkept
    rcases hon with ⟨w, hw, hkeptw, hbridged⟩
    exact ⟨w, hw, hkeptw, .through hedge hstripped hbridged⟩

namespace Encloses

/-- From a member a path through stripped operations leads on in the block. -/
theorem exists_kept_after_member (h : g.Encloses block source sink) (hfit : g.Fit)
    (hu : g.IsMember block u) : ∃ w, g.IsIn block w ∧ g.IsKept w ∧ g.Bridged u w := by
  -- Going forward among the members comes to an end, and that is the last supernode.
  induction u using hfit.wellFounded_follows.induction with
  | _ u ih =>
      rcases h.left u hu with hedge | ⟨w, hw, hedge⟩
      · exact ⟨sink, h.last.isIn, h.last.isKept, .edge hedge⟩
      · exact hw.isIn.exists_bridged hfit hedge (ih w hedge hw)

/-- From the first supernode, too. -/
theorem exists_kept_after_source (h : g.Encloses block source sink) (hfit : g.Fit) :
    ∃ w, g.IsIn block w ∧ g.IsKept w ∧ g.Bridged source w := by
  by_cases hsome : ∃ u, g.IsMember block u
  · -- A member that comes after no other is joined to the supernode.
    rcases hfit.exists_first hsome with ⟨u, hu, hfirst⟩
    rcases h.entered u hu with hedge | ⟨w, hw, hedge⟩
    · exact hu.isIn.exists_bridged hfit hedge (h.exists_kept_after_member hfit hu)
    · exact absurd hedge (hfirst w hw)
  · exact ⟨sink, h.last.isIn, h.last.isKept,
      .edge (h.empty fun u hu => hsome ⟨u, hu⟩)⟩

/-- From every operation of the block but the last, the view goes on in the block. -/
theorem exists_kept_next (h : g.Encloses block source sink) (hdefects : g.defects = [])
    (hblock : ∃ b ∈ g.blocks, b.id = block) (hu : g.IsIn block u) (hne : u ≠ sink) :
    ∃ w, g.IsIn block w ∧ g.IsKept w ∧ g.Bridged u w := by
  rcases hblock with ⟨b, hb, rfl⟩
  have hfit := fit_of_defects hdefects
  rcases hu.cases with hmember | ⟨role, hsuper⟩
  · exact h.exists_kept_after_member hfit hmember
  · cases role with
    | source =>
        rw [hsuper.unique hdefects hb h.first]
        exact h.exists_kept_after_source hfit
    | sink => exact absurd (hsuper.unique hdefects hb h.last) hne

end Encloses

end Graph

namespace View

variable {g : Graph Rat} {v : View Rat} {sameBlockOnly : Bool} {a b : Node Rat}

/-- A path of pairs that get a constraint. -/
def HasPath (v : View Rat) (sameBlockOnly : Bool) : Node Rat → Node Rat → Prop :=
  Relation.ReflTransGen fun a b => (a, b) ∈ v.emitted sameBlockOnly

/-- Along a path nodes start later and later. -/
theorem HasPath.le {y : String → Rat} (hpath : v.HasPath sameBlockOnly a b)
    (hlatency : ∀ n ∈ v.nodes, 0 ≤ n.latency)
    (hpairs : ∀ p ∈ v.emitted sameBlockOnly,
      y (startVar p.1.name) + p.1.latency ≤ y (startVar p.2.name)) :
    y (startVar a.name) ≤ y (startVar b.name) := by
  induction hpath with
  | refl => exact le_refl _
  | @tail b c _ hpair ih =>
      have hnode := (mem_nodes_of_forwardPairs (List.mem_of_mem_filter hpair)).1
      have hrow := hpairs (b, c) hpair
      have hsign := hlatency b hnode
      linarith

/-- A pair within a block gets a constraint. -/
theorem mem_emitted_of_block (h : (a, b) ∈ v.forwardPairs) (hblock : a.block = b.block) :
    (a, b) ∈ v.emitted sameBlockOnly := by
  refine List.mem_filter.mpr ⟨h, ?_⟩
  simp only [Engine.isEmitted, hblock, beq_self_eq_true, Bool.or_true, Bool.true_or]

theorem isSuper_of_mem_sinks (hview : ofGraph g = .ok v) (ha : a ∈ v.sinks) :
    g.IsSuper .sink a.block a.origin := by
  rcases mem_sinks_iff.mp ha with ⟨hnode, hkind⟩
  rcases (mem_nodes_iff hview).mp hnode with ⟨op, hop, _, heq⟩
  rw [heq] at hkind
  exact ⟨op, hop, hkind, by rw [heq]; rfl⟩

theorem eq_of_origin (hview : ofGraph g = .ok v) (ha : a ∈ v.nodes) (hb : b ∈ v.nodes)
    (horigin : a.origin = b.origin) : a = b :=
  List.inj_on_of_nodup_map (origins_nodup hview) ha hb horigin

/-- Whichever sink of a block is found first, there is only one. -/
theorem sinkOf?_eq (hdefects : g.defects = []) (hview : ofGraph g = .ok v) {last : Node Rat}
    (hlast : last ∈ v.sinks) (hblock : ∃ b ∈ g.blocks, b.id = last.block) :
    v.sinkOf? last.block = some last := by
  rcases mem_sinks_iff.mp hlast with ⟨hnode, hkind⟩
  rcases hfound : v.sinkOf? last.block with _ | found
  · have hnot := List.find?_eq_none.mp hfound last hnode
    simp only [hkind, beq_self_eq_true, Bool.and_self, not_true_eq_false] at hnot
  · have htest := List.find?_some hfound
    rw [Bool.and_eq_true, beq_iff_eq, beq_iff_eq] at htest
    have hmem := List.mem_of_find?_eq_some hfound
    have hsuper := isSuper_of_mem_sinks hview (mem_sinks_iff.mpr ⟨hmem, htest.1⟩)
    rcases hblock with ⟨b, hb, hid⟩
    have hlastSuper := isSuper_of_mem_sinks hview hlast
    rw [htest.2, ← hid] at hsuper
    rw [← hid] at hlastSuper
    rw [eq_of_origin hview hmem hnode (hsuper.unique hdefects hb hlastSuper)]

/-- Going on in an enclosed block leads to its end. -/
theorem hasPath_of_encloses (hdefects : g.defects = []) (hview : ofGraph g = .ok v)
    {block source : Nat} {last : Node Rat} (hlast : last ∈ v.nodes)
    (henc : g.Encloses block source last.origin) (hblock : ∃ b ∈ g.blocks, b.id = block)
    (sameBlockOnly : Bool) (ha : a ∈ v.nodes) (hin : a.block = block) :
    v.HasPath sameBlockOnly a last := by
  have hfit := Graph.fit_of_defects hdefects
  -- The view goes on over bridges, which are several edges at once.
  induction hu : a.origin using hfit.wellFounded_follows.transGen.induction generalizing a with
  | _ u ih =>
      by_cases hend : a.origin = last.origin
      · rw [eq_of_origin hview ha hlast hend]
        exact .refl
      · rcases (mem_nodes_iff hview).mp ha with ⟨op, hop, _, heq⟩
        have hinop : g.IsIn block a.origin := ⟨op, hop, by rw [← hin, heq]; rfl⟩
        rcases henc.exists_kept_next hdefects hblock hinop hend with
          ⟨w, ⟨opw, hopw, hwblock⟩, hkeptw, hbridged⟩
        have hw : nodeOf w opw ∈ v.nodes := by
          rcases hkeptw with ⟨op', hop', hkept'⟩
          cases hopw.symm.trans hop'
          exact nodeOf_mem_nodes hview hopw hkept'
        have hpair : (a, nodeOf w opw) ∈ v.forwardPairs :=
          (mem_forwardPairs_iff hview).mpr ⟨ha, hw,
            (Graph.mem_keptSuccessors_iff_bridged hfit.joined).mpr ⟨hkeptw, hbridged⟩⟩
        refine .head (mem_emitted_of_block hpair (hin.trans hwblock.symm)) (ih w ?_ hw hwblock rfl)
        rw [← hu]
        exact Relation.transGen_swap.mp hbridged.transGen

/-- Every node has a path to the last node of its block, which is found by block. -/
theorem exists_path_to_sink (hbuilt : g.IsBuilt) (hdefects : g.defects = [])
    (hview : ofGraph g = .ok v) (sameBlockOnly : Bool) {n : Node Rat} (hn : n ∈ v.nodes) :
    ∃ last ∈ v.sinks, v.sinkOf? n.block = some last ∧ v.HasPath sameBlockOnly n last := by
  rcases (mem_nodes_iff hview).mp hn with ⟨op, hop, _, heq⟩
  have hnblock : n.block = op.block := by rw [heq]; rfl
  rcases hbuilt.encloses op (List.mem_of_getElem? hop) with ⟨hblock, source, sink, henc⟩
  rcases henc.last with ⟨lastOp, hlastOp, hlastKind, hlastBlock⟩
  have hlastNode : nodeOf sink lastOp ∈ v.nodes :=
    nodeOf_mem_nodes hview hlastOp (by rw [hlastKind]; rfl)
  have hlast : nodeOf sink lastOp ∈ v.sinks := mem_sinks_iff.mpr ⟨hlastNode, hlastKind⟩
  have hsame : (nodeOf sink lastOp).block = op.block := hlastBlock
  refine ⟨nodeOf sink lastOp, hlast, ?_, ?_⟩
  · rw [hnblock, ← hsame]
    exact sinkOf?_eq hdefects hview hlast (hsame ▸ hblock)
  · exact hasPath_of_encloses hdefects hview hlastNode henc hblock sameBlockOnly hn hnblock

end View

end CyclePlan
