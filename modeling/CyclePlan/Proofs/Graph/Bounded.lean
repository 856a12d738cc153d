import Mathlib.Data.Prod.Lex
import CyclePlan.Proofs.Graph.Wiring
import CyclePlan.Proofs.Graph.Fit
import CyclePlan.Proofs.Graph.CanonicalOrder
import CyclePlan.Proofs.Scalar.Words

/-!
# Bounding Makes Graphs Fit

When a graph is accepted once its blocks are bounded.

A graph that lacks supernodes is never accepted. What else may be wrong with it is
listed in `Boundable`, in terms of the graph as it was drafted, and then bounding
succeeds and leaves no defect (`boundBlocks_sound`). The supernodes are counted as they
come in, two for each block, and their wiring is of sorts that the inspection lets pass.

Acyclicity is the one part that looks at the graph as a whole. Inside a block and
between blocks there is no cycle, and the wiring adds none: every edge leads to a block
that is later, or in the same block further towards its end, or between members along
the edges of the draft. These three are compared one after the other (`key`).

## Main definitions

* `Graph.supers`: The supernodes of the first blocks.
* `Graph.Boundable`: What a draft has to be like.
* `Graph.key`: Later blocks come first, then places in a block, then ranks there.

## Theorems

* `Graph.defects_eq_nil`: When an inspection finds nothing.
* `Graph.Boundable.exists_loop`: No block is refused its supernodes.
* `Graph.Boundable.acyclic_of_extends`: The wiring closes no cycle.
* `Graph.boundBlocks_sound`: The bounded graph is accepted, and bounding again changes
  nothing.
-/

namespace CyclePlan

namespace Graph

variable {α : Type} {g g' : Graph α}

/-! ### Graphs that are accepted -/

/-- Edges without a cycle have an order. -/
theorem exists_topologicalOrder (hjoined : ∀ e ∈ g.edges, e.source < g.size ∧ e.target < g.size)
    (hacyclic : ∀ u, ¬ Relation.TransGen g.Precedes u u) :
    ∃ order, g.topologicalOrder = .ok order := by
  have hsome := (topologicalOrder_sorts hjoined).isSome_iff.mpr hacyclic
  cases horder : g.topologicalOrder with
  | ok order => exact ⟨order, rfl⟩
  | error e => rw [horder] at hsome; cases hsome

section

variable [Scalar α]

theorem operationDefects_nil {blocks : Nat} {seen : List String} {ops : List (Operation α)}
    (hnames : (ops.map (·.name)).Nodup) (hseen : ∀ op ∈ ops, op.name ∉ seen)
    (hlatencies : ∀ op ∈ ops, isLatency op.latency = true)
    (hinside : ∀ op ∈ ops, op.block < blocks) : operationDefects blocks seen ops = [] := by
  induction ops generalizing seen with
  | nil => rfl
  | cons op rest ih =>
      rw [List.map_cons, List.nodup_cons] at hnames
      rw [List.forall_mem_cons] at hseen hlatencies hinside
      rw [operationDefects, if_neg fun h => hseen.1 (List.contains_iff_mem.mp h),
        if_neg (Nat.not_le.mpr hinside.1), if_pos hlatencies.1,
        ih hnames.2 ?_ hlatencies.2 hinside.2]
      · rfl
      · intro other hother hmem
        rcases List.mem_cons.mp hmem with heq | hmem
        · exact hnames.1 (List.mem_map.mpr ⟨other, hother, heq⟩)
        · exact hseen.2 other hother hmem

/-- An inspection finds nothing if none of its parts does. -/
theorem defects_eq_nil (hnames : (g.ops.map (·.name)).Nodup)
    (hlatencies : ∀ op ∈ g.ops, isLatency op.latency = true)
    (hinside : ∀ op ∈ g.ops, op.block < g.blocks.length)
    (hjoined : ∀ e ∈ g.edges, e.source < g.size ∧ e.target < g.size)
    (hsupers : ∀ b ∈ g.blocks, ∀ role : SuperRole,
      g.ops.countP (fun op => op.kind == role.kind && op.block == b.id) = 1)
    (hwired : ∀ u t a b, g.Precedes u t → g.ops[u]? = some a → g.ops[t]? = some b →
      (b.kind = .superSource → a.kind = .superSink) ∧
        (a.kind = .superSink → b.kind = .superSource))
    (hback : ∀ u t, ⟨u, t, true⟩ ∈ g.edges → ∀ a b, g.ops[u]? = some a → g.ops[t]? = some b →
      a.kind.isStripped = false → b.kind.isStripped = false → a.block = b.block)
    (hacyclic : ∀ u, ¬ Relation.TransGen g.Precedes u u) : g.defects = [] := by
  have hdangling : g.danglingEdges = [] :=
    List.filter_eq_nil_iff.mpr fun e he => not_dangling (hjoined e he)
  have hblocks : (g.blocks.flatMap fun b =>
      g.superNodeDefects b .source ++ g.superNodeDefects b .sink) = [] := by
    refine List.flatMap_eq_nil_iff.mpr fun b hb => ?_
    rw [superNodeDefects, superNodeDefects, hsupers b hb .source, hsupers b hb .sink]
    rfl
  have hconnections : g.atEnds connectionDefects g.forwardEdges = [] := by
    refine List.flatMap_eq_nil_iff.mpr fun e he => ?_
    split
    · next a b ha hb =>
      have hedge : g.Precedes e.source e.target := g.exists_forwardEdge_iff.mp ⟨e, he, rfl, rfl⟩
      rcases hwired e.source e.target a b hedge ha hb with ⟨hentered, hleft⟩
      rw [connectionDefects, if_neg fun h => h.2 (hentered h.1), if_neg fun h => h.2 (hleft h.1)]
      rfl
    · rfl
  have hbacks : g.atEnds backEdgeDefects g.backEdges = [] := by
    refine List.flatMap_eq_nil_iff.mpr fun e he => ?_
    rcases List.mem_filter.mp he with ⟨hedge, hloop⟩
    split
    · next a b ha hb =>
      have hsame := hback e.source e.target (by rw [← hloop]; exact hedge) a b ha hb
      rw [backEdgeDefects, if_pos]
      cases hkepta : a.kind.isStripped with
      | true => rfl
      | false =>
          cases hkeptb : b.kind.isStripped with
          | true => rfl
          | false => rw [hsame hkepta hkeptb, beq_self_eq_true, Bool.or_true]
    · rfl
  rcases exists_topologicalOrder hjoined hacyclic with ⟨order, horder⟩
  simp only [defects, hdangling, hblocks, hconnections, hbacks, horder,
    operationDefects_nil hnames (fun _ _ => List.not_mem_nil) hlatencies hinside]
  rfl

end

/-! ### Drafts -/

/-- What a draft has to be like for its blocks to be bounded and the graph accepted. -/
structure Boundable [Scalar α] (g : Graph α) : Prop where
  /-- No operation is a supernode yet. -/
  ordinary : ∀ op ∈ g.ops, op.kind.isSuper = false
  latencies : ∀ op ∈ g.ops, isLatency op.latency = true
  /-- The names of the supernodes are free. -/
  free : ∀ op ∈ g.ops, ∀ (role : SuperRole), ∀ i < g.blocks.length, op.name ≠ role.nodeName i
  /-- Back-edges between kept operations stay in their block. -/
  inBlock : ∀ u t, ⟨u, t, true⟩ ∈ g.edges → ∀ a b, g.ops[u]? = some a → g.ops[t]? = some b →
    a.kind.isStripped = false → b.kind.isStripped = false → a.block = b.block
  /-- No forward edges within a block form a cycle. -/
  acyclic : ∀ i u, ¬ Relation.TransGen
    (fun u t => g.Precedes u t ∧ g.IsMember i u ∧ g.IsMember i t) u u
  /-- Forward edges between blocks, and control that does not go back, raise some numbering
      of the blocks. -/
  ranked : ∃ rank : Nat → Nat,
    (∀ u t i j, g.Precedes u t → g.IsMember i u → g.IsMember j t → i ≠ j → rank i < rank j) ∧
      ∀ c ∈ g.controlEdges, c.backEdge = false → rank c.source < rank c.target

section

variable [Scalar α]

/-- The supernodes of the first blocks, in the order in which they come in. -/
def supers (count : Nat) : List (Operation α) :=
  (List.range count).flatMap fun i => [firstOf i, lastOf i]

theorem supers_succ (count : Nat) :
    supers (α := α) (count + 1) = supers count ++ [firstOf count, lastOf count] := by
  rw [supers, List.range_succ, List.flatMap_append, List.flatMap_singleton]
  rfl

theorem mem_supers {count : Nat} {op : Operation α} (h : op ∈ supers count) :
    op.latency = Scalar.ofInt 0 ∧
      ∃ (role : SuperRole), ∃ i < count, op.name = role.nodeName i := by
  rcases List.mem_flatMap.mp h with ⟨i, hi, hop⟩
  have hlt : i < count := List.mem_range.mp hi
  rcases List.mem_cons.mp hop with rfl | hop
  · exact ⟨rfl, .source, i, hlt, rfl⟩
  · rw [List.mem_singleton.mp hop]
    exact ⟨rfl, .sink, i, hlt, rfl⟩

/-- Each block has one supernode of each role, once it is its turn. -/
theorem countP_supers (count : Nat) (role : SuperRole) (i : Nat) :
    (supers (α := α) count).countP (fun op => op.kind == role.kind && op.block == i)
      = if i < count then 1 else 0 := by
  induction count with
  | zero => rfl
  | succ count ih =>
      have hpair : ([firstOf count, lastOf count] : List (Operation α)).countP
          (fun op => op.kind == role.kind && op.block == i) = if count = i then 1 else 0 := by
        have hfirst : (firstOf (α := α) count).block = count := rfl
        have hlast : (lastOf (α := α) count).block = count := rfl
        rw [List.countP_cons, List.countP_singleton, hfirst, hlast]
        by_cases hi : count = i
        · rw [if_pos hi, hi, beq_self_eq_true]
          cases role <;> rfl
        · rw [if_neg hi, beq_eq_false_iff_ne.mpr hi]
          simp only [Bool.and_false, Bool.false_eq_true, if_false]
      rw [supers_succ, List.countP_append, ih, hpair]
      split <;> split <;> split <;> omega

/-- Where no block is bounded yet, the loop over the first blocks adds their supernodes,
    and the others stay as they are. -/
theorem open_of_loop (hopen : ∀ b ∈ g.blocks, b.isBounded = false) {count : Nat}
    (hcount : count ≤ g.blocks.length)
    (h : perform ((List.range count).forM boundBlock) g = (.ok ⟨⟩, g')) :
    g'.ops = g.ops ++ supers count ∧ g'.blocks.length = g.blocks.length ∧
      ∀ (i : Nat) (b : Block), count ≤ i → g'.blocks[i]? = some b → b.isBounded = false := by
  let P (count : Nat) (s : Graph α) : Prop := s.ops = g.ops ++ supers count ∧
    s.blocks.length = g.blocks.length ∧
    ∀ (i : Nat) (b : Block), count ≤ i → s.blocks[i]? = some b → b.isBounded = false
  have hstart : P 0 g := ⟨(List.append_nil _).symm, rfl, fun i b _ hb =>
    hopen b (List.mem_of_getElem? hb)⟩
  refine forM_range_induction (P := P) (fun k hk s t hs hrun => ?_) hstart h
  rcases hs with ⟨hops, hlength, hrest⟩
  have hb : s.blocks[k]? = some s.blocks[k] :=
    List.getElem?_eq_getElem (hlength ▸ Nat.lt_of_lt_of_le hk hcount)
  cases bounding_of_perform hrun with
  | kept hdone =>
      -- The block is not bounded yet.
      exact absurd (hdone _ hb) (Bool.eq_false_iff.mp (hrest k _ (Nat.le_refl k) hb))
  | bounded b _ _ _ _ heq =>
      rcases s.withSupers_eq k b with ⟨edges, hsupers, _⟩
      rw [heq, hsupers]
      refine ⟨?_, (List.length_modify _ _ _).trans hlength, fun i b' hi hb' => ?_⟩
      · rw [supers_succ, ← List.append_assoc, ← hops]
      · rw [List.getElem?_modify] at hb'
        rcases Option.map_eq_some_iff.mp hb' with ⟨b, hb, rfl⟩
        rw [if_neg (Nat.ne_of_lt hi)]
        exact hrest i b (Nat.le_of_succ_le hi) hb

/-- So it is after all blocks. -/
theorem ops_of_boundBlocks (hopen : ∀ b ∈ g.blocks, b.isBounded = false)
    (h : perform boundBlocks g = (.ok ⟨⟩, g')) : g'.ops = g.ops ++ supers g.blocks.length := by
  rcases exists_links_of_boundBlocks h with ⟨g₁, found, hloop, _, rfl⟩
  exact (withLinks_ops _ _).trans (open_of_loop hopen (Nat.le_refl _) hloop).1

namespace Boundable

variable (h : g.Boundable) (hg : g.Consistent)
include h hg

/-- No block of a draft has recorded a supernode. -/
theorem isBounded_eq_false : ∀ b ∈ g.blocks, b.isBounded = false := by
  intro b hb
  rcases List.mem_iff_getElem?.mp hb with ⟨i, hi⟩
  cases hsource : b.source with
  | none => rw [Block.isBounded, hsource, Option.isSome_none, Bool.false_and]
  | some u =>
      -- It would be an operation of the draft.
      rcases hg.isSuper_of_recorded .source hi hsource with ⟨op, hop, hkind, _⟩
      have hordinary := h.ordinary op (List.mem_of_getElem? hop)
      rw [hkind] at hordinary
      cases hordinary

/-- No block is refused its supernodes. -/
theorem exists_loop {count : Nat} (hcount : count ≤ g.blocks.length) :
    ∃ s, perform ((List.range count).forM boundBlock) g = (.ok ⟨⟩, s) := by
  induction count with
  | zero => exact ⟨g, rfl⟩
  | succ count ih =>
      rcases ih (Nat.le_of_succ_le hcount) with ⟨s, hrun⟩
      rcases open_of_loop (h.isBounded_eq_false hg) (Nat.le_of_succ_le hcount) hrun with
        ⟨hops, hlength, hopen⟩
      have hs : s.Consistent := by
        have hloop := (hg.extends_loop (List.range count)).1
        rwa [hrun] at hloop
      have hlt : count < s.blocks.length := hlength ▸ hcount
      have hb : s.blocks[count]? = some s.blocks[count] := List.getElem?_eq_getElem hlt
      -- The names that are taken are those of the draft and of the blocks before.
      have hnew : ∀ role : SuperRole, role.nodeName count ∉ s.register := by
        intro role hmem
        rw [hs.register, hops, List.map_append, List.mem_append] at hmem
        rcases hmem with hmem | hmem
        · rcases List.mem_map.mp hmem with ⟨op, hop, hname⟩
          exact h.free op hop role count (hlength ▸ hlt) hname
        · rcases List.mem_map.mp hmem with ⟨op, hop, hname⟩
          rcases (mem_supers hop).2 with ⟨role', i, hi, hname'⟩
          rw [hname] at hname'
          exact absurd (SuperRole.nodeName_inj.mp hname').2 (Nat.ne_of_gt hi)
      have hlast : Block.sinkName count ∉ s.register ++ [Block.sourceName count] := by
        rw [List.mem_append, List.mem_singleton, not_or]
        refine ⟨hnew .sink, fun heq => ?_⟩
        have hnames : SuperRole.sink.nodeName count = SuperRole.source.nodeName count := heq
        exact nomatch (SuperRole.nodeName_inj.mp hnames).1
      refine ⟨s.withSupers count s.blocks[count], ?_⟩
      rw [List.range_succ, perform_forM_append, perform_bind_of_ok hrun]
      refine perform_forM_cons_ok_iff.mpr ⟨_, ?_, rfl⟩
      exact perform_boundBlock_of_open hb (hopen count _ (Nat.le_refl _) hb) (hnew .source) hlast

/-- Bounding the blocks succeeds. -/
theorem exists_bounded : ∃ g', perform boundBlocks g = (.ok ⟨⟩, g') := by
  rcases h.exists_loop hg (Nat.le_refl _) with ⟨s, hrun⟩
  have hs : s.Consistent := by
    have hloop := (hg.extends_loop (List.range g.blocks.length)).1
    rwa [hrun] at hloop
  rcases hs.exists_links (isBounded_of_loop hrun).2 with ⟨found, hfound⟩
  refine ⟨s.withLinks (found.filterMap fun link => link), ?_⟩
  rw [perform_boundBlocks, hrun]
  simp only [hfound]
  rfl

end Boundable

end

/-! ### Cycles -/

section

/-- The block of an operation. -/
def blockAt (g : Graph α) (u : Nat) : Nat := (g.ops[u]?).elim 0 (·.block)

/-- Whether an operation is at the start of its block, inside or at the end. -/
def placeAt (g : Graph α) (u : Nat) : Nat :=
  (g.ops[u]?).elim 1 fun op =>
    match op.kind with
    | .superSource => 0
    | .superSink => 2
    | _ => 1

/-- By this operations are compared: later blocks, then places in the block, then ranks
    among its members. -/
def key (g : Graph α) (rank : Nat → Nat) (inner : Nat → Nat → Nat) (u : Nat) : Nat ×ₗ Nat ×ₗ Nat :=
  toLex (rank (g.blockAt u), toLex (g.placeAt u, inner (g.blockAt u) u))

variable {i u t : Nat}

theorem IsMember.within (h : g.IsMember i u) : g.blockAt u = i ∧ g.placeAt u = 1 := by
  rcases h with ⟨op, hop, hblock, hkind⟩
  rw [blockAt, placeAt, hop]
  refine ⟨hblock, ?_⟩
  change (match op.kind with | .superSource => 0 | .superSink => 2 | _ => 1) = 1
  split
  · next heq => rw [heq] at hkind; cases hkind
  · next heq => rw [heq] at hkind; cases hkind
  · rfl

theorem IsSuper.first (h : g.IsSuper .source i u) : g.blockAt u = i ∧ g.placeAt u = 0 := by
  rcases h with ⟨op, hop, hkind, hblock⟩
  rw [blockAt, placeAt, hop]
  refine ⟨hblock, ?_⟩
  simp only [Option.elim_some, hkind, SuperRole.kind]

theorem IsSuper.last (h : g.IsSuper .sink i u) : g.blockAt u = i ∧ g.placeAt u = 2 := by
  rcases h with ⟨op, hop, hkind, hblock⟩
  rw [blockAt, placeAt, hop]
  refine ⟨hblock, ?_⟩
  simp only [Option.elim_some, hkind, SuperRole.kind]

variable {rank : Nat → Nat} {inner : Nat → Nat → Nat}

theorem key_lt_of_block (h : rank (g.blockAt u) < rank (g.blockAt t)) :
    g.key rank inner u < g.key rank inner t :=
  Prod.Lex.toLex_lt_toLex.mpr (.inl h)

theorem key_lt_of_place (hblock : g.blockAt u = g.blockAt t) (h : g.placeAt u < g.placeAt t) :
    g.key rank inner u < g.key rank inner t :=
  Prod.Lex.toLex_lt_toLex.mpr
    (.inr ⟨congrArg rank hblock, Prod.Lex.toLex_lt_toLex.mpr (.inl h)⟩)

theorem key_lt_of_inner (hblock : g.blockAt u = g.blockAt t) (hplace : g.placeAt u = g.placeAt t)
    (h : inner (g.blockAt u) u < inner (g.blockAt t) t) :
    g.key rank inner u < g.key rank inner t :=
  Prod.Lex.toLex_lt_toLex.mpr
    (.inr ⟨congrArg rank hblock, Prod.Lex.toLex_lt_toLex.mpr (.inr ⟨hplace, h⟩)⟩)

/-- Wiring raises the key, if control that does not go back raises the numbering of blocks. -/
theorem Wiring.key_lt {back : Bool} (h : g.Wiring ⟨u, t, back⟩)
    (hcontrol : ∀ c ∈ g.controlEdges, c.backEdge = false → rank c.source < rank c.target) :
    g.key rank inner u < g.key rank inner t := by
  cases h with
  | entering hu ht =>
      refine key_lt_of_place (hu.first.1.trans ht.within.1.symm) ?_
      rw [hu.first.2, ht.within.2]
      decide
  | leaving hu ht =>
      refine key_lt_of_place (hu.within.1.trans ht.last.1.symm) ?_
      rw [hu.within.2, ht.last.2]
      decide
  | passing hu ht =>
      refine key_lt_of_place (hu.first.1.trans ht.last.1.symm) ?_
      rw [hu.first.2, ht.last.2]
      decide
  | linking hc hforward hu ht =>
      refine key_lt_of_block ?_
      rw [hu.last.1, ht.first.1]
      exact hcontrol _ hc hforward

/-- So do edges between members that raise the numbering of blocks, or the rank in the block
    that both are in. -/
theorem IsMember.key_lt {j : Nat} (hu : g.IsMember i u) (ht : g.IsMember j t)
    (hblocks : i ≠ j → rank i < rank j) (hinner : i = j → inner i u < inner i t) :
    g.key rank inner u < g.key rank inner t := by
  by_cases hij : i = j
  · refine key_lt_of_inner (by rw [hu.within.1, ht.within.1, hij])
      (by rw [hu.within.2, ht.within.2]) ?_
    rw [hu.within.1, ht.within.1, ← hij]
    exact hinner hij
  · refine key_lt_of_block ?_
    rw [hu.within.1, ht.within.1]
    exact hblocks hij

variable [Scalar α]

/-- The wiring closes no cycle. -/
theorem Boundable.acyclic_of_extends (h : g.Boundable) (hg : g.Consistent) (hext : g.Extends g')
    (u : Nat) : ¬ Relation.TransGen g'.Precedes u u := by
  rcases h.ranked with ⟨rank, hblocks, hcontrol⟩
  have hmember : ∀ w < g.size, ∃ i, g.IsMember i w := fun w hw =>
    ⟨_, g.ops[w], List.getElem?_eq_getElem hw, rfl, h.ordinary _ (List.getElem_mem hw)⟩
  -- Within one block, the members are ranked as the draft has them.
  have hinner : ∀ i, ∃ r : Nat → Nat, ∀ w t,
      (g.Precedes w t ∧ g.IsMember i w ∧ g.IsMember i t) → r w < r t := fun i =>
    exists_rank_of_acyclic (n := g.size) (fun w t hedge => hg.joined _ hedge.1) (h.acyclic i)
  choose inner hinner using hinner
  have hraise : ∀ w t, g'.Precedes w t → g'.key rank inner w < g'.key rank inner t := by
    intro w t hedge
    rcases hext.edges _ hedge with hold | hwired
    · rcases hmember w (hg.joined _ hold).1 with ⟨i, hw⟩
      rcases hmember t (hg.joined _ hold).2 with ⟨j, ht⟩
      refine IsMember.key_lt (hext.gains.isMember_iff.mpr hw) (hext.gains.isMember_iff.mpr ht)
        (hblocks w t i j hold hw ht) fun hij => ?_
      exact hinner i w t ⟨hold, hw, hij ▸ ht⟩
    · exact hwired.key_lt fun c hc => hcontrol c (hext.controlEdges ▸ hc)
  intro hcycle
  have hless : Relation.TransGen (· < ·) (g'.key rank inner u) (g'.key rank inner u) :=
    hcycle.lift (g'.key rank inner) hraise
  rw [Relation.transGen_eq_self] at hless
  exact lt_irrefl _ hless

end

/-! ### The bounded graph -/

section

variable [Scalar α] [Scalar.ProperZero α]

/-- The inspection finds no defect in the bounded graph. -/
theorem Boundable.defects_eq_nil (h : g.Boundable) (hg : g.Consistent)
    (hrun : perform boundBlocks g = (.ok ⟨⟩, g')) : g'.defects = [] := by
  have hops := ops_of_boundBlocks (h.isBounded_eq_false hg) hrun
  have hg' : g'.Consistent := by
    have hbounded := hg.boundBlocks
    rwa [hrun] at hbounded
  have hext : g.Extends g' := by
    have hextends := hg.extends_boundBlocks
    rwa [hrun] at hextends
  have hlength := (isBounded_of_boundBlocks hrun).1
  have hzero : isLatency (Scalar.ofInt 0 : α) = true := by
    rw [isLatency, Scalar.ProperZero.finite, decide_eq_false Scalar.ProperZero.not_neg]
    rfl
  -- The operations of the draft are no supernodes, and they keep their numbers.
  have hold : ∀ {u : Nat} {op : Operation α}, u < g.size → g'.ops[u]? = some op →
      g.ops[u]? = some op ∧ op.kind.isSuper = false := by
    intro u op hu hop
    rw [hops, List.getElem?_append_left hu] at hop
    exact ⟨hop, h.ordinary op (List.mem_of_getElem? hop)⟩
  refine Graph.defects_eq_nil (hg'.register ▸ hg'.names) ?_ hg'.inside hg'.joined ?_ ?_ ?_
    (h.acyclic_of_extends hg hext)
  · rw [hops]
    refine List.forall_mem_append.mpr ⟨h.latencies, fun op hop => ?_⟩
    rw [(mem_supers hop).1, hzero]
  · intro b hb role
    rcases List.mem_iff_getElem?.mp hb with ⟨i, hi⟩
    have hlt : i < g.blocks.length := hlength ▸ (List.getElem?_eq_some_iff.mp hi).1
    rw [hg'.ids i b hi, hops, List.countP_append, countP_supers, if_pos hlt,
      List.countP_eq_zero.mpr]
    intro op hop
    have hordinary := h.ordinary op hop
    rw [Bool.and_eq_true, beq_iff_eq, beq_iff_eq]
    rintro ⟨hkind, _⟩
    rw [hkind, role.isSuper_kind] at hordinary
    cases hordinary
  · intro u t a b hedge ha hb
    rcases hext.edges _ hedge with hedge | hwired
    · have hkinda := (hold (hg.joined _ hedge).1 ha).2
      have hkindb := (hold (hg.joined _ hedge).2 hb).2
      refine ⟨fun hkind => ?_, fun hkind => ?_⟩
      · rw [hkind] at hkindb
        cases hkindb
      · rw [hkind] at hkinda
        cases hkinda
    · exact hwired.connected ha hb
  · intro u t hedge a b ha hb
    rcases hext.edges _ hedge with hedge | hwired
    · exact h.inBlock u t hedge a b (hold (hg.joined _ hedge).1 ha).1
        (hold (hg.joined _ hedge).2 hb).1
    · cases hwired

/-- The blocks of a graph that is drafted well are bounded, and the graph is accepted
    then. Where the blocks of any graph have been bounded, bounding them again changes
    nothing. -/
theorem boundBlocks_sound {name : String} {calls : List (Call α)}
    (h : (afterCalls { name } calls).Boundable) :
    (∃ g', perform boundBlocks (afterCalls { name } calls) = (.ok ⟨⟩, g') ∧ g'.defects = []) ∧
      ∀ g g' : Graph α, perform boundBlocks g = (.ok ⟨⟩, g') →
        perform boundBlocks g' = (.ok ⟨⟩, g') := by
  have hconsistent : (afterCalls { name } calls : Graph α).Consistent :=
    (Consistent.empty name).afterCalls calls
  rcases h.exists_bounded hconsistent with ⟨g', hrun⟩
  exact ⟨⟨g', hrun, h.defects_eq_nil hconsistent hrun⟩, fun _ _ => perform_boundBlocks_again⟩

end

/-- An addition and a multiplication that feed each other, a second addition in a block
    behind them, and a loop around both blocks. -/
def nestedDraft : Graph Rat where
  name := "nested"
  ops := [.ofKind "a" .add 0, .ofKind "b" .mul 0, .ofKind "c" .add 1]
  register := ["a", "b", "c"]
  edges := [⟨0, 1, false⟩, ⟨1, 0, true⟩, ⟨1, 2, false⟩]
  blocks := [{ id := 0, name := "inner", members := [0, 1] },
    { id := 1, name := "outer", members := [2] }]
  controlEdges := [⟨0, 1, false⟩, ⟨1, 0, true⟩]

/-- The calls that draft it. -/
def nestedCalls : List (Call Rat) :=
  [.addBlock "inner", .addBlock "outer", .addOperationOfKind "a" .add 0,
    .addOperationOfKind "b" .mul 0, .addOperationOfKind "c" .add 1, .addDependency "a" "b",
    .addBackEdge "b" "a", .addDependency "b" "c", .addControlEdge 0 1 false,
    .addControlEdge 1 0 true]

theorem afterCalls_nestedCalls : afterCalls { name := "nested" } nestedCalls = nestedDraft := rfl

/-- Operations are numbered along its dependencies. -/
theorem nestedDraft_raises {u t : Nat} (h : nestedDraft.Precedes u t) : u < t := by
  have hall : ∀ e ∈ nestedDraft.edges, e.backEdge = false → e.source < e.target := by decide
  exact hall _ h rfl

theorem nestedDraft_boundable : nestedDraft.Boundable := by
  have hnames : ∀ op ∈ nestedDraft.ops, (∀ i < 2, op.name ≠ Block.sourceName i) ∧
      ∀ i < 2, op.name ≠ Block.sinkName i := by decide
  refine ⟨by decide, by decide, fun op hop role i hi => ?_, fun u t h a b ha hb _ _ => ?_,
    fun i u hcycle => ?_, id, fun u t i j h hu ht hne => ?_, by decide⟩
  · cases role with
    | source => exact (hnames op hop).1 i hi
    | sink => exact (hnames op hop).2 i hi
  · -- The one back-edge leads from the multiplication to the first addition.
    have hall : ∀ e ∈ nestedDraft.edges, e.backEdge = true → e = ⟨1, 0, true⟩ := by decide
    cases hall _ h rfl
    cases ha
    cases hb
    rfl
  · have hraises : Relation.TransGen (· < ·) u u :=
      hcycle.lift id fun _ _ h => nestedDraft_raises h.1
    rw [Relation.transGen_eq_self] at hraises
    exact Nat.lt_irrefl u hraises
  · -- The operations are numbered along the blocks, too.
    have hsorted : nestedDraft.ops.Pairwise (fun a b => a.block ≤ b.block) := by decide
    rcases hu with ⟨a, ha, rfl, _⟩
    rcases ht with ⟨b, hb, rfl, _⟩
    rcases List.getElem?_eq_some_iff.mp ha with ⟨hu, rfl⟩
    rcases List.getElem?_eq_some_iff.mp hb with ⟨ht, rfl⟩
    exact Nat.lt_of_le_of_ne
      (List.pairwise_iff_getElem.mp hsorted u t hu ht (nestedDraft_raises h)) hne

/-- So it is for the two blocks in a loop. -/
theorem boundBlocks_sound_nested :
    (afterCalls { name := "nested" } nestedCalls).Boundable ∧
      (∃ g', perform boundBlocks (afterCalls { name := "nested" } nestedCalls)
        = (.ok ⟨⟩, g') ∧ g'.defects = []) ∧
      ∀ g g' : Graph Rat, perform boundBlocks g = (.ok ⟨⟩, g') →
        perform boundBlocks g' = (.ok ⟨⟩, g') := by
  have hboundable : (afterCalls { name := "nested" } nestedCalls).Boundable := by
    rw [afterCalls_nestedCalls]
    exact nestedDraft_boundable
  exact ⟨hboundable, boundBlocks_sound hboundable⟩

end Graph

end CyclePlan
