import CyclePlan.Proofs.Graph.Consistency

/-!
# What Bounding the Blocks Adds

The edges, the supernodes and the records that bounding the blocks brings in.

In a graph whose parts agree every edge that comes in is of one of four sorts, and
each sort says of both ends which block they are in and what they are (`Wiring`).
This holds for refused calls as well, because edges only come in with both supernodes
of a block, and links only with recorded ones.

Where the call succeeds there is more to say. Every block has recorded both
supernodes, whether it was given them or had them before (`isBounded_of_boundBlocks`),
and the last supernode of a block is linked to the first one of every block that
control passes to without going back (`linked_of_boundBlocks`). A second call finds
nothing left to do.

## Main definitions

* `Graph.Wiring`: The sorts of edges that come in.
* `Graph.Extends`: A graph has got supernodes, wiring and records, and nothing else.

## Theorems

* `Graph.extends_boundBlocks`: So it is with every call, refused or not.
* `Graph.isBounded_of_boundBlocks`, `Graph.linked_of_boundBlocks`: What a call leads to
  that succeeds.
* `Graph.perform_boundBlocks_again`: A second call changes nothing.
-/

namespace CyclePlan

namespace Graph

variable {α : Type}

/-! ### Sorts of edges -/

/-- The sorts of edges that come in when blocks are bounded. -/
inductive Wiring (g : Graph α) : Dependency → Prop
  | entering {i u t : Nat} (hu : g.IsSuper .source i u) (ht : g.IsMember i t) :
    Wiring g ⟨u, t, false⟩
  | leaving {i u t : Nat} (hu : g.IsMember i u) (ht : g.IsSuper .sink i t) :
    Wiring g ⟨u, t, false⟩
  | passing {i u t : Nat} (hu : g.IsSuper .source i u) (ht : g.IsSuper .sink i t) :
    Wiring g ⟨u, t, false⟩
  | linking {c : ControlEdge} {u t : Nat} (hc : c ∈ g.controlEdges) (hforward : c.backEdge = false)
    (hu : g.IsSuper .sink c.source u) (ht : g.IsSuper .source c.target t) :
    Wiring g ⟨u, t, false⟩

/-- A graph has got supernodes, and edges that are wiring, and nothing else. -/
structure Extends (g g' : Graph α) : Prop where
  gains : g.Gains g'
  edges : ∀ e ∈ g'.edges, e ∈ g.edges ∨ g'.Wiring e
  controlEdges : g'.controlEdges = g.controlEdges

variable {g g' g'' : Graph α} {e : Dependency}

theorem Wiring.mono (h : g.Wiring e) (hgains : g.Gains g')
    (hcontrol : g'.controlEdges = g.controlEdges) : g'.Wiring e := by
  cases h with
  | entering hu ht => exact .entering (hgains.isSuper hu) (hgains.isMember_iff.mpr ht)
  | leaving hu ht => exact .leaving (hgains.isMember_iff.mpr hu) (hgains.isSuper ht)
  | passing hu ht => exact .passing (hgains.isSuper hu) (hgains.isSuper ht)
  | linking hc hforward hu ht =>
      exact .linking (hcontrol ▸ hc) hforward (hgains.isSuper hu) (hgains.isSuper ht)

theorem IsSuper.kind_eq {role : SuperRole} {i u : Nat} {op : Operation α} (h : g.IsSuper role i u)
    (hop : g.ops[u]? = some op) : op.kind = role.kind := by
  rcases h with ⟨op', hop', hkind, _⟩
  cases hop'.symm.trans hop
  exact hkind

theorem IsMember.not_isSuper {i u : Nat} {op : Operation α} (h : g.IsMember i u)
    (hop : g.ops[u]? = some op) (role : SuperRole) : op.kind ≠ role.kind := by
  rcases h with ⟨op', hop', _, hordinary⟩
  cases hop'.symm.trans hop
  intro hkind
  rw [hkind, role.isSuper_kind] at hordinary
  cases hordinary

/-- At wiring, a first supernode is only entered from last ones, and a last one only left
    to first ones. -/
theorem Wiring.connected {u t : Nat} {back : Bool} {a b : Operation α}
    (h : g.Wiring ⟨u, t, back⟩) (ha : g.ops[u]? = some a) (hb : g.ops[t]? = some b) :
    (b.kind = .superSource → a.kind = .superSink) ∧
      (a.kind = .superSink → b.kind = .superSource) := by
  cases h with
  | entering hu ht =>
      rw [hu.kind_eq ha]
      exact ⟨fun hkind => absurd hkind (ht.not_isSuper hb .source), nofun⟩
  | leaving hu ht =>
      rw [ht.kind_eq hb]
      exact ⟨nofun, fun hkind => absurd hkind (hu.not_isSuper ha .sink)⟩
  | passing hu ht =>
      rw [hu.kind_eq ha, ht.kind_eq hb]
      exact ⟨nofun, nofun⟩
  | linking hc hforward hu ht =>
      rw [hu.kind_eq ha, ht.kind_eq hb]
      exact ⟨fun _ => rfl, fun _ => rfl⟩

theorem Extends.refl (g : Graph α) : g.Extends g := ⟨.refl g, fun _ he => .inl he, rfl⟩

theorem Extends.trans (h : g.Extends g') (h' : g'.Extends g'') : g.Extends g'' := by
  refine ⟨h.gains.trans h'.gains, fun e he => ?_, h'.controlEdges.trans h.controlEdges⟩
  rcases h'.edges e he with he | he
  · exact (h.edges e he).imp_right fun hw => hw.mono h'.gains h'.controlEdges
  · exact .inr he

/-- A supernode that is added is there, and nothing else is. -/
theorem extends_withOperation (g : Graph α) {op : Operation α} (hsuper : op.kind.isSuper = true) :
    g.Extends (g.withOperation op) :=
  ⟨⟨⟨[op], rfl, List.forall_mem_singleton.mpr hsuper⟩, List.Subset.refl _⟩, fun _ he => .inl he,
    rfl⟩

/-- So are links that are wiring. -/
theorem extends_withLinks {links : List (Nat × Nat)}
    (hlinks : ∀ link ∈ links, g.Wiring ⟨link.1, link.2, false⟩) :
    g.Extends (g.withLinks links) := by
  rcases g.withLinks_eq links with ⟨edges, heq⟩
  have hgains : g.Gains (g.withLinks links) := by
    refine .of_ops_eq (by rw [heq]) fun e he => ?_
    exact mem_edges_withLinks.mpr (.inl he)
  have hcontrol : (g.withLinks links).controlEdges = g.controlEdges := by rw [heq]
  refine ⟨hgains, fun e he => ?_, hcontrol⟩
  rcases mem_edges_withLinks.mp he with he | ⟨link, hlink, rfl⟩
  · exact .inl he
  · exact .inr ((hlinks link hlink).mono hgains hcontrol)

/-- What blocks have recorded are supernodes of theirs. -/
theorem Consistent.isSuper_of_recorded (h : g.Consistent) {i u : Nat} {b : Block}
    (role : SuperRole) (hb : g.blocks[i]? = some b) (hu : b.recorded? role = some u) :
    g.IsSuper role i u := by
  rcases h.recorded i b role u hb hu with ⟨op, hop, hkind, hblock, _⟩
  exact ⟨op, hop, hkind, hblock⟩

/-- A block with both supernodes has a first and a last one. -/
theorem exists_recorded_of_isBounded {b : Block} (h : b.isBounded = true) :
    ∃ source sink, b.source = some source ∧ b.sink = some sink := by
  rw [Block.isBounded, Bool.and_eq_true] at h
  rcases Option.isSome_iff_exists.mp h.1 with ⟨source, hsource⟩
  rcases Option.isSome_iff_exists.mp h.2 with ⟨sink, hsink⟩
  exact ⟨source, sink, hsource, hsink⟩

/-- Between blocks that have both supernodes every answer is a link. -/
theorem exists_link_of_answer (hbounded : ∀ b ∈ g.blocks, b.isBounded = true) {c : ControlEdge}
    {answer : Option (Nat × Nat)} (h : g.controlLink? c = .ok answer) :
    ∃ link, g.controlLink? c = .ok (some link) := by
  have hrecorded : ∀ (i : Nat) (b : Block), g.blocks[i]? = some b →
      ∃ source sink, b.source = some source ∧ b.sink = some sink := fun i b hb =>
    exists_recorded_of_isBounded (hbounded b (List.mem_of_getElem? hb))
  have ha : ∃ a, g.blocks[c.source]? = some a := by
    cases ha : g.blocks[c.source]? with
    | none =>
        simp only [controlLink?, block?, ha] at h
        cases h
    | some a => exact ⟨a, rfl⟩
  rcases ha with ⟨a, ha⟩
  rcases hrecorded _ a ha with ⟨_, sink, _, hsink⟩
  have hb : ∃ b, g.blocks[c.target]? = some b := by
    cases hb : g.blocks[c.target]? with
    | none =>
        simp only [controlLink?, block?, ha, hsink, hb] at h
        cases h
    | some b => exact ⟨b, rfl⟩
  rcases hb with ⟨b, hb⟩
  rcases hrecorded _ b hb with ⟨source, _, hsource, _⟩
  exact ⟨(sink, source), controlLink?_eq_some_iff.mpr ⟨a, b, ha, hsink, hb, hsource⟩⟩

section

variable [Scalar α] {i : Nat} {b : Block}

/-- The supernodes of one more block, and what the block has recorded then. -/
theorem withSupers_eq (g : Graph α) (i : Nat) (b : Block) :
    ∃ edges, g.withSupers i b =
        { g with
          ops := g.ops ++ [firstOf i, lastOf i]
          register := g.register ++ [Block.sourceName i, Block.sinkName i]
          edges
          blocks := g.blocks.modify i fun b =>
            { b with source := some g.ops.length, sink := some (g.ops.length + 1) } } ∧
      g.edges ⊆ edges ∧
      ∀ e ∈ edges, e ∈ g.edges ∨ IsJoining b.members g.ops.length (g.ops.length + 1) e := by
  rcases boundBy_eq ((g.withOperation (firstOf i)).withOperation (lastOf i)) i b g.ops.length
    (g.ops.length + 1) with ⟨edges, heq, hrest⟩
  refine ⟨edges, ?_, hrest⟩
  rw [withSupers, heq]
  simp only [withOperation, List.append_assoc, List.singleton_append]
  rfl

namespace Consistent

theorem extends_withSupers (h : g.Consistent) (hb : g.blocks[i]? = some b) :
    g.Extends (g.withSupers i b) := by
  rcases g.withSupers_eq i b with ⟨edges, heq, hsub, hall⟩
  have hops : (g.withSupers i b).ops = g.ops ++ [firstOf i, lastOf i] := by rw [heq]
  have hedges : (g.withSupers i b).edges = edges := by rw [heq]
  have hcontrol : (g.withSupers i b).controlEdges = g.controlEdges := by rw [heq]
  have hgains : g.Gains (g.withSupers i b) := by
    refine ⟨⟨_, hops, ?_⟩, hedges ▸ hsub⟩
    exact List.forall_mem_cons.mpr ⟨rfl, List.forall_mem_singleton.mpr rfl⟩
  have hfirst : (g.withSupers i b).IsSuper .source i g.ops.length := by
    refine ⟨firstOf i, ?_, rfl, rfl⟩
    rw [hops, List.getElem?_append_right (Nat.le_refl _), Nat.sub_self]
    rfl
  have hlast : (g.withSupers i b).IsSuper .sink i (g.ops.length + 1) := by
    refine ⟨lastOf i, ?_, rfl, rfl⟩
    rw [hops, List.getElem?_append_right (Nat.le_add_right _ 1), Nat.add_sub_cancel_left]
    rfl
  have hmember : ∀ u ∈ b.members, (g.withSupers i b).IsMember i u := fun u hu =>
    hgains.isMember_iff.mpr ((h.members i b hb u).mp hu)
  refine ⟨hgains, fun e he => ?_, hcontrol⟩
  rcases hall e (hedges ▸ he) with he | ⟨u, hu, rfl | rfl⟩ | ⟨_, rfl⟩
  · exact .inl he
  · exact .inr (.entering hfirst (hmember u hu))
  · exact .inr (.leaving (hmember u hu) hlast)
  · exact .inr (.passing hfirst hlast)

theorem extends_boundBlock (h : g.Consistent) (i : Nat) :
    g.Extends (perform (Graph.boundBlock i) g).2 := by
  rcases hresult : perform (Graph.boundBlock i) g with ⟨answer, g'⟩
  cases bounding_of_perform hresult with
  | kept _ => exact .refl _
  | refused _ _ _ _ => exact .refl _
  | halfway b hb hopen hfirst hlast => exact extends_withOperation _ rfl
  | bounded b hb hopen hfirst hlast heq =>
      rw [heq]
      exact h.extends_withSupers hb

/-- The parts of the graph agree after the loop over the blocks, and it was extended. -/
theorem extends_loop (h : g.Consistent) (bs : List Nat) :
    (perform (bs.forM Graph.boundBlock) g).2.Consistent ∧
      g.Extends (perform (bs.forM Graph.boundBlock) g).2 := by
  have hloop : Moves (fun g g' : Graph α => g.Consistent → g'.Consistent ∧ g.Extends g')
      (bs.forM Graph.boundBlock) := by
    refine Moves.forM (fun g h => ⟨h, .refl g⟩) (fun g g' g'' h h' hg => ?_) (fun i => ?_) _
    · exact ⟨(h' (h hg).1).1, (h hg).2.trans (h' (h hg).1).2⟩
    · exact fun g hg => ⟨hg.boundBlock i, hg.extends_boundBlock i⟩
  exact hloop g h

/-- Bounding the blocks adds supernodes and wiring, also where it is refused. -/
theorem extends_boundBlocks (h : g.Consistent) : g.Extends (perform Graph.boundBlocks g).2 := by
  have hbounded := h.extends_loop (List.range g.blocks.length)
  rw [perform_boundBlocks]
  rcases hresult : perform ((List.range g.blocks.length).forM Graph.boundBlock) g with ⟨answer, g₁⟩
  rw [hresult] at hbounded
  cases answer with
  | error e => exact hbounded.2
  | ok u =>
      simp only []
      cases hfound : (g₁.controlEdges.filter fun c => !c.backEdge).mapM g₁.controlLink? with
      | error e => exact hbounded.2
      | ok found =>
          refine hbounded.2.trans (extends_withLinks fun link hlink => ?_)
          rcases (mem_links_iff hfound).mp hlink with ⟨c, hc, hforward, hanswer⟩
          rcases controlLink?_eq_some_iff.mp hanswer with ⟨a, b, ha, hsink, hb, hsource⟩
          exact .linking hc hforward (hbounded.1.isSuper_of_recorded .sink ha hsink)
            (hbounded.1.isSuper_of_recorded .source hb hsource)

end Consistent

/-! ### What success means -/

/-- After the loop over the first blocks, those have recorded both supernodes. -/
theorem isBounded_of_rounds {count : Nat}
    (h : perform ((List.range count).forM boundBlock) g = (.ok ⟨⟩, g')) :
    g'.blocks.length = g.blocks.length ∧
      ∀ i < count, ∀ b, g'.blocks[i]? = some b → b.isBounded = true := by
  let P (count : Nat) (s : Graph α) : Prop := s.blocks.length = g.blocks.length ∧
    ∀ i < count, ∀ b, s.blocks[i]? = some b → b.isBounded = true
  have hround : ∀ k < count, ∀ s t, P k s →
      perform (boundBlock k) s = (.ok ⟨⟩, t) → P (k + 1) t := by
    rintro k hk s t ⟨hlength, hbounded⟩ hrun
    cases bounding_of_perform hrun with
    | kept hdone =>
        refine ⟨hlength, fun i hi b hb => ?_⟩
        rcases Nat.lt_succ_iff_lt_or_eq.mp hi with hlt | rfl
        · exact hbounded i hlt b hb
        · exact hdone b hb
    | bounded b₀ hb₀ hopen hfirst hlast heq =>
        rcases s.withSupers_eq k b₀ with ⟨edges, hsupers, _⟩
        rw [heq, hsupers]
        refine ⟨(List.length_modify _ _ _).trans hlength, fun i hi b' hb' => ?_⟩
        rw [List.getElem?_modify] at hb'
        rcases Option.map_eq_some_iff.mp hb' with ⟨b, hb, rfl⟩
        by_cases hik : k = i
        · rw [if_pos hik]
          rfl
        · rw [if_neg hik]
          exact hbounded i (by omega) b hb
  exact forM_range_induction hround ⟨rfl, fun i hi => absurd hi (Nat.not_lt_zero i)⟩ h

/-- After the loop over the blocks, every block has recorded both supernodes. -/
theorem isBounded_of_loop
    (h : perform ((List.range g.blocks.length).forM boundBlock) g = (.ok ⟨⟩, g')) :
    g'.blocks.length = g.blocks.length ∧ ∀ b ∈ g'.blocks, b.isBounded = true := by
  have hall := isBounded_of_rounds h
  refine ⟨hall.1, fun b hb => ?_⟩
  rcases List.mem_iff_getElem?.mp hb with ⟨i, hi⟩
  exact hall.2 i (hall.1 ▸ (List.getElem?_eq_some_iff.mp hi).1) b hi

/-- Where the blocks to look at are bounded, the loop changes nothing. -/
theorem perform_loop_of_bounded {is : List Nat}
    (h : ∀ i ∈ is, ∀ b, g.blocks[i]? = some b → b.isBounded = true) :
    perform (is.forM boundBlock) g = (.ok ⟨⟩, g) := by
  induction is with
  | nil => rfl
  | cons i is ih =>
      rw [List.forall_mem_cons] at h
      exact perform_forM_cons_ok_iff.mpr ⟨g, perform_boundBlock_of_bounded h.1, ih h.2⟩

omit [Scalar α] in
/-- Once the blocks are bounded, a control edge has an answer if it joins two of them. -/
theorem exists_link_iff (hbounded : ∀ b ∈ g.blocks, b.isBounded = true) {c : ControlEdge} :
    (∃ answer, g.controlLink? c = .ok answer) ↔
      c.source < g.blocks.length ∧ c.target < g.blocks.length := by
  constructor
  · rintro ⟨answer, hanswer⟩
    rcases exists_link_of_answer hbounded hanswer with ⟨link, hlink⟩
    rcases controlLink?_eq_some_iff.mp hlink with ⟨a, b, ha, _, hb, _⟩
    exact ⟨(List.getElem?_eq_some_iff.mp ha).1, (List.getElem?_eq_some_iff.mp hb).1⟩
  · rintro ⟨hsource, htarget⟩
    rcases exists_recorded_of_isBounded (hbounded _ (List.getElem_mem hsource)) with
      ⟨_, sink, _, hsink⟩
    rcases exists_recorded_of_isBounded (hbounded _ (List.getElem_mem htarget)) with
      ⟨source, _, hfirst, _⟩
    exact ⟨some (sink, source), controlLink?_eq_some_iff.mpr ⟨_, _,
      List.getElem?_eq_getElem hsource, hsink, List.getElem?_eq_getElem htarget, hfirst⟩⟩

omit [Scalar α] in
/-- Where control edges join blocks, no link is missing. -/
theorem Consistent.exists_links (h : g.Consistent) (hbounded : ∀ b ∈ g.blocks, b.isBounded = true) :
    ∃ found, (g.controlEdges.filter fun c => !c.backEdge).mapM g.controlLink? = .ok found := by
  refine ⟨_, mapM_ok_iff.mpr ⟨fun c => (g.controlLink? c).toOption.getD none, fun c hc => ?_, rfl⟩⟩
  rcases (exists_link_iff hbounded).mpr (h.controlJoined c (List.mem_of_mem_filter hc)) with
    ⟨link, hlink⟩
  simp only [hlink]
  rfl

/-- Where the blocks were bounded, the links of all forward control edges were found, and
    nothing but links came after the loop. -/
theorem exists_links_of_boundBlocks (h : perform boundBlocks g = (.ok ⟨⟩, g')) :
    ∃ g₁ found, perform ((List.range g.blocks.length).forM boundBlock) g = (.ok ⟨⟩, g₁) ∧
      (g₁.controlEdges.filter fun c => !c.backEdge).mapM g₁.controlLink? = .ok found ∧
      g' = g₁.withLinks (found.filterMap id) := by
  rw [perform_boundBlocks] at h
  rcases hloop : perform ((List.range g.blocks.length).forM boundBlock) g with ⟨answer, g₁⟩
  rw [hloop] at h
  cases answer with
  | error e => cases h
  | ok u =>
      simp only [] at h
      cases hfound : (g₁.controlEdges.filter fun c => !c.backEdge).mapM g₁.controlLink? with
      | error e =>
          rw [hfound] at h
          cases h
      | ok found =>
          rw [hfound] at h
          cases h
          exact ⟨g₁, found, rfl, hfound, rfl⟩

/-- A call that succeeds leaves every block with both supernodes recorded. -/
theorem isBounded_of_boundBlocks (h : perform boundBlocks g = (.ok ⟨⟩, g')) :
    g'.blocks.length = g.blocks.length ∧ ∀ b ∈ g'.blocks, b.isBounded = true := by
  rcases exists_links_of_boundBlocks h with ⟨g₁, found, hloop, _, rfl⟩
  rw [withLinks_blocks]
  exact isBounded_of_loop hloop

/-- A call that succeeds links the last supernode of a block to the first one of every
    block that control passes to. -/
theorem linked_of_boundBlocks (h : perform boundBlocks g = (.ok ⟨⟩, g')) {c : ControlEdge}
    (hc : c ∈ g'.controlEdges) (hforward : c.backEdge = false) :
    ∃ a b sink source, g'.blocks[c.source]? = some a ∧ a.sink = some sink ∧
      g'.blocks[c.target]? = some b ∧ b.source = some source ∧ g'.Precedes sink source := by
  have hbounded := (isBounded_of_boundBlocks h).2
  rcases exists_links_of_boundBlocks h with ⟨g₁, found, _, hfound, rfl⟩
  rw [withLinks_controlEdges] at hc
  rw [withLinks_blocks] at hbounded ⊢
  -- An answer was found for the edge, and no block lacks a supernode.
  rcases mapM_ok_iff.mp hfound with ⟨answer, hall, _⟩
  have hanswer := hall c (List.mem_filter.mpr ⟨hc, by rw [hforward, Bool.not_false]⟩)
  rcases exists_link_of_answer hbounded hanswer with ⟨link, hlink⟩
  rcases controlLink?_eq_some_iff.mp hlink with ⟨a, b, ha, hsink, hb, hsource⟩
  refine ⟨a, b, link.1, link.2, ha, hsink, hb, hsource, mem_edges_withLinks.mpr (.inr ?_)⟩
  exact ⟨link, (mem_links_iff hfound).mpr ⟨c, hc, hforward, hlink⟩, rfl⟩

/-- A second call finds nothing left to do. -/
theorem perform_boundBlocks_again (h : perform boundBlocks g = (.ok ⟨⟩, g')) :
    perform boundBlocks g' = (.ok ⟨⟩, g') := by
  have hbounded := (isBounded_of_boundBlocks h).2
  rcases exists_links_of_boundBlocks h with ⟨g₁, found, _, hfound, hlinks⟩
  have hblocks : g'.blocks = g₁.blocks := by rw [hlinks, withLinks_blocks]
  have hcontrol : g'.controlEdges = g₁.controlEdges := by rw [hlinks, withLinks_controlEdges]
  have hloop : perform ((List.range g'.blocks.length).forM boundBlock) g' = (.ok ⟨⟩, g') :=
    perform_loop_of_bounded fun i _ b hb => hbounded b (List.mem_of_getElem? hb)
  -- The links are the same as the first time, so all of them are there.
  have hthere : g'.withLinks (found.filterMap fun link => link) = g' := by
    refine withLinks_of_subset fun link hlink => ?_
    rw [hlinks]
    exact mem_edges_withLinks.mpr (.inr ⟨link, hlink, rfl⟩)
  rw [perform_boundBlocks, hloop]
  simp only [hcontrol, controlLink?_congr hblocks, hfound]
  exact congrArg (Prod.mk _) hthere

end

end Graph

end CyclePlan
