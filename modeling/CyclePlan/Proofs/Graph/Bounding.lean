import CyclePlan.Proofs.Graph.Construction

/-!
# The Step that Bounds Blocks

What bounding the blocks of a graph does, refusals included.

The step has two parts. A loop gives each block that lacks them two supernodes, and
stops where a name is taken; by then the blocks before have theirs, and of the block at
which it stops the first supernode may be there alone. `Bounding` lists these ways
for one block. Only after the loop are the links between blocks looked up, all
of them before one is added, so that a refusal among them adds none
(`perform_boundBlocks`).

Which edges come in is a question of its own. Joining the members reads the
edges while it adds to them, but whatever it adds joins a member to a supernode
(`boundBy_induction`).

## Main definitions

* `Graph.firstOf`, `Graph.lastOf`: The supernodes that a block is given.
* `Graph.withSupers`: A graph after the supernodes of one more block.
* `Graph.Bounding`: The ways in which bounding one block ends.
* `Graph.withLinks`: A graph after links between supernodes.

## Theorems

* `Graph.bounding`: Bounding one block ends in one of these ways.
* `Graph.perform_boundBlock_of_open`: A block whose names are free is bounded.
* `Graph.perform_boundBlocks`: The step as a loop and a list of links.
* `Graph.boundBy_induction`, `Graph.boundBy_eq`: What comes in with supernodes.
-/

namespace CyclePlan

/-- Steps that cannot be refused, one after the other. -/
theorem perform_forM_modify {ε σ β : Type} (f : β → σ → σ) (bs : List β) (s : σ) :
    perform (bs.forM fun b => (modify (f b) : ExceptT ε (StateM σ) PUnit)) s
      = (.ok ⟨⟩, bs.foldl (fun s b => f b s) s) := by
  induction bs generalizing s with
  | nil => rfl
  | cons b bs ih => rw [perform_forM_cons, perform_bind_of_ok (perform_modify _ s), ih,
      List.foldl_cons]

namespace Graph

variable {α : Type}

section

variable {g : Graph α} {op : Operation α}

/-- An operation with a new name is added to a block that there is. -/
theorem perform_addOperation_of_free (hname : op.name ∉ g.register)
    (hblock : op.block < g.blocks.length) :
    perform (addOperation op) g = (.ok g.ops.length, g.withOperation op) := by
  rw [perform_addOperation, if_neg fun h => hname (List.contains_iff_mem.mp h),
    if_neg (Nat.not_le.mpr hblock)]

theorem perform_addOperation_of_taken (hname : op.name ∈ g.register) :
    perform (addOperation op) g = (.error (.nameTaken op.name), g) := by
  rw [perform_addOperation, if_pos (List.contains_iff_mem.mpr hname)]

theorem perform_requireNode_of_known {name : String} {id : Nat} (hname : g.idOf? name = some id) :
    perform (requireNode name) g = (.ok id, g) := by
  rw [requireNode, perform_bind_of_ok (perform_get g), hname]
  rfl

theorem perform_requireNode_of_unknown {name : String} (hname : g.idOf? name = none) :
    perform (requireNode name) g = (.error (.unknownNode name), g) := by
  rw [requireNode, perform_bind_of_ok (perform_get g), hname]
  rfl

end

/-! ### Links -/

section

variable {g : Graph α} {links : List (Nat × Nat)} {e : Dependency}

/-- A graph after links between supernodes. -/
def withLinks (g : Graph α) (links : List (Nat × Nat)) : Graph α :=
  links.foldl (fun g link => g.withEdge ⟨link.1, link.2, false⟩) g

theorem mem_edges_withEdge {e' : Dependency} :
    e' ∈ (g.withEdge e).edges ↔ e' ∈ g.edges ∨ e' = e := by
  rw [withEdge]
  split
  · next h =>
    refine ⟨.inl, fun h' => h'.elim id fun heq => ?_⟩
    rw [heq]
    exact List.contains_iff_mem.mp h
  · exact List.mem_append.trans (or_congr_right List.mem_singleton)

/-- An edge is there exactly if it was there before or is one of the links. -/
theorem mem_edges_withLinks :
    e ∈ (g.withLinks links).edges ↔
      e ∈ g.edges ∨ ∃ link ∈ links, e = ⟨link.1, link.2, false⟩ := by
  induction links generalizing g with
  | nil => exact ⟨.inl, fun h => h.resolve_right fun ⟨_, h, _⟩ => List.not_mem_nil h⟩
  | cons link links ih =>
      rw [withLinks, List.foldl_cons]
      rw [show List.foldl _ (g.withEdge ⟨link.1, link.2, false⟩) links
        = (g.withEdge ⟨link.1, link.2, false⟩).withLinks links from rfl, ih, mem_edges_withEdge]
      simp only [List.mem_cons, exists_eq_or_imp, or_assoc]

/-- Links change nothing but the edges. -/
theorem withLinks_eq (g : Graph α) (links : List (Nat × Nat)) :
    ∃ edges, g.withLinks links = { g with edges } := by
  induction links generalizing g with
  | nil => exact ⟨g.edges, rfl⟩
  | cons link links ih =>
      rcases ih (g.withEdge ⟨link.1, link.2, false⟩) with ⟨edges, heq⟩
      refine ⟨edges, heq.trans ?_⟩
      rw [withEdge]
      split <;> rfl

@[simp] theorem withLinks_ops (g : Graph α) (links : List (Nat × Nat)) :
    (g.withLinks links).ops = g.ops := by
  rcases g.withLinks_eq links with ⟨edges, heq⟩
  rw [heq]

@[simp] theorem withLinks_blocks (g : Graph α) (links : List (Nat × Nat)) :
    (g.withLinks links).blocks = g.blocks := by
  rcases g.withLinks_eq links with ⟨edges, heq⟩
  rw [heq]

@[simp] theorem withLinks_controlEdges (g : Graph α) (links : List (Nat × Nat)) :
    (g.withLinks links).controlEdges = g.controlEdges := by
  rcases g.withLinks_eq links with ⟨edges, heq⟩
  rw [heq]

/-- Links that are there already are not added. -/
theorem withLinks_of_subset (h : ∀ link ∈ links, ⟨link.1, link.2, false⟩ ∈ g.edges) :
    g.withLinks links = g := by
  induction links with
  | nil => rfl
  | cons link links ih =>
      rw [List.forall_mem_cons] at h
      have hsame : g.withEdge ⟨link.1, link.2, false⟩ = g :=
        if_pos (List.contains_iff_mem.mpr h.1)
      rw [withLinks, List.foldl_cons, hsame]
      exact ih h.2

/-- Links are looked up in the blocks alone. -/
theorem controlLink?_congr {g' : Graph α} (h : g'.blocks = g.blocks) :
    g'.controlLink? = g.controlLink? := by
  funext c
  simp only [controlLink?, block?, h]

/-- A link joins the last supernode of one block to the first of another, where both are
    recorded. -/
theorem controlLink?_eq_some_iff {c : ControlEdge} {link : Nat × Nat} :
    g.controlLink? c = .ok (some link) ↔
      ∃ a b, g.blocks[c.source]? = some a ∧ a.sink = some link.1 ∧
        g.blocks[c.target]? = some b ∧ b.source = some link.2 := by
  simp only [controlLink?, block?]
  constructor
  · intro h
    cases ha : g.blocks[c.source]? with
    | none =>
        rw [ha] at h
        cases h
    | some a =>
        simp only [ha] at h
        cases hsink : a.sink with
        | none =>
            rw [hsink] at h
            cases h
        | some sink =>
            simp only [hsink] at h
            cases hb : g.blocks[c.target]? with
            | none =>
                rw [hb] at h
                cases h
            | some b =>
                simp only [hb] at h
                rcases Option.map_eq_some_iff.mp (Except.ok.inj h) with ⟨source, hsource, rfl⟩
                exact ⟨a, b, rfl, hsink, rfl, hsource⟩
  · rintro ⟨a, b, ha, hsink, hb, hsource⟩
    simp only [ha, hsink, hb, hsource]
    rfl

/-- The links that are found are those of the forward control edges. -/
theorem mem_links_iff {found : List (Option (Nat × Nat))} {link : Nat × Nat}
    (h : (g.controlEdges.filter fun c => !c.backEdge).mapM g.controlLink? = .ok found) :
    link ∈ found.filterMap id ↔
      ∃ c ∈ g.controlEdges, c.backEdge = false ∧ g.controlLink? c = .ok (some link) := by
  rcases mapM_ok_iff.mp h with ⟨answer, hall, rfl⟩
  constructor
  · intro hlink
    rcases List.mem_filterMap.mp hlink with ⟨_, hmem, hsome⟩
    rcases List.mem_map.mp hmem with ⟨c, hc, rfl⟩
    rcases List.mem_filter.mp hc with ⟨hedge, hforward⟩
    refine ⟨c, hedge, by simpa using hforward, ?_⟩
    rw [hall c hc]
    exact congrArg Except.ok hsome
  · rintro ⟨c, hedge, hforward, hanswer⟩
    have hc : c ∈ g.controlEdges.filter fun c => !c.backEdge :=
      List.mem_filter.mpr ⟨hedge, by rw [hforward, Bool.not_false]⟩
    have hsome : answer c = some link := Except.ok.inj ((hall c hc).symm.trans hanswer)
    exact List.mem_filterMap.mpr ⟨answer c, List.mem_map_of_mem hc, hsome⟩

/-- Looking up links changes nothing. -/
theorem perform_mapM_liftExcept {β γ : Type} (f : β → Except GraphError γ) (bs : List β)
    (g : Graph α) :
    perform (bs.mapM fun b => (boundBlocks.liftExcept (f b) : GraphM α γ)) g
      = (bs.mapM f, g) := by
  induction bs with
  | nil => rfl
  | cons b bs ih =>
      rw [List.mapM_cons, List.mapM_cons]
      cases hfirst : f b with
      | error e => rfl
      | ok c =>
          have hpure : perform (boundBlocks.liftExcept (.ok c) : GraphM α γ) g = (.ok c, g) := rfl
          rw [perform_bind_of_ok hpure, perform_bind, ih]
          cases bs.mapM f <;> rfl

variable [Scalar α]

/-- Bounding the blocks is a loop over them, and then links that are looked up before
    one is added. -/
theorem perform_boundBlocks (g : Graph α) :
    perform boundBlocks g =
      match perform ((List.range g.blocks.length).forM boundBlock) g with
      | (.error e, g₁) => (.error e, g₁)
      | (.ok _, g₁) =>
        match (g₁.controlEdges.filter fun c => !c.backEdge).mapM g₁.controlLink? with
        | .error e => (.error e, g₁)
        | .ok links => (.ok ⟨⟩, g₁.withLinks (links.filterMap id)) := by
  rw [boundBlocks, perform_bind_of_ok (perform_get g)]
  simp only [forIn_yield, bind_pure_unit]
  rw [perform_bind]
  rcases perform ((List.range g.blocks.length).forM boundBlock) g with ⟨answer, g₁⟩
  cases answer with
  | error e => rfl
  | ok u =>
      simp only []
      rw [perform_bind_of_ok (perform_get g₁), perform_bind, perform_mapM_liftExcept]
      cases (g₁.controlEdges.filter fun c => !c.backEdge).mapM g₁.controlLink? with
      | error e => rfl
      | ok links => exact perform_forM_modify _ _ _

end

/-! ### One block -/

section

variable [Scalar α] {g g' : Graph α} {id : Nat} {b : Block}

/-- The supernode that a block is given to start with. -/
def firstOf (id : Nat) : Operation α := .ofKind (Block.sourceName id) .superSource id

/-- The supernode that a block is given to end with. -/
def lastOf (id : Nat) : Operation α := .ofKind (Block.sinkName id) .superSink id

/-- A graph after the supernodes of one more block, to which its members are joined. -/
def withSupers (g : Graph α) (id : Nat) (b : Block) : Graph α :=
  ((g.withOperation (firstOf id)).withOperation (lastOf id)).boundBy id b g.ops.length
    (g.ops.length + 1)

/-- The ways in which bounding one block ends. -/
inductive Bounding (g : Graph α) (id : Nat) : Except GraphError PUnit → Graph α → Prop
  | kept (h : ∀ b, g.blocks[id]? = some b → b.isBounded = true) : Bounding g id (.ok ⟨⟩) g
  | refused (b : Block) (hb : g.blocks[id]? = some b) (hopen : b.isBounded = false)
    (hfirst : Block.sourceName id ∈ g.register) :
    Bounding g id (.error (.nameTaken (Block.sourceName id))) g
  | halfway (b : Block) (hb : g.blocks[id]? = some b) (hopen : b.isBounded = false)
    (hfirst : Block.sourceName id ∉ g.register)
    (hlast : Block.sinkName id ∈ g.register ++ [Block.sourceName id]) :
    Bounding g id (.error (.nameTaken (Block.sinkName id))) (g.withOperation (firstOf id))
  | bounded {g' : Graph α} (b : Block) (hb : g.blocks[id]? = some b) (hopen : b.isBounded = false)
    (hfirst : Block.sourceName id ∉ g.register)
    (hlast : Block.sinkName id ∉ g.register ++ [Block.sourceName id])
    (heq : g' = g.withSupers id b) : Bounding g id (.ok ⟨⟩) g'

/-- A block that is bounded, or not there, is left alone. -/
theorem perform_boundBlock_of_bounded (h : ∀ b, g.blocks[id]? = some b → b.isBounded = true) :
    perform (boundBlock id) g = (.ok ⟨⟩, g) := by
  rw [boundBlock, perform_bind_of_ok (perform_get g)]
  cases hb : g.blocks[id]? with
  | none =>
      simp only [block?, hb]
      rfl
  | some b =>
      simp only [block?, hb, h b hb]
      rfl

/-- A block that lacks supernodes gets them if the names are free. -/
theorem perform_boundBlock_of_open (hb : g.blocks[id]? = some b) (hopen : b.isBounded = false)
    (hfirst : Block.sourceName id ∉ g.register)
    (hlast : Block.sinkName id ∉ g.register ++ [Block.sourceName id]) :
    perform (boundBlock id) g = (.ok ⟨⟩, g.withSupers id b) := by
  have hinside : id < g.blocks.length := (List.getElem?_eq_some_iff.mp hb).1
  have hsource : perform (addOperationOfKind (Block.sourceName id) .superSource id) g
      = (.ok g.ops.length, g.withOperation (firstOf id)) :=
    perform_addOperation_of_free hfirst hinside
  have hsink : perform (addOperationOfKind (Block.sinkName id) .superSink id)
      (g.withOperation (firstOf id)) = (.ok (g.withOperation (firstOf id)).ops.length,
        (g.withOperation (firstOf id)).withOperation (lastOf id)) :=
    perform_addOperation_of_free hlast hinside
  rw [boundBlock, perform_bind_of_ok (perform_get g)]
  simp only [block?, hb, hopen, Bool.false_eq_true, if_false]
  rw [perform_bind_of_ok hsource, perform_bind_of_ok hsink, perform_modify, withSupers,
    show (g.withOperation (firstOf id)).ops.length = g.ops.length + 1 from List.length_append]
  rfl

/-- Bounding one block ends in one of the ways there are. -/
theorem bounding (g : Graph α) (id : Nat) :
    Bounding g id (perform (boundBlock id) g).1 (perform (boundBlock id) g).2 := by
  by_cases hdone : ∀ b, g.blocks[id]? = some b → b.isBounded = true
  · rw [perform_boundBlock_of_bounded hdone]
    exact .kept hdone
  · push Not at hdone
    rcases hdone with ⟨b, hb, hne⟩
    have hopen : b.isBounded = false := Bool.eq_false_iff.mpr hne
    have hinside : id < g.blocks.length := (List.getElem?_eq_some_iff.mp hb).1
    by_cases hfirst : Block.sourceName id ∈ g.register
    · have hsource : perform (addOperationOfKind (Block.sourceName id) .superSource id) g
          = (.error (.nameTaken (Block.sourceName id)), g) := perform_addOperation_of_taken hfirst
      rw [boundBlock, perform_bind_of_ok (perform_get g)]
      simp only [block?, hb, hopen, Bool.false_eq_true, if_false]
      rw [perform_bind_of_error hsource]
      exact .refused b hb hopen hfirst
    · by_cases hlast : Block.sinkName id ∈ g.register ++ [Block.sourceName id]
      · have hsource : perform (addOperationOfKind (Block.sourceName id) .superSource id) g
            = (.ok g.ops.length, g.withOperation (firstOf id)) :=
          perform_addOperation_of_free hfirst hinside
        have hsink : perform (addOperationOfKind (Block.sinkName id) .superSink id)
            (g.withOperation (firstOf id))
              = (.error (.nameTaken (Block.sinkName id)), g.withOperation (firstOf id)) :=
          perform_addOperation_of_taken hlast
        rw [boundBlock, perform_bind_of_ok (perform_get g)]
        simp only [block?, hb, hopen, Bool.false_eq_true, if_false]
        rw [perform_bind_of_ok hsource, perform_bind_of_error hsink]
        exact .halfway b hb hopen hfirst hlast
      · rw [perform_boundBlock_of_open hb hopen hfirst hlast]
        exact .bounded b hb hopen hfirst hlast rfl

theorem bounding_of_perform {answer : Except GraphError PUnit}
    (h : perform (boundBlock id) g = (answer, g')) : Bounding g id answer g' := by
  have hway := bounding g id
  rwa [h] at hway

end

/-! ### Edges that come in -/

section

variable {g : Graph α} {id source sink : Nat} {b : Block} {members : List Nat} {e : Dependency}

/-- An edge joins a member to a supernode, or the supernodes where there is no member. -/
def IsJoining (members : List Nat) (source sink : Nat) (e : Dependency) : Prop :=
  (∃ u ∈ members, e = ⟨source, u, false⟩ ∨ e = ⟨u, sink, false⟩) ∨
    (members = [] ∧ e = ⟨source, sink, false⟩)

/-- What joining edges preserve holds of the block's graph once its members are joined. -/
theorem boundBy_induction {P : Graph α → Prop} (id : Nat)
    (hedge : ∀ g' e, IsJoining b.members source sink e → P g' → P (g'.withEdge e)) (h : P g) :
    ∃ joined, P joined ∧ g.boundBy id b source sink =
      { joined with blocks := joined.blocks.modify id fun b => { b with source, sink } } := by
  have hunless : ∀ (c : Bool) g' e, IsJoining b.members source sink e → P g' →
      P (if c then g' else g'.withEdge e) := by
    intro c g' e he hg'
    cases c with
    | false => exact hedge g' e he hg'
    | true => exact hg'
  have hmember : ∀ g', P g' → ∀ u ∈ b.members, P (bindMember b.members source sink g' u) :=
    fun g' hg' u hu =>
      hunless _ _ _ (.inl ⟨u, hu, .inr rfl⟩) (hunless _ _ _ (.inl ⟨u, hu, .inl rfl⟩) hg')
  have hbound : ∀ queue ⊆ b.members, ∀ g', P g' →
      P (queue.foldl (bindMember b.members source sink) g') := by
    intro queue hsub g' hg'
    induction queue generalizing g' with
    | nil => exact hg'
    | cons u queue ih =>
        rw [List.cons_subset] at hsub
        exact ih hsub.2 _ (hmember g' hg' u hsub.1)
  refine ⟨_, ?_, rfl⟩
  split
  · next hempty =>
    exact hedge _ _ (.inr ⟨List.isEmpty_iff.mp hempty, rfl⟩)
      (hbound _ (List.Subset.refl _) g h)
  · exact hbound _ (List.Subset.refl _) g h

/-- Joining the members adds joining edges, records the supernodes and changes nothing
    else. -/
theorem boundBy_eq (g : Graph α) (id : Nat) (b : Block) (source sink : Nat) :
    ∃ edges, g.boundBy id b source sink =
        { g with edges, blocks := g.blocks.modify id fun b => { b with source, sink } } ∧
      g.edges ⊆ edges ∧ ∀ e ∈ edges, e ∈ g.edges ∨ IsJoining b.members source sink e := by
  let Joined (g' : Graph α) : Prop := ∃ edges, g' = { g with edges } ∧ g.edges ⊆ edges ∧
    ∀ e ∈ edges, e ∈ g.edges ∨ IsJoining b.members source sink e
  have hedge : ∀ g' e, IsJoining b.members source sink e → Joined g' → Joined (g'.withEdge e) := by
    rintro _ e he ⟨edges, rfl, hsub, hall⟩
    rw [withEdge]
    split
    · exact ⟨edges, rfl, hsub, hall⟩
    · refine ⟨edges ++ [e], rfl, List.subset_append_of_subset_left _ hsub,
        List.forall_mem_append.mpr ⟨hall, ?_⟩⟩
      exact List.forall_mem_singleton.mpr (.inr he)
  rcases boundBy_induction id (P := Joined) hedge
    ⟨g.edges, rfl, List.Subset.refl _, fun _ he => .inl he⟩ with ⟨_, ⟨edges, rfl, hrest⟩, heq⟩
  exact ⟨edges, heq, hrest⟩

end

end Graph

end CyclePlan
