import CyclePlan.Proofs.Action
import CyclePlan.Proofs.Graph.Projection

/-!
# Graphs Built by Calls

What is known of a graph because of the way it was made.

A graph can be put together from any parts, and most of its inspection is there
because of that. A graph that was drafted call by call and then had its blocks
bounded has more structure than the inspection asks for. Every operation lies
between the supernodes of its block, because the step that bounds a block looks at
every member and joins it to a supernode unless another member is already there
(`Encloses`).

That step reads the edges as it adds them. It does no harm, since an edge that was
added stays, so what holds of one member when it is looked at still holds when the
last one has been looked at (`bindMember_binds`, `foldl_bindMember`). The invariant
of the loop over blocks is the same with every number of blocks that are done
(`IsBoundedUpTo`), and a draft satisfies it with none.

Blocks and control edges that are added later enclose nothing and remove nothing.

## Main definitions

* `Graph.IsDrafted`, `Graph.IsBuilt`: Graphs by the calls that made them.
* `Graph.IsMember`, `Graph.Encloses`: Supernodes around the members of a block.
* `Graph.IsBoundedUpTo`: The first blocks are bounded.
* `Graph.additions`: A graph of two blocks that is built by calls.

## Theorems

* `Graph.IsDrafted.isBoundedUpTo`: In a draft, no block is bounded.
* `Graph.IsBoundedUpTo.step`: One block more.
* `Graph.IsBuilt.encloses`: Every operation is in an enclosed block.
-/

namespace CyclePlan

namespace Graph

variable {α : Type}

/-! ### Calls -/

/-- Made by calls that add a block, an operation or an edge. Calls that were refused
    count as well. -/
inductive IsDrafted : Graph α → Prop
  | empty (name : String) : IsDrafted { name }
  | block {g g' : Graph α} {name : String} {answer : Except GraphError Nat} (h : IsDrafted g)
      (hcall : perform (addBlock name) g = (answer, g')) : IsDrafted g'
  | operation {g g' : Graph α} {op : Operation α} {answer : Except GraphError Nat}
      (h : IsDrafted g) (hcall : perform (addOperation op) g = (answer, g')) : IsDrafted g'
  | edge {g g' : Graph α} {source target : String} {backEdge : Bool}
      {answer : Except GraphError Unit} (h : IsDrafted g)
      (hcall : perform (addEdge source target backEdge) g = (answer, g')) : IsDrafted g'
  | controlEdge {g g' : Graph α} {source target : Nat} {backEdge : Bool}
      {answer : Except GraphError Unit} (h : IsDrafted g)
      (hcall : perform (addControlEdge source target backEdge) g = (answer, g')) : IsDrafted g'

/-- Made from a draft by bounding its blocks, with no operation or dependency after
    that. -/
inductive IsBuilt [Scalar α] : Graph α → Prop
  | bound {g g' : Graph α} (h : IsDrafted g) (hcall : perform boundBlocks g = (.ok ⟨⟩, g')) :
      IsBuilt g'
  | block {g g' : Graph α} {name : String} {answer : Except GraphError Nat} (h : IsBuilt g)
      (hcall : perform (addBlock name) g = (answer, g')) : IsBuilt g'
  | controlEdge {g g' : Graph α} {source target : Nat} {backEdge : Bool}
      {answer : Except GraphError Unit} (h : IsBuilt g)
      (hcall : perform (addControlEdge source target backEdge) g = (answer, g')) : IsBuilt g'

/-! ### Enclosed blocks -/

/-- A number is that of an operation of a block, supernodes apart. -/
def IsMember (g : Graph α) (block u : Nat) : Prop :=
  ∃ op, g.ops[u]? = some op ∧ op.block = block ∧ op.kind.isSuper = false

/-- A number is that of a supernode of a block. -/
def IsSuper (g : Graph α) (role : SuperRole) (block u : Nat) : Prop :=
  ∃ op, g.ops[u]? = some op ∧ op.kind = role.kind ∧ op.block = block

/-- Two supernodes enclose a block: from the first one a path through the block leads
    to every member, and from every member one leads to the last one. -/
structure Encloses (g : Graph α) (block source sink : Nat) : Prop where
  first : g.IsSuper .source block source
  last : g.IsSuper .sink block sink
  entered : ∀ u, g.IsMember block u →
    g.Precedes source u ∨ ∃ w, g.IsMember block w ∧ g.Precedes w u
  left : ∀ u, g.IsMember block u →
    g.Precedes u sink ∨ ∃ w, g.IsMember block w ∧ g.Precedes u w
  /-- A block without members is passed through at once. -/
  empty : (∀ u, ¬ g.IsMember block u) → g.Precedes source sink

/-- A graph has got further supernodes and edges, and no other operations. -/
structure Gains (g g' : Graph α) : Prop where
  ops : ∃ more, g'.ops = g.ops ++ more ∧ ∀ op ∈ more, op.kind.isSuper = true
  edges : g.edges ⊆ g'.edges

namespace Gains

variable {g g' g'' : Graph α} {block u t source sink : Nat} {role : SuperRole}

theorem of_ops_eq (hops : g'.ops = g.ops) (hedges : g.edges ⊆ g'.edges) : g.Gains g' := by
  refine ⟨⟨[], ?_, fun op hop => absurd hop List.not_mem_nil⟩, hedges⟩
  rw [hops, List.append_nil]

theorem refl (g : Graph α) : g.Gains g := of_ops_eq rfl (List.Subset.refl _)

theorem trans (h : g.Gains g') (h' : g'.Gains g'') : g.Gains g'' := by
  rcases h.ops with ⟨more, hmore, hsuper⟩
  rcases h'.ops with ⟨more', hmore', hsuper'⟩
  refine ⟨⟨more ++ more', ?_, List.forall_mem_append.mpr ⟨hsuper, hsuper'⟩⟩,
    List.Subset.trans h.edges h'.edges⟩
  rw [hmore', hmore, List.append_assoc]

theorem getElem? (h : g.Gains g') {op : Operation α} (hop : g.ops[u]? = some op) :
    g'.ops[u]? = some op := by
  rcases h.ops with ⟨more, hmore, _⟩
  rw [hmore, List.getElem?_append_left (List.getElem?_eq_some_iff.mp hop).1, hop]

/-- The members of a block stay the same. -/
theorem isMember_iff (h : g.Gains g') : g'.IsMember block u ↔ g.IsMember block u := by
  constructor
  · rintro ⟨op, hop, hblock, hkind⟩
    rcases h.ops with ⟨more, hmore, hsuper⟩
    rw [hmore] at hop
    by_cases hold : u < g.ops.length
    · rw [List.getElem?_append_left hold] at hop
      exact ⟨op, hop, hblock, hkind⟩
    · -- What is new is a supernode.
      rw [List.getElem?_append_right (Nat.not_lt.mp hold)] at hop
      rw [hsuper op (List.mem_of_getElem? hop)] at hkind
      cases hkind
  · rintro ⟨op, hop, hrest⟩
    exact ⟨op, h.getElem? hop, hrest⟩

theorem isSuper (h : g.Gains g') (hu : g.IsSuper role block u) : g'.IsSuper role block u := by
  rcases hu with ⟨op, hop, hrest⟩
  exact ⟨op, h.getElem? hop, hrest⟩

theorem precedes (h : g.Gains g') (hedge : g.Precedes u t) : g'.Precedes u t := h.edges hedge

/-- A block that is enclosed stays so. -/
theorem encloses (h : g.Gains g') (he : g.Encloses block source sink) :
    g'.Encloses block source sink := by
  refine ⟨h.isSuper he.first, h.isSuper he.last, fun u hu => ?_, fun u hu => ?_, fun hnone => ?_⟩
  · rcases he.entered u (h.isMember_iff.mp hu) with hedge | ⟨w, hw, hedge⟩
    · exact .inl (h.precedes hedge)
    · exact .inr ⟨w, h.isMember_iff.mpr hw, h.precedes hedge⟩
  · rcases he.left u (h.isMember_iff.mp hu) with hedge | ⟨w, hw, hedge⟩
    · exact .inl (h.precedes hedge)
    · exact .inr ⟨w, h.isMember_iff.mpr hw, h.precedes hedge⟩
  · exact h.precedes (he.empty fun u hu => hnone u (h.isMember_iff.mpr hu))

end Gains

/-! ### Edges -/

section

variable {g : Graph α} {e : Dependency} {members : List Nat} {source sink u t op : Nat}

theorem subset_withEdge (g : Graph α) (e : Dependency) : g.edges ⊆ (g.withEdge e).edges := by
  rw [withEdge]
  split
  · exact List.Subset.refl _
  · exact List.subset_append_left _ _

theorem mem_withEdge (g : Graph α) (e : Dependency) : e ∈ (g.withEdge e).edges := by
  rw [withEdge]
  split
  · next h => exact List.contains_iff_mem.mp h
  · exact List.mem_append_right _ List.mem_cons_self

@[simp] theorem withEdge_ops (g : Graph α) (e : Dependency) : (g.withEdge e).ops = g.ops := by
  rw [withEdge]
  split <;> rfl

@[simp] theorem withEdge_blocks (g : Graph α) (e : Dependency) :
    (g.withEdge e).blocks = g.blocks := by
  rw [withEdge]
  split <;> rfl

/-- A member is joined on both sides, to another member or to a supernode. -/
structure Binds (g : Graph α) (members : List Nat) (source sink op : Nat) : Prop where
  entered : g.Precedes source op ∨ ∃ w ∈ members, g.Precedes w op
  left : g.Precedes op sink ∨ ∃ w ∈ members, g.Precedes op w

theorem Binds.of_subset {g' : Graph α} (h : g.Binds members source sink op)
    (hsub : g.edges ⊆ g'.edges) : g'.Binds members source sink op := by
  refine ⟨h.entered.imp (fun hedge => hsub hedge) ?_, h.left.imp (fun hedge => hsub hedge) ?_⟩
  · rintro ⟨w, hw, hedge⟩
    exact ⟨w, hw, hsub hedge⟩
  · rintro ⟨w, hw, hedge⟩
    exact ⟨w, hw, hsub hedge⟩

/-- Binding a member keeps operations and blocks, and every edge there is. -/
theorem bindMember_frame (members : List Nat) (source sink : Nat) (g : Graph α) (op : Nat) :
    (bindMember members source sink g op).ops = g.ops ∧
      (bindMember members source sink g op).blocks = g.blocks ∧
      g.edges ⊆ (bindMember members source sink g op).edges := by
  simp only [bindMember]
  refine ⟨?_, ?_, ?_⟩
  · split <;> split <;> simp only [withEdge_ops]
  · split <;> split <;> simp only [withEdge_blocks]
  · split <;> split
    · exact List.Subset.refl _
    · exact subset_withEdge _ _
    · exact subset_withEdge _ _
    · exact List.Subset.trans (subset_withEdge _ _) (subset_withEdge _ _)

theorem exists_of_any_contains {ns : List Nat} (h : ns.any members.contains = true) :
    ∃ w ∈ members, w ∈ ns := by
  rcases List.any_eq_true.mp h with ⟨w, hw, hmem⟩
  exact ⟨w, List.contains_iff_mem.mp hmem, hw⟩

/-- A member that was looked at is joined on both sides. -/
theorem bindMember_binds (members : List Nat) (source sink : Nat) (g : Graph α) (op : Nat) :
    (bindMember members source sink g op).Binds members source sink op := by
  -- The edge on the entering side is there before the leaving side is looked at.
  let g₁ := if (g.predecessors op).any members.contains then g
    else g.withEdge ⟨source, op, false⟩
  have hentered : g₁.Precedes source op ∨ ∃ w ∈ members, g₁.Precedes w op := by
    simp only [g₁]
    split
    · next hany =>
      rcases exists_of_any_contains hany with ⟨w, hw, hpre⟩
      exact .inr ⟨w, hw, g.mem_predecessors_iff.mp hpre⟩
    · exact .inl (mem_withEdge _ _)
  have hunfold : bindMember members source sink g op
      = if (g₁.successors op).any members.contains then g₁
        else g₁.withEdge ⟨op, sink, false⟩ := rfl
  rw [hunfold]
  split
  · next hany =>
    rcases exists_of_any_contains hany with ⟨w, hw, hsucc⟩
    exact ⟨hentered, .inr ⟨w, hw, g₁.mem_successors_iff.mp hsucc⟩⟩
  · refine ⟨?_, .inl (mem_withEdge _ _)⟩
    rcases hentered with hedge | ⟨w, hw, hedge⟩
    · exact .inl (subset_withEdge _ _ hedge)
    · exact .inr ⟨w, hw, subset_withEdge _ _ hedge⟩

/-- All members that were looked at are joined on both sides, also those that come
    before others. -/
theorem foldl_bindMember (members : List Nat) (source sink : Nat) (queue : List Nat)
    (g : Graph α) :
    (queue.foldl (bindMember members source sink) g).ops = g.ops ∧
      (queue.foldl (bindMember members source sink) g).blocks = g.blocks ∧
      g.edges ⊆ (queue.foldl (bindMember members source sink) g).edges ∧
      ∀ op ∈ queue,
        (queue.foldl (bindMember members source sink) g).Binds members source sink op := by
  -- What the first member was joined with is among the edges that the others keep.
  induction queue generalizing g with
  | nil => exact ⟨rfl, rfl, List.Subset.refl _, fun op hop => absurd hop List.not_mem_nil⟩
  | cons op queue ih =>
      rcases bindMember_frame members source sink g op with ⟨hops, hblocks, hedges⟩
      rcases ih (bindMember members source sink g op) with ⟨hops', hblocks', hedges', hbinds⟩
      refine ⟨hops'.trans hops, hblocks'.trans hblocks, List.Subset.trans hedges hedges',
        List.forall_mem_cons.mpr (And.intro ?_ hbinds)⟩
      exact (bindMember_binds members source sink g op).of_subset hedges'

end

/-! ### Adding blocks and operations -/

/-- At a place of a list with one more item is what was there, or the new item is. -/
theorem getElem?_concat_eq_some_iff {β : Type} {l : List β} {a b : β} {i : Nat} :
    (l ++ [a])[i]? = some b ↔ l[i]? = some b ∨ (i = l.length ∧ a = b) := by
  rcases Nat.lt_trichotomy i l.length with hlt | rfl | hgt
  · rw [List.getElem?_append_left hlt, or_iff_left fun h => absurd h.1 (Nat.ne_of_lt hlt)]
  · rw [List.getElem?_concat_length, List.getElem?_eq_none (Nat.le_refl _), Option.some.injEq]
    exact ⟨fun h => .inr ⟨rfl, h⟩, fun h => (h.resolve_left nofun).2⟩
  · rw [List.getElem?_eq_none (Nat.le_of_lt hgt), List.getElem?_eq_none
      (by rw [List.length_append, List.length_singleton]; exact hgt)]
    exact ⟨nofun, fun h => absurd (h.resolve_left nofun).1 (Nat.ne_of_gt hgt)⟩

/-- A graph after one more block. -/
def withBlock (g : Graph α) (name : String) : Graph α :=
  { g with blocks := g.blocks ++ [{ id := g.blocks.length, name }] }

/-- A graph after one more operation. -/
def withOperation (g : Graph α) (op : Operation α) : Graph α :=
  { g with
    ops := g.ops ++ [op]
    register := g.register ++ [op.name]
    blocks :=
      if op.kind.isSuper then g.blocks
      else g.blocks.modify op.block fun b => { b with members := b.members ++ [g.ops.length] } }

@[simp] theorem length_blocks_withOperation (g : Graph α) (op : Operation α) :
    (g.withOperation op).blocks.length = g.blocks.length := by
  rw [withOperation]
  split
  · rfl
  · exact List.length_modify _ _ _

/-- One block has got one member more, unless the operation is a supernode. -/
theorem exists_block_of_withOperation {g : Graph α} {op : Operation α} {i : Nat} {b' : Block}
    (h : (g.withOperation op).blocks[i]? = some b') :
    ∃ b, g.blocks[i]? = some b ∧ b' = if op.kind.isSuper = false ∧ op.block = i then
      { b with members := b.members ++ [g.ops.length] } else b := by
  rw [withOperation] at h
  cases hkind : op.kind.isSuper with
  | true =>
      rw [if_pos hkind] at h
      exact ⟨b', h, (if_neg fun h => nomatch h.1).symm⟩
  | false =>
      simp only [hkind, Bool.false_eq_true, if_false, List.getElem?_modify] at h
      rcases Option.map_eq_some_iff.mp h with ⟨b, hb, rfl⟩
      refine ⟨b, hb, ?_⟩
      by_cases heq : op.block = i
      · rw [if_pos heq, if_pos ⟨rfl, heq⟩]
      · rw [if_neg heq, if_neg fun h => heq h.2]

/-- The operation is the one new member. -/
theorem isMember_withOperation_iff {g : Graph α} {op : Operation α} {i u : Nat} :
    (g.withOperation op).IsMember i u ↔
      g.IsMember i u ∨ (u = g.ops.length ∧ op.kind.isSuper = false ∧ op.block = i) := by
  constructor
  · rintro ⟨op', hop', hblock', hkind'⟩
    rcases getElem?_concat_eq_some_iff.mp hop' with hold | ⟨rfl, rfl⟩
    · exact .inl ⟨op', hold, hblock', hkind'⟩
    · exact .inr ⟨rfl, hkind', hblock'⟩
  · rintro (⟨op', hop', hrest⟩ | ⟨rfl, hkind, hi⟩)
    · exact ⟨op', getElem?_concat_eq_some_iff.mpr (.inl hop'), hrest⟩
    · exact ⟨op, getElem?_concat_eq_some_iff.mpr (.inr ⟨rfl, rfl⟩), hi, hkind⟩

/-- Two graphs have the same operations and blocks. -/
def SameNodes (g g' : Graph α) : Prop := g'.ops = g.ops ∧ g'.blocks = g.blocks

theorem sameNodes_refl (g : Graph α) : g.SameNodes g := ⟨rfl, rfl⟩

theorem sameNodes_trans (g g' g'' : Graph α) (h : g.SameNodes g') (h' : g'.SameNodes g'') :
    g.SameNodes g'' := ⟨h'.1.trans h.1, h'.2.trans h.2⟩

theorem perform_addBlock (g : Graph α) (name : String) :
    perform (addBlock name) g = (.ok g.blocks.length, g.withBlock name) := rfl

theorem perform_addOperation (op : Operation α) (g : Graph α) :
    perform (addOperation op) g =
      if g.register.contains op.name then (.error (.nameTaken op.name), g)
      else if g.blocks.length ≤ op.block then (.error (.operationOutsideBlocks op.name op.block), g)
      else (.ok g.ops.length, g.withOperation op) := by
  rw [addOperation, perform_bind_of_ok (perform_get g)]
  by_cases hname : g.register.contains op.name = true
  · simp only [hname, if_true]
    rfl
  · simp only [if_neg hname]
    by_cases hblock : g.blocks.length ≤ op.block
    · simp only [if_pos hblock]
      rfl
    · simp only [if_neg hblock]
      rfl

theorem perform_addOperation_ok {op : Operation α} {g g' : Graph α} {id : Nat}
    (h : perform (addOperation op) g = (.ok id, g')) :
    id = g.ops.length ∧ op.block < g.blocks.length ∧ g' = g.withOperation op := by
  rw [perform_addOperation] at h
  split at h
  · cases h
  · split at h
    · cases h
    · next hblock =>
      cases h
      exact ⟨rfl, Nat.not_le.mp hblock, rfl⟩

theorem requireNode_moves (name : String) :
    Moves (SameNodes (α := α)) (requireNode name : GraphM α Nat) := by
  refine Moves.bind sameNodes_trans (Moves.get sameNodes_refl) fun g => ?_
  cases g.idOf? name with
  | none => exact Moves.throw sameNodes_refl _
  | some id => exact Moves.pure sameNodes_refl _

theorem addEdge_moves (source target : String) (backEdge : Bool) :
    Moves (SameNodes (α := α)) (addEdge source target backEdge : GraphM α Unit) := by
  refine Moves.bind sameNodes_trans (requireNode_moves _) fun _ => ?_
  refine Moves.bind sameNodes_trans (requireNode_moves _) fun _ => ?_
  exact Moves.modify fun g => ⟨g.withEdge_ops _, g.withEdge_blocks _⟩

/-- A control edge changes neither operations nor blocks nor dependencies. -/
theorem addControlEdge_moves (source target : Nat) (backEdge : Bool) :
    Moves (fun g g' : Graph α => g.SameNodes g' ∧ g'.edges = g.edges)
      (addControlEdge source target backEdge : GraphM α Unit) := by
  intro g
  rw [addControlEdge, perform_bind_of_ok (perform_get g)]
  simp only []
  split
  · exact ⟨⟨rfl, rfl⟩, rfl⟩
  · split
    · exact ⟨⟨rfl, rfl⟩, rfl⟩
    · split <;> exact ⟨⟨rfl, rfl⟩, rfl⟩

theorem IsDrafted.withBlock {g : Graph α} (h : g.IsDrafted) (name : String) :
    (g.withBlock name).IsDrafted := .block h (g.perform_addBlock name)

theorem IsDrafted.withOperation {g : Graph α} (h : g.IsDrafted) (op : Operation α)
    (hname : g.register.contains op.name = false) (hblock : op.block < g.blocks.length) :
    (g.withOperation op).IsDrafted := by
  have hcall : perform (addOperation op) g = (.ok g.ops.length, g.withOperation op) := by
    rw [perform_addOperation, hname, if_neg Bool.false_ne_true, if_neg (Nat.not_le.mpr hblock)]
  exact .operation h hcall

/-! ### Bounding blocks -/

/-- Blocks know their number and their members, and the first of them are enclosed by
    supernodes while the others have none. -/
structure IsBoundedUpTo (g : Graph α) (count : Nat) : Prop where
  ids : ∀ (i : Nat) (b : Block), g.blocks[i]? = some b → b.id = i
  inside : ∀ op ∈ g.ops, op.block < g.blocks.length
  members : ∀ (i : Nat) (b : Block), g.blocks[i]? = some b → ∀ u, u ∈ b.members ↔ g.IsMember i u
  enclosed : ∀ i < count, ∃ source sink, g.Encloses i source sink
  pending : ∀ (i : Nat) (b : Block), count ≤ i → g.blocks[i]? = some b → b.isBounded = false

namespace IsBoundedUpTo

variable {g g' : Graph α} {count more : Nat} {op : Operation α}

/-- Supernodes and edges keep what is known, and may enclose more blocks. -/
theorem gains (h : g.IsBoundedUpTo count) (hgains : g.Gains g') (hle : count ≤ more)
    (hinside : ∀ op ∈ g'.ops, op.block < g'.blocks.length)
    (hblocks : ∀ (i : Nat) (b' : Block), g'.blocks[i]? = some b' →
      ∃ b, g.blocks[i]? = some b ∧ b'.id = b.id ∧
      b'.members = b.members ∧ (more ≤ i → b'.isBounded = b.isBounded))
    (hnew : ∀ i, count ≤ i → i < more → ∃ source sink, g'.Encloses i source sink) :
    g'.IsBoundedUpTo more := by
  refine ⟨fun i b' hb' => ?_, hinside, fun i b' hb' u => ?_, fun i hi => ?_, fun i b' hi hb' => ?_⟩
  · rcases hblocks i b' hb' with ⟨b, hb, hid, _⟩
    rw [hid, h.ids i b hb]
  · rcases hblocks i b' hb' with ⟨b, hb, _, hmembers, _⟩
    rw [hmembers, h.members i b hb, hgains.isMember_iff]
  · by_cases hold : i < count
    · rcases h.enclosed i hold with ⟨source, sink, he⟩
      exact ⟨source, sink, hgains.encloses he⟩
    · exact hnew i (Nat.not_lt.mp hold) hi
  · rcases hblocks i b' hb' with ⟨b, hb, _, _, hbounded⟩
    rw [hbounded hi, h.pending i b (hle.trans hi) hb]

theorem sameNodes (h : g.IsBoundedUpTo 0) (hsame : g.SameNodes g') : g'.IsBoundedUpTo 0 := by
  rcases hsame with ⟨hops, hblocks⟩
  have hmember : ∀ i u, g'.IsMember i u ↔ g.IsMember i u := by
    intro i u
    rw [IsMember, hops, IsMember]
  refine ⟨?_, ?_, fun i b hb u => ?_, fun i hi => absurd hi (Nat.not_lt_zero i), ?_⟩
  · rw [hblocks]
    exact h.ids
  · rw [hblocks, hops]
    exact h.inside
  · rw [hblocks] at hb
    rw [h.members i b hb, hmember]
  · rw [hblocks]
    exact h.pending

theorem withBlock (h : g.IsBoundedUpTo 0) (name : String) :
    (g.withBlock name).IsBoundedUpTo 0 := by
  have hcases : ∀ (i : Nat) (b : Block), (g.withBlock name).blocks[i]? = some b →
      g.blocks[i]? = some b ∨ (i = g.blocks.length ∧ b = { id := g.blocks.length, name }) := by
    intro i b hb
    exact (getElem?_concat_eq_some_iff.mp hb).imp_right fun h => ⟨h.1, h.2.symm⟩
  refine ⟨fun i b hb => ?_, fun op hop => ?_, fun i b hb u => ?_,
    fun i hi => absurd hi (Nat.not_lt_zero i), fun i b hi hb => ?_⟩
  · rcases hcases i b hb with hb | ⟨rfl, rfl⟩
    · exact h.ids i b hb
    · rfl
  · rw [Graph.withBlock, List.length_append]
    exact Nat.lt_add_right 1 (h.inside op hop)
  · rcases hcases i b hb with hb | ⟨rfl, rfl⟩
    · exact h.members i b hb u
    · -- No operation can be in a block that was not there.
      refine ⟨fun hu => absurd hu List.not_mem_nil, fun ⟨op, hop, hblock, _⟩ => ?_⟩
      exact absurd hblock (Nat.ne_of_lt (h.inside op (List.mem_of_getElem? hop)))
  · rcases hcases i b hb with hb | ⟨rfl, rfl⟩
    · exact h.pending i b hi hb
    · rfl

theorem withSuper (h : g.IsBoundedUpTo count) (hkind : op.kind.isSuper = true)
    (hblock : op.block < g.blocks.length) : (g.withOperation op).IsBoundedUpTo count := by
  have hblocks : (g.withOperation op).blocks = g.blocks := by
    rw [withOperation, if_pos hkind]
  refine h.gains ⟨⟨[op], rfl, List.forall_mem_singleton.mpr hkind⟩, List.Subset.refl _⟩
    (Nat.le_refl _) ?_ (fun i b hb => ?_) (fun i hi hlt => absurd hi (Nat.not_le.mpr hlt))
  · rw [hblocks]
    exact List.forall_mem_append.mpr ⟨h.inside, List.forall_mem_singleton.mpr hblock⟩
  · rw [hblocks] at hb
    exact ⟨b, hb, rfl, rfl, fun _ => rfl⟩

theorem withOperation (h : g.IsBoundedUpTo 0) (hblock : op.block < g.blocks.length) :
    (g.withOperation op).IsBoundedUpTo 0 := by
  refine ⟨fun i b' hb' => ?_, ?_, fun i b' hb' u => ?_, fun i hi => absurd hi (Nat.not_lt_zero i),
    fun i b' hi hb' => ?_⟩
  · rcases exists_block_of_withOperation hb' with ⟨b, hb, rfl⟩
    rw [← h.ids i b hb]
    split <;> rfl
  · rw [length_blocks_withOperation]
    exact List.forall_mem_append.mpr ⟨h.inside, List.forall_mem_singleton.mpr hblock⟩
  · rcases exists_block_of_withOperation hb' with ⟨b, hb, rfl⟩
    rw [isMember_withOperation_iff, ← h.members i b hb u]
    split
    · next heq => rw [List.mem_append, List.mem_singleton, and_iff_left heq]
    · next hne => rw [or_iff_left fun hnew => hne hnew.2]
  · rcases exists_block_of_withOperation hb' with ⟨b, hb, rfl⟩
    rw [← h.pending i b hi hb]
    split <;> rfl

end IsBoundedUpTo

/-- In a draft, no block is bounded yet. -/
theorem IsDrafted.isBoundedUpTo {g : Graph α} (h : IsDrafted g) : g.IsBoundedUpTo 0 := by
  induction h with
  | empty name =>
      have hnone : ∀ {i : Nat} {b : Block}, ¬ ([] : List Block)[i]? = some b := fun hb => by
        cases hb
      exact ⟨fun _ _ hb => (hnone hb).elim, fun _ hop => absurd hop List.not_mem_nil,
        fun _ _ hb => (hnone hb).elim, fun i hi => absurd hi (Nat.not_lt_zero i),
        fun _ _ _ hb => (hnone hb).elim⟩
  | block _ hcall ih =>
      rw [perform_addBlock] at hcall
      cases hcall
      exact ih.withBlock _
  | @operation g g' op answer _ hcall ih =>
      rw [perform_addOperation] at hcall
      split at hcall
      · cases hcall
        exact ih
      · split at hcall
        · cases hcall
          exact ih
        · next hblock =>
          cases hcall
          exact ih.withOperation (Nat.not_le.mp hblock)
  | edge _ hcall ih => exact ih.sameNodes ((addEdge_moves _ _ _).of_perform hcall)
  | controlEdge _ hcall ih => exact ih.sameNodes ((addControlEdge_moves _ _ _).of_perform hcall).1

section

variable {g g' : Graph α} {id source sink : Nat} {b : Block}

/-- What bounding a block adds once it has the supernodes. -/
def boundBy (g : Graph α) (id : Nat) (b : Block) (source sink : Nat) : Graph α :=
  let bound := b.members.foldl (bindMember b.members source sink) g
  let joined := if b.members.isEmpty then bound.withEdge ⟨source, sink, false⟩ else bound
  { joined with blocks := joined.blocks.modify id fun b => { b with source, sink } }

/-- Members that are joined on both sides are enclosed. -/
theorem boundBy_spec (hmembers : ∀ u, u ∈ b.members ↔ g.IsMember id u)
    (hsource : g.IsSuper .source id source) (hsink : g.IsSuper .sink id sink) :
    g.Gains (g.boundBy id b source sink) ∧
      (g.boundBy id b source sink).ops = g.ops ∧
      (g.boundBy id b source sink).blocks
        = g.blocks.modify id (fun b => { b with source, sink }) ∧
      (g.boundBy id b source sink).Encloses id source sink := by
  rcases foldl_bindMember b.members source sink b.members g with ⟨hops, hblocks, hedges, hbinds⟩
  let bound := b.members.foldl (bindMember b.members source sink) g
  let joined := if b.members.isEmpty then bound.withEdge ⟨source, sink, false⟩ else bound
  have hjoined : joined.ops = g.ops ∧ joined.blocks = g.blocks ∧ bound.edges ⊆ joined.edges := by
    simp only [joined]
    split
    · exact ⟨(bound.withEdge_ops _).trans hops, (bound.withEdge_blocks _).trans hblocks,
        bound.subset_withEdge _⟩
    · exact ⟨hops, hblocks, List.Subset.refl _⟩
  have hgains : g.Gains (g.boundBy id b source sink) :=
    .of_ops_eq hjoined.1 (List.Subset.trans hedges hjoined.2.2)
  have hall : ∀ u, g.IsMember id u →
      (g.boundBy id b source sink).Binds b.members source sink u := fun u hu =>
    (hbinds u ((hmembers u).mpr hu)).of_subset hjoined.2.2
  have hmember : ∀ w ∈ b.members, (g.boundBy id b source sink).IsMember id w := fun w hw =>
    hgains.isMember_iff.mpr ((hmembers w).mp hw)
  refine ⟨hgains, hjoined.1, ?_, hgains.isSuper hsource, hgains.isSuper hsink, fun u hu => ?_,
    fun u hu => ?_, fun hnone => ?_⟩
  · change joined.blocks.modify id _ = _
    rw [hjoined.2.1]
  · rcases (hall u (hgains.isMember_iff.mp hu)).entered with hedge | ⟨w, hw, hedge⟩
    · exact .inl hedge
    · exact .inr ⟨w, hmember w hw, hedge⟩
  · rcases (hall u (hgains.isMember_iff.mp hu)).left with hedge | ⟨w, hw, hedge⟩
    · exact .inl hedge
    · exact .inr ⟨w, hmember w hw, hedge⟩
  · -- Without members the supernodes are joined to each other.
    have hempty : b.members = [] := List.eq_nil_iff_forall_not_mem.mpr fun w hw =>
      hnone w (hmember w hw)
    change ⟨source, sink, false⟩ ∈ joined.edges
    simp only [joined]
    rw [if_pos (List.isEmpty_iff.mpr hempty)]
    exact mem_withEdge _ _

variable [Scalar α]

/-- A block that lacks supernodes is given both, and its members are joined to them. -/
theorem perform_boundBlock_ok (hb : g.blocks[id]? = some b) (hopen : b.isBounded = false)
    (h : perform (boundBlock id) g = (.ok ⟨⟩, g')) :
    id < g.blocks.length ∧
      g' = ((g.withOperation (.ofKind (Block.sourceName id) .superSource id)).withOperation
        (.ofKind (Block.sinkName id) .superSink id)).boundBy id b g.ops.length
          (g.ops.length + 1) := by
  rw [boundBlock, perform_bind_of_ok (perform_get g)] at h
  simp only [block?, hb, hopen] at h
  rcases perform_bind_ok_iff.mp h with ⟨source, g₁, hsource, h⟩
  rcases perform_addOperation_ok hsource with ⟨rfl, hlt, rfl⟩
  rcases perform_bind_ok_iff.mp h with ⟨sink, g₂, hsink, h⟩
  rcases perform_addOperation_ok hsink with ⟨hid, _, rfl⟩
  have hlength : sink = g.ops.length + 1 := hid.trans List.length_append
  rw [perform_modify] at h
  cases h
  rw [hlength]
  exact ⟨hlt, rfl⟩

/-- Once a block is bounded, one more of them is. -/
theorem IsBoundedUpTo.step (h : g.IsBoundedUpTo id) (hlt : id < g.blocks.length)
    (hrun : perform (boundBlock id) g = (.ok ⟨⟩, g')) :
    g'.IsBoundedUpTo (id + 1) ∧ g'.blocks.length = g.blocks.length := by
  have hb : g.blocks[id]? = some g.blocks[id] := List.getElem?_eq_getElem hlt
  let first : Operation α := .ofKind (Block.sourceName id) .superSource id
  let last : Operation α := .ofKind (Block.sinkName id) .superSink id
  let g₂ := (g.withOperation first).withOperation last
  have hsupers : g₂.IsBoundedUpTo id := (h.withSuper rfl hlt).withSuper rfl hlt
  have hblocks : g₂.blocks = g.blocks := rfl
  rcases perform_boundBlock_ok hb (h.pending id _ (Nat.le_refl _) hb) hrun with ⟨_, rfl⟩
  -- The supernodes are the last two operations.
  have hadded : (g.withOperation first).ops.length = g.ops.length + 1 := List.length_append
  have hsource : g₂.IsSuper .source id g.ops.length :=
    ⟨first, getElem?_concat_eq_some_iff.mpr
      (.inl (getElem?_concat_eq_some_iff.mpr (.inr ⟨rfl, rfl⟩))), rfl, rfl⟩
  have hsink : g₂.IsSuper .sink id (g.ops.length + 1) :=
    ⟨last, getElem?_concat_eq_some_iff.mpr (.inr ⟨hadded.symm, rfl⟩), rfl, rfl⟩
  rcases boundBy_spec (hsupers.members id _ hb) hsource hsink with
    ⟨hgains, hops, hmodified, hencloses⟩
  have hlength : (g₂.boundBy id g.blocks[id] g.ops.length (g.ops.length + 1)).blocks.length
      = g.blocks.length := by
    rw [hmodified, List.length_modify, hblocks]
  refine ⟨hsupers.gains hgains (Nat.le_succ id) ?_ (fun i b' hb' => ?_) (fun i hi hmore => ?_),
    hlength⟩
  · rw [hops, hlength]
    exact hsupers.inside
  · rw [hmodified, List.getElem?_modify] at hb'
    rcases Option.map_eq_some_iff.mp hb' with ⟨b, hb, rfl⟩
    refine ⟨b, hb, ?_, ?_, fun hi => ?_⟩
    · split <;> rfl
    · split <;> rfl
    · rw [if_neg (Nat.ne_of_lt hi)]
  · have heq : i = id := by omega
    rw [heq]
    exact ⟨_, _, hencloses⟩

end

/-! ### Built graphs -/

section

variable [Scalar α] {g g' : Graph α}

/-- Once all blocks are bounded, links are added and nothing else. -/
theorem perform_boundBlocks_ok (h : perform boundBlocks g = (.ok ⟨⟩, g')) :
    ∃ g₁, perform ((List.range g.blocks.length).forM boundBlock) g = (.ok ⟨⟩, g₁) ∧
      g₁.SameNodes g' ∧ g₁.edges ⊆ g'.edges := by
  let Linked (g g' : Graph α) : Prop := g.SameNodes g' ∧ g.edges ⊆ g'.edges
  have hrefl : ∀ g, Linked g g := fun g => ⟨sameNodes_refl g, List.Subset.refl _⟩
  have htrans : ∀ g g' g'', Linked g g' → Linked g' g'' → Linked g g'' := fun _ _ _ h h' =>
    ⟨sameNodes_trans _ _ _ h.1 h'.1, List.Subset.trans h.2 h'.2⟩
  -- The links between blocks are looked up first, and then added one by one.
  have hlinks : ∀ g : Graph α, Moves Linked (do
      let links ← (g.controlEdges.filter fun c => !c.backEdge).mapM fun c =>
        (boundBlocks.liftExcept (g.controlLink? c) : GraphM α _)
      (links.filterMap id).forM fun link => modify (·.withEdge ⟨link.1, link.2, false⟩)) := by
    intro g
    refine Moves.bind htrans (Moves.mapM hrefl htrans (fun c => ?_) _) fun links => ?_
    · cases g.controlLink? c with
      | ok link => exact Moves.pure hrefl link
      | error e => exact Moves.throw hrefl e
    · exact Moves.forM hrefl htrans (fun link => Moves.modify fun g =>
        ⟨⟨g.withEdge_ops _, g.withEdge_blocks _⟩, g.subset_withEdge _⟩) _
  rw [boundBlocks, perform_bind_of_ok (perform_get g)] at h
  simp only [forIn_yield, bind_pure_unit] at h
  rcases perform_bind_ok_iff.mp h with ⟨_, g₁, hloop, h⟩
  rw [perform_bind_of_ok (perform_get g₁)] at h
  exact ⟨g₁, hloop, (hlinks g₁).of_perform h⟩

/-- Every operation is in a block that is enclosed by supernodes. -/
theorem IsBuilt.encloses (h : g.IsBuilt) : ∀ op ∈ g.ops,
    (∃ b ∈ g.blocks, b.id = op.block) ∧ ∃ source sink, g.Encloses op.block source sink := by
  induction h with
  | @bound g g' hdraft hcall =>
      rcases perform_boundBlocks_ok hcall with ⟨g₁, hloop, hsame, hedges⟩
      -- The number of blocks is part of the invariant, since it says which rounds there are.
      have hbounded : g₁.IsBoundedUpTo g.blocks.length ∧ g₁.blocks.length = g.blocks.length :=
        forM_range_induction
          (P := fun count s => s.IsBoundedUpTo count ∧ s.blocks.length = g.blocks.length)
          (fun k hk s t hs hround => by
            rcases hs.1.step (hs.2 ▸ hk) hround with ⟨hstep, hlength⟩
            exact ⟨hstep, hlength.trans hs.2⟩)
          ⟨hdraft.isBoundedUpTo, rfl⟩ hloop
      have hgains : g₁.Gains g' := .of_ops_eq hsame.1 hedges
      intro op hop
      rw [hsame.1] at hop
      have hlt := hbounded.1.inside op hop
      refine ⟨⟨g₁.blocks[op.block], ?_, hbounded.1.ids _ _ (List.getElem?_eq_getElem hlt)⟩, ?_⟩
      · rw [hsame.2]
        exact List.getElem_mem hlt
      · rcases hbounded.1.enclosed op.block (hbounded.2 ▸ hlt) with ⟨source, sink, he⟩
        exact ⟨source, sink, hgains.encloses he⟩
  | @block g g' name answer _ hcall ih =>
      rw [perform_addBlock] at hcall
      cases hcall
      intro op hop
      rcases ih op hop with ⟨⟨b, hb, hid⟩, source, sink, he⟩
      have hgains : g.Gains (g.withBlock name) := .of_ops_eq rfl (List.Subset.refl _)
      exact ⟨⟨b, List.mem_append_left _ hb, hid⟩, source, sink, hgains.encloses he⟩
  | @controlEdge g g' source target backEdge answer _ hcall ih =>
      rcases (addControlEdge_moves _ _ _).of_perform hcall with ⟨⟨hops, hblocks⟩, hedges⟩
      have hgains : g.Gains g' := .of_ops_eq hops (by rw [hedges]; exact List.Subset.refl _)
      intro op hop
      rw [hops] at hop
      rcases ih op hop with ⟨hblock, source, sink, he⟩
      exact ⟨by rwa [hblocks], source, sink, hgains.encloses he⟩

end

/-- Two additions in a block of their own, and a third one in another block. -/
def looseAdditions : Graph Rat :=
  let blocks : Graph Rat := (withBlock { name := "additions" } "first").withBlock "second"
  ((blocks.withOperation (.ofKind "a" .add 0)).withOperation (.ofKind "b" .add 0)).withOperation
    (.ofKind "c" .add 1)

/-- The same, with control passing from the one block to the other. -/
def additionsDraft : Graph Rat := { looseAdditions with controlEdges := [⟨0, 1, false⟩] }

/-- The draft with its blocks bounded. -/
def additions : Graph Rat := (perform boundBlocks additionsDraft).2

theorem additionsDraft_isDrafted : additionsDraft.IsDrafted := by
  have hempty : IsDrafted { name := "additions" : Graph Rat } := .empty "additions"
  have hblocks := (hempty.withBlock "first").withBlock "second"
  have hloose : looseAdditions.IsDrafted :=
    ((hblocks.withOperation (.ofKind "a" .add 0) rfl (by decide)).withOperation
      (.ofKind "b" .add 0) rfl (by decide)).withOperation (.ofKind "c" .add 1) rfl (by decide)
  have hcall : perform (addControlEdge 0 1 false) looseAdditions = (.ok ⟨⟩, additionsDraft) := rfl
  exact .controlEdge hloose hcall

theorem additions_isBuilt : additions.IsBuilt := .bound additionsDraft_isDrafted rfl

theorem additions_defects : additions.defects = [] := by decide +kernel

end Graph

end CyclePlan
