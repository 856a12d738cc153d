import CyclePlan.Proofs.Graph.Bounding

/-!
# The Parts of a Graph Agree

What every sequence of calls preserves of a graph.

A graph is kept in several parts that refer to each other: operations by number, the
register of their names, edges between numbers, blocks that list their members, and
control edges between blocks. A graph from parts can have them disagree. Calls never
lead there, whether they succeed or are refused (`Consistent`). The one call that can
be refused with a part of its work done, bounding the blocks, stops between two of the
same small additions that the other calls are made of.

As nothing in the register goes beyond the names of the operations, a graph that was
made by calls is the one that its parts make (`ofParts_of_consistent`).

## Main definitions

* `Graph.Consistent`: The parts of a graph agree.
* `Graph.Call`: The calls that build a graph.
* `Graph.afterCalls`: The graph after several calls.

## Theorems

* `SuperRole.nodeName_inj`: No two supernodes are given the same name.
* `Graph.Consistent.withOperation`, `Graph.Consistent.withEdge`: The small additions.
* `Graph.Consistent.boundBlocks`: Bounding the blocks, refused or not.
* `Graph.Consistent.after`: Every call keeps the parts in agreement.
* `Graph.calls_keep_consistent`: So do all calls, and the parts make the same graph.
-/

namespace CyclePlan

theorem SuperRole.isSuper_kind (role : SuperRole) : role.kind.isSuper = true := by
  cases role <;> rfl

/-- The name of a supernode of a block. -/
def SuperRole.nodeName : SuperRole → Nat → String
  | source => Block.sourceName
  | sink => Block.sinkName

theorem toList_sourceName (i : Nat) :
    (Block.sourceName i).toList = 's' :: 's' :: 'r' :: 'c' :: '_' :: Nat.toDigits 10 i := by
  change ("ssrc_" ++ toString i).toList = _
  rw [Nat.toString_eq_ofList_toDigits]
  simp

theorem toList_sinkName (i : Nat) :
    (Block.sinkName i).toList = 's' :: 's' :: 'i' :: 'n' :: 'k' :: '_' :: Nat.toDigits 10 i := by
  change ("ssink_" ++ toString i).toList = _
  rw [Nat.toString_eq_ofList_toDigits]
  simp

theorem toDigits_inj {i j : Nat} (h : Nat.toDigits 10 i = Nat.toDigits 10 j) : i = j := by
  -- Reading the digits gives the number back.
  rw [← Nat.ofDigitChars_ten_toDigits (n := i), h, Nat.ofDigitChars_ten_toDigits]

/-- Names tell supernodes apart. -/
theorem SuperRole.nodeName_inj {role role' : SuperRole} {i j : Nat} :
    role.nodeName i = role'.nodeName j ↔ role = role' ∧ i = j := by
  constructor
  · intro h
    have hlist := congrArg String.toList h
    cases role <;> cases role' <;>
      simp only [nodeName, toList_sourceName, toList_sinkName, List.cons.injEq] at hlist
    · exact ⟨rfl, toDigits_inj hlist.2.2.2.2.2⟩
    · exact absurd hlist.2.2.1 (by decide)
    · exact absurd hlist.2.2.1 (by decide)
    · exact ⟨rfl, toDigits_inj hlist.2.2.2.2.2.2⟩
  · rintro ⟨rfl, rfl⟩
    rfl

/-- The supernode that a block has recorded. -/
def Block.recorded? (b : Block) : SuperRole → Option Nat
  | .source => b.source
  | .sink => b.sink

namespace Graph

variable {α : Type}

/-- The parts of a graph agree with each other. -/
structure Consistent (g : Graph α) : Prop where
  register : g.register = g.ops.map (·.name)
  names : g.register.Nodup
  inside : ∀ op ∈ g.ops, op.block < g.blocks.length
  joined : ∀ e ∈ g.edges, e.source < g.size ∧ e.target < g.size
  edges : g.edges.Nodup
  ids : ∀ (i : Nat) (b : Block), g.blocks[i]? = some b → b.id = i
  ascending : ∀ b ∈ g.blocks, b.members.Pairwise (· < ·)
  members : ∀ (i : Nat) (b : Block), g.blocks[i]? = some b → ∀ u, u ∈ b.members ↔ g.IsMember i u
  controlJoined : ∀ c ∈ g.controlEdges, c.source < g.blocks.length ∧ c.target < g.blocks.length
  controlEdges : g.controlEdges.Nodup
  /-- What a block has recorded is a supernode of its own, with the name it was given. -/
  recorded : ∀ (i : Nat) (b : Block) (role : SuperRole) (u : Nat), g.blocks[i]? = some b →
    b.recorded? role = some u → ∃ op, g.ops[u]? = some op ∧ op.kind = role.kind ∧
      op.block = i ∧ op.name = role.nodeName i

namespace Consistent

variable {g g' : Graph α} {op : Operation α} {e : Dependency}

theorem empty (name : String) : Consistent { name : Graph α } := by
  have hnone : ∀ {i : Nat} {b : Block}, ¬ ([] : List Block)[i]? = some b := fun hb => by cases hb
  exact ⟨rfl, List.nodup_nil, nofun, nofun, List.nodup_nil, fun _ _ hb => (hnone hb).elim, nofun,
    fun _ _ hb => (hnone hb).elim, nofun, List.nodup_nil, fun _ _ _ _ hb => (hnone hb).elim⟩

theorem register_iff (h : g.Consistent) {name : String} {u : Nat} :
    g.register[u]? = some name ↔ ∃ op, g.ops[u]? = some op ∧ op.name = name := by
  rw [h.register, List.getElem?_map, Option.map_eq_some_iff]

/-- A name is looked up exactly where it stands. -/
theorem idOf?_iff (h : g.Consistent) {name : String} {u : Nat} :
    g.idOf? name = some u ↔ ∃ op, g.ops[u]? = some op ∧ op.name = name := by
  rw [← h.register_iff, idOf?, List.findIdx?_eq_some_iff_getElem]
  constructor
  · rintro ⟨hu, hname, _⟩
    rw [List.getElem?_eq_getElem hu, beq_iff_eq.mp hname]
  · intro hname
    rcases List.getElem?_eq_some_iff.mp hname with ⟨hu, heq⟩
    refine ⟨hu, beq_iff_eq.mpr heq, fun j hj hsame => ?_⟩
    -- No name stands at two places.
    have hj' : j < g.register.length := hj.trans hu
    have hplace : j = u := h.names.getElem_inj_iff.mp ((beq_iff_eq.mp hsame).trans heq.symm)
    exact Nat.ne_of_lt hj hplace

theorem lt_of_idOf? (h : g.Consistent) {name : String} {u : Nat} (hu : g.idOf? name = some u) :
    u < g.size := by
  rcases h.idOf?_iff.mp hu with ⟨op, hop, _⟩
  exact (List.getElem?_eq_some_iff.mp hop).1

/-! ### Additions -/

theorem withBlock (h : g.Consistent) (name : String) : (g.withBlock name).Consistent := by
  have hcases : ∀ (i : Nat) (b : Block), (g.withBlock name).blocks[i]? = some b →
      g.blocks[i]? = some b ∨ (i = g.blocks.length ∧ b = { id := g.blocks.length, name }) := by
    intro i b hb
    exact (getElem?_concat_eq_some_iff.mp hb).imp_right fun h => ⟨h.1, h.2.symm⟩
  have hmore : (g.withBlock name).blocks.length = g.blocks.length + 1 := List.length_append
  refine ⟨h.register, h.names, fun op hop => ?_, h.joined, h.edges, fun i b hb => ?_, ?_,
    fun i b hb u => ?_, fun c hc => ?_, h.controlEdges, fun i b role u hb hu => ?_⟩
  · rw [hmore]
    exact Nat.lt_succ_of_lt (h.inside op hop)
  · rcases hcases i b hb with hb | ⟨rfl, rfl⟩
    · exact h.ids i b hb
    · rfl
  · exact List.forall_mem_append.mpr ⟨h.ascending,
      List.forall_mem_singleton.mpr List.Pairwise.nil⟩
  · rcases hcases i b hb with hb | ⟨rfl, rfl⟩
    · exact h.members i b hb u
    · -- No operation can be in a block that was not there.
      refine ⟨fun hu => absurd hu List.not_mem_nil, fun ⟨op, hop, hblock, _⟩ => ?_⟩
      exact absurd hblock (Nat.ne_of_lt (h.inside op (List.mem_of_getElem? hop)))
  · rw [hmore]
    exact ⟨Nat.lt_succ_of_lt (h.controlJoined c hc).1, Nat.lt_succ_of_lt (h.controlJoined c hc).2⟩
  · rcases hcases i b hb with hb | ⟨rfl, rfl⟩
    · exact h.recorded i b role u hb hu
    · cases role <;> cases hu

theorem withEdge (h : g.Consistent) (hsource : e.source < g.size) (htarget : e.target < g.size) :
    (g.withEdge e).Consistent := by
  rw [Graph.withEdge]
  split
  · exact h
  · next hnew =>
    refine { h with joined := ?_, edges := ?_ }
    · exact List.forall_mem_append.mpr ⟨h.joined,
        List.forall_mem_singleton.mpr ⟨hsource, htarget⟩⟩
    · refine List.nodup_append'.mpr ⟨h.edges, List.nodup_singleton e, ?_⟩
      rw [List.disjoint_singleton]
      exact fun hmem => hnew (List.contains_iff_mem.mpr hmem)

theorem addControlEdge (h : g.Consistent) (source target : Nat) (backEdge : Bool) :
    (perform (Graph.addControlEdge source target backEdge) g).2.Consistent := by
  rw [Graph.addControlEdge, perform_bind_of_ok (perform_get g)]
  simp only []
  split
  · exact h
  · next hsource =>
    split
    · exact h
    · next htarget =>
      split
      · exact h
      · next hnew =>
        refine { h with controlJoined := ?_, controlEdges := ?_ }
        · exact List.forall_mem_append.mpr ⟨h.controlJoined, List.forall_mem_singleton.mpr
            ⟨Nat.not_le.mp hsource, Nat.not_le.mp htarget⟩⟩
        · refine List.nodup_append'.mpr ⟨h.controlEdges, List.nodup_singleton _, ?_⟩
          rw [List.disjoint_singleton]
          exact fun hmem => hnew (List.contains_iff_mem.mpr hmem)

theorem withOperation (h : g.Consistent) (hname : op.name ∉ g.register)
    (hblock : op.block < g.blocks.length) : (g.withOperation op).Consistent := by
  have hmore : (g.withOperation op).ops.length = g.ops.length + 1 := List.length_append
  have hkept : ∀ {u : Nat} {op' : Operation α}, g.ops[u]? = some op' →
      (g.withOperation op).ops[u]? = some op' := fun hop =>
    getElem?_concat_eq_some_iff.mpr (.inl hop)
  refine ⟨?_, ?_, ?_, fun e he => ?_, h.edges, fun i b' hb' => ?_, fun b' hb' => ?_,
    fun i b' hb' u => ?_, fun c hc => ?_, h.controlEdges, fun i b' role u hb' hu => ?_⟩
  · change g.register ++ [op.name] = (g.ops ++ [op]).map (·.name)
    rw [h.register, List.map_append, List.map_singleton]
  · refine List.nodup_append'.mpr ⟨h.names, List.nodup_singleton op.name, ?_⟩
    rw [List.disjoint_singleton]
    exact hname
  · rw [length_blocks_withOperation]
    exact List.forall_mem_append.mpr ⟨h.inside, List.forall_mem_singleton.mpr hblock⟩
  · rw [size, hmore]
    exact ⟨Nat.lt_succ_of_lt (h.joined e he).1, Nat.lt_succ_of_lt (h.joined e he).2⟩
  · rcases exists_block_of_withOperation hb' with ⟨b, hb, rfl⟩
    rw [← h.ids i b hb]
    split <;> rfl
  · -- A new member has a greater number than all that are there.
    rcases List.mem_iff_getElem?.mp hb' with ⟨i, hb'⟩
    rcases exists_block_of_withOperation hb' with ⟨b, hb, rfl⟩
    have hascending := h.ascending b (List.mem_of_getElem? hb)
    split
    · refine List.pairwise_append.mpr ⟨hascending, List.pairwise_singleton _ _, fun u hu w hw => ?_⟩
      rw [List.mem_singleton.mp hw]
      rcases (h.members i b hb u).mp hu with ⟨op', hop', _⟩
      exact (List.getElem?_eq_some_iff.mp hop').1
    · exact hascending
  · rcases exists_block_of_withOperation hb' with ⟨b, hb, rfl⟩
    rw [isMember_withOperation_iff, ← h.members i b hb u]
    split
    · next heq => rw [List.mem_append, List.mem_singleton, and_iff_left heq]
    · next hne => rw [or_iff_left fun hnew => hne hnew.2]
  · rw [length_blocks_withOperation]
    exact h.controlJoined c hc
  · rcases exists_block_of_withOperation hb' with ⟨b, hb, rfl⟩
    have hrecorded : b.recorded? role = some u := by
      rw [← hu]
      split <;> cases role <;> rfl
    rcases h.recorded i b role u hb hrecorded with ⟨op', hop', hrest⟩
    exact ⟨op', hkept hop', hrest⟩

theorem addOperation (h : g.Consistent) (op : Operation α) :
    (perform (Graph.addOperation op) g).2.Consistent := by
  by_cases hname : op.name ∈ g.register
  · rw [perform_addOperation_of_taken hname]
    exact h
  · by_cases hblock : op.block < g.blocks.length
    · rw [perform_addOperation_of_free hname hblock]
      exact h.withOperation hname hblock
    · rw [perform_addOperation, if_neg fun hmem => hname (List.contains_iff_mem.mp hmem),
        if_pos (Nat.not_lt.mp hblock)]
      exact h

theorem addEdge (h : g.Consistent) (source target : String) (backEdge : Bool) :
    (perform (Graph.addEdge source target backEdge) g).2.Consistent := by
  cases hsource : g.idOf? source with
  | none =>
      rw [Graph.addEdge, perform_bind_of_error (perform_requireNode_of_unknown hsource)]
      exact h
  | some u =>
      rw [Graph.addEdge, perform_bind_of_ok (perform_requireNode_of_known hsource)]
      cases htarget : g.idOf? target with
      | none =>
          rw [perform_bind_of_error (perform_requireNode_of_unknown htarget)]
          exact h
      | some t =>
          rw [perform_bind_of_ok (perform_requireNode_of_known htarget)]
          exact h.withEdge (h.lt_of_idOf? hsource) (h.lt_of_idOf? htarget)

/-! ### Bounding blocks -/

theorem withLinks (h : g.Consistent) {links : List (Nat × Nat)}
    (hlinks : ∀ link ∈ links, link.1 < g.size ∧ link.2 < g.size) :
    (g.withLinks links).Consistent := by
  induction links generalizing g with
  | nil => exact h
  | cons link links ih =>
      rw [List.forall_mem_cons] at hlinks
      refine ih (h.withEdge hlinks.1.1 hlinks.1.2) fun link' hlink' => ?_
      rw [size, withEdge_ops]
      exact hlinks.2 link' hlink'

/-- The numbers that blocks have recorded are those of operations. -/
theorem lt_of_recorded (h : g.Consistent) {i u : Nat} {b : Block} (role : SuperRole)
    (hb : g.blocks[i]? = some b) (hu : b.recorded? role = some u) : u < g.size := by
  rcases h.recorded i b role u hb hu with ⟨op, hop, _⟩
  exact (List.getElem?_eq_some_iff.mp hop).1

section

variable [Scalar α] {id : Nat} {b : Block}

/-- Recording supernodes that are there and are named as they should be. -/
theorem record (h : g.Consistent) {source sink : Nat}
    (hsource : g.ops[source]? = some (firstOf id)) (hsink : g.ops[sink]? = some (lastOf id)) :
    Consistent { g with blocks := g.blocks.modify id fun b => { b with source, sink } } := by
  have hcases : ∀ i b', (g.blocks.modify id fun b => { b with source, sink })[i]? = some b' →
      ∃ b, g.blocks[i]? = some b ∧
        b' = if id = i then { b with source := some source, sink := some sink } else b := by
    intro i b' hb'
    rw [List.getElem?_modify] at hb'
    rcases Option.map_eq_some_iff.mp hb' with ⟨b, hb, rfl⟩
    exact ⟨b, hb, rfl⟩
  refine ⟨h.register, h.names, fun op hop => ?_, h.joined, h.edges, fun i b' hb' => ?_,
    fun b' hb' => ?_, fun i b' hb' u => ?_, fun c hc => ?_, h.controlEdges,
    fun i b' role u hb' hu => ?_⟩
  · rw [List.length_modify]
    exact h.inside op hop
  · rcases hcases i b' hb' with ⟨b, hb, rfl⟩
    rw [← h.ids i b hb]
    split <;> rfl
  · rcases List.mem_iff_getElem?.mp hb' with ⟨i, hb'⟩
    rcases hcases i b' hb' with ⟨b, hb, rfl⟩
    have hascending := h.ascending b (List.mem_of_getElem? hb)
    split <;> exact hascending
  · rcases hcases i b' hb' with ⟨b, hb, rfl⟩
    have hmembers := h.members i b hb u
    split <;> exact hmembers
  · rw [List.length_modify]
    exact h.controlJoined c hc
  · rcases hcases i b' hb' with ⟨b, hb, rfl⟩
    by_cases hi : id = i
    · rw [if_pos hi] at hu
      cases role with
      | source =>
          cases hu
          exact ⟨firstOf id, hsource, rfl, hi, congrArg Block.sourceName hi⟩
      | sink =>
          cases hu
          exact ⟨lastOf id, hsink, rfl, hi, congrArg Block.sinkName hi⟩
    · rw [if_neg hi] at hu
      exact h.recorded i b role u hb hu

theorem withSupers (h : g.Consistent) (hb : g.blocks[id]? = some b)
    (hfirst : Block.sourceName id ∉ g.register)
    (hlast : Block.sinkName id ∉ g.register ++ [Block.sourceName id]) :
    (g.withSupers id b).Consistent := by
  have hid : id < g.blocks.length := (List.getElem?_eq_some_iff.mp hb).1
  let g₂ := (g.withOperation (firstOf id)).withOperation (lastOf id)
  have hadded : g₂.Consistent := (h.withOperation hfirst hid).withOperation hlast hid
  have hone : (g.withOperation (firstOf id)).ops.length = g.ops.length + 1 := List.length_append
  have htwo : g₂.ops.length = g.ops.length + 2 := by
    change ((g.withOperation (firstOf id)).ops ++ [lastOf id]).length = _
    rw [List.length_append, hone, List.length_singleton]
  have hsource : g₂.ops[g.ops.length]? = some (firstOf id) :=
    getElem?_concat_eq_some_iff.mpr
      (.inl (getElem?_concat_eq_some_iff.mpr (.inr ⟨rfl, rfl⟩)))
  have hsink : g₂.ops[g.ops.length + 1]? = some (lastOf id) :=
    getElem?_concat_eq_some_iff.mpr (.inr ⟨hone.symm, rfl⟩)
  -- Joining a member keeps the operations, so the ends of what it adds stay where they are.
  have hmember : ∀ u ∈ b.members, u < g₂.ops.length := by
    intro u hu
    rcases (h.members id b hb u).mp hu with ⟨op, hop, _⟩
    have hlt := (List.getElem?_eq_some_iff.mp hop).1
    omega
  let P (g' : Graph α) : Prop := g'.Consistent ∧ g'.ops = g₂.ops
  have hedge : ∀ g' e, IsJoining b.members g.ops.length (g.ops.length + 1) e → P g' →
      P (g'.withEdge e) := by
    rintro g' e he ⟨hg', hops⟩
    refine ⟨?_, (g'.withEdge_ops e).trans hops⟩
    have hends : e.source < g'.size ∧ e.target < g'.size := by
      rw [size, hops]
      rcases he with ⟨u, hu, rfl | rfl⟩ | ⟨_, rfl⟩
      · exact ⟨by change g.ops.length < _; omega, hmember u hu⟩
      · exact ⟨hmember u hu, by change g.ops.length + 1 < _; omega⟩
      · exact ⟨by change g.ops.length < _; omega, by change g.ops.length + 1 < _; omega⟩
    exact hg'.withEdge hends.1 hends.2
  have hstart : P g₂ := ⟨hadded, rfl⟩
  rcases boundBy_induction id hedge hstart with ⟨joined, ⟨hjoined, hops⟩, heq⟩
  rw [Graph.withSupers, heq]
  exact hjoined.record (hops ▸ hsource) (hops ▸ hsink)

theorem boundBlock (h : g.Consistent) (id : Nat) :
    (perform (Graph.boundBlock id) g).2.Consistent := by
  rcases hresult : perform (Graph.boundBlock id) g with ⟨answer, g'⟩
  cases bounding_of_perform hresult with
  | kept _ => exact h
  | refused _ _ _ _ => exact h
  | halfway b hb hopen hfirst hlast =>
      exact h.withOperation hfirst (List.getElem?_eq_some_iff.mp hb).1
  | bounded b hb hopen hfirst hlast heq =>
      rw [heq]
      exact h.withSupers hb hfirst hlast

theorem boundBlocks (h : g.Consistent) : (perform Graph.boundBlocks g).2.Consistent := by
  have hloop : Moves (fun g g' : Graph α => g.Consistent → g'.Consistent)
      ((List.range g.blocks.length).forM Graph.boundBlock) := by
    refine Moves.forM (fun _ h => h) (fun _ _ _ h h' hg => h' (h hg)) (fun id => ?_) _
    exact fun g hg => hg.boundBlock id
  rw [perform_boundBlocks]
  have hbounded := hloop g h
  rcases hresult : perform ((List.range g.blocks.length).forM Graph.boundBlock) g with ⟨answer, g₁⟩
  rw [hresult] at hbounded
  cases answer with
  | error e => exact hbounded
  | ok u =>
      simp only []
      cases hfound : (g₁.controlEdges.filter fun c => !c.backEdge).mapM g₁.controlLink? with
      | error e => exact hbounded
      | ok found =>
          refine hbounded.withLinks fun link hlink => ?_
          rcases (mem_links_iff hfound).mp hlink with ⟨c, _, _, hanswer⟩
          rcases controlLink?_eq_some_iff.mp hanswer with ⟨a, b, ha, hsink, hb, hsource⟩
          exact ⟨hbounded.lt_of_recorded .sink ha hsink,
            hbounded.lt_of_recorded .source hb hsource⟩

end

end Consistent

/-! ### Calls -/

/-- A call that builds a graph. -/
inductive Call (α : Type) where
  | addBlock (name : String)
  | addOperation (op : Operation α)
  | addOperationOfKind (name : String) (kind : Opcode) (block : Nat)
  | addDependency (source target : String)
  | addBackEdge (source target : String)
  | addControlEdge (source target : Nat) (backEdge : Bool)
  | boundBlocks

section

variable [Scalar α]

/-- The graph after a call, whether it was refused or not. -/
def Call.after (g : Graph α) : Call α → Graph α
  | addBlock name => (perform (Graph.addBlock name) g).2
  | addOperation op => (perform (Graph.addOperation op) g).2
  | addOperationOfKind name kind block => (perform (Graph.addOperationOfKind name kind block) g).2
  | addDependency source target => (perform (Graph.addDependency source target) g).2
  | addBackEdge source target => (perform (Graph.addBackEdge source target) g).2
  | addControlEdge source target backEdge =>
    (perform (Graph.addControlEdge source target backEdge) g).2
  | boundBlocks => (perform Graph.boundBlocks g).2

/-- The graph after several calls. -/
def afterCalls (g : Graph α) (calls : List (Call α)) : Graph α := calls.foldl Call.after g

variable {g : Graph α}

theorem Consistent.after (h : g.Consistent) (call : Call α) : (call.after g).Consistent := by
  cases call with
  | addBlock name => exact h.withBlock name
  | addOperation op => exact h.addOperation op
  | addOperationOfKind name kind block => exact h.addOperation _
  | addDependency source target => exact h.addEdge source target false
  | addBackEdge source target => exact h.addEdge source target true
  | addControlEdge source target backEdge => exact h.addControlEdge source target backEdge
  | boundBlocks => exact h.boundBlocks

theorem Consistent.afterCalls (h : g.Consistent) (calls : List (Call α)) :
    (g.afterCalls calls).Consistent := by
  induction calls generalizing g with
  | nil => exact h
  | cons call calls ih => exact ih (h.after call)

end

/-! ### Parts -/

theorem repeatedName?_eq_none_iff {seen names : List String} :
    repeatedName? seen names = none ↔ names.Nodup ∧ ∀ name ∈ names, name ∉ seen := by
  induction names generalizing seen with
  | nil => exact ⟨fun _ => ⟨List.nodup_nil, nofun⟩, fun _ => rfl⟩
  | cons name rest ih =>
      rw [repeatedName?, List.nodup_cons, List.forall_mem_cons]
      by_cases hseen : name ∈ seen
      · rw [if_pos (List.contains_iff_mem.mpr hseen)]
        exact ⟨nofun, fun h => absurd hseen h.2.1⟩
      · rw [if_neg fun h => hseen (List.contains_iff_mem.mp h), ih]
        simp only [List.mem_cons, not_or]
        constructor
        · rintro ⟨hnodup, hall⟩
          exact ⟨⟨fun hmem => (hall name hmem).1 rfl, hnodup⟩, hseen, fun n hn => (hall n hn).2⟩
        · rintro ⟨⟨hnew, hnodup⟩, _, hall⟩
          exact ⟨hnodup, fun n hn => ⟨fun heq => hnew (heq ▸ hn), hall n hn⟩⟩

/-- An edge between operations is not found to be dangling. -/
theorem not_dangling {g : Graph α} {e : Dependency} (h : e.source < g.size ∧ e.target < g.size) :
    ¬ (decide (g.ops.length ≤ e.source) || decide (g.ops.length ≤ e.target)) = true := by
  rw [Bool.or_eq_true, decide_eq_true_iff, decide_eq_true_iff, not_or]
  exact ⟨Nat.not_le.mpr h.1, Nat.not_le.mpr h.2⟩

/-- The parts of a graph make the same graph, with the same register. -/
theorem ofParts_of_consistent {g : Graph α} (h : g.Consistent) :
    ofParts g.name g.ops g.edges g.blocks g.controlEdges = .ok g := by
  have hnames : repeatedName? [] g.register = none :=
    repeatedName?_eq_none_iff.mpr ⟨h.names, fun _ _ => List.not_mem_nil⟩
  have hedges : (g.edges.find? fun e => g.ops.length ≤ e.source || g.ops.length ≤ e.target)
      = none := by
    rw [List.find?_eq_none]
    exact fun e he => not_dangling (h.joined e he)
  simp only [ofParts, ← h.register, hnames, hedges]

/-- After any calls, refused ones included, the parts of a graph agree, names are looked
    up where they stand, and the parts make the same graph again. -/
theorem calls_keep_consistent [Scalar α] (name : String) (calls : List (Call α)) :
    let g := afterCalls { name } calls
    g.Consistent ∧
      (∀ (name : String) (u : Nat), g.idOf? name = some u ↔
        ∃ op, g.ops[u]? = some op ∧ op.name = name) ∧
      ofParts g.name g.ops g.edges g.blocks g.controlEdges = .ok g := by
  have hconsistent := (Consistent.empty (α := α) name).afterCalls calls
  exact ⟨hconsistent, fun _ _ => hconsistent.idOf?_iff, ofParts_of_consistent hconsistent⟩

end Graph

end CyclePlan
