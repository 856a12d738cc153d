import CyclePlan.Proofs.Graph.Wiring
import CyclePlan.Scalar.Rational

/-!
# Refused Calls

What a refused call leaves of the graph that it was made on.

Every call but one checks before it changes anything, so a refusal leaves the graph
as it was. Bounding the blocks is a loop of additions, and each addition checks for
itself. A refusal therefore comes in the middle: the blocks before are bounded for
good, and if the second name of a block is the one that is taken, the first supernode
of that block is there alone and the block has not recorded it (`StopsAt`).

Nothing can be refused after the loop. By then every block has both supernodes, and
control edges join blocks that there are.

The names that a block needs are its own, so whether they are free does not depend on
the blocks before (`loop_frame`). The loop stops at the first block that lacks a
supernode while one of its names is taken, and such a block stays stuck: names are
never given back.

## Main definitions

* `Graph.Call.answer`: What a call answers, without its value.
* `Graph.IsStuck`: A block cannot be bounded.
* `Graph.StopsAt`: What bounding the blocks leaves when it stops at one.
* `Graph.SameAt`: A block and its names are as before.
* `Graph.sinkTaken`: Calls that take the name of a supernode.

## Theorems

* `Graph.after_of_refused`: Other calls leave the graph as it was.
* `Graph.boundBlock_frame`, `Graph.loop_frame`: Bounding some blocks does not touch the
  others.
* `Graph.stopsAt_of_loop`, `Graph.stopsAt_of_refused`: Where bounding the blocks stops.
* `Graph.exists_refused_iff`: When it does.
* `Graph.IsStuck.after`, `Graph.refused_again`: A stuck block stays stuck.
* `Graph.refused_calls_leave`: All of this, for every graph that calls lead to.
-/

namespace CyclePlan

namespace Graph

variable {α : Type}

section

variable [Scalar α]

/-- What a call answers, without the number that some calls give back. -/
def Call.answer (g : Graph α) : Call α → Except GraphError Unit
  | addBlock name => (perform (Graph.addBlock name) g).1.map fun _ => ()
  | addOperation op => (perform (Graph.addOperation op) g).1.map fun _ => ()
  | addOperationOfKind name kind block =>
    (perform (Graph.addOperationOfKind name kind block) g).1.map fun _ => ()
  | addDependency source target => (perform (Graph.addDependency source target) g).1
  | addBackEdge source target => (perform (Graph.addBackEdge source target) g).1
  | addControlEdge source target backEdge =>
    (perform (Graph.addControlEdge source target backEdge) g).1
  | boundBlocks => (perform Graph.boundBlocks g).1

end

/-! ### Calls that check first -/

section

variable {g : Graph α} {e : GraphError}

theorem addOperation_of_refused {op : Operation α}
    (h : (perform (addOperation op) g).1 = .error e) : (perform (addOperation op) g).2 = g := by
  rw [perform_addOperation] at h ⊢
  split
  · rfl
  · next hname =>
    split
    · rfl
    · next hblock =>
      rw [if_neg hname, if_neg hblock] at h
      cases h

theorem addEdge_of_refused {source target : String} {backEdge : Bool}
    (h : (perform (addEdge source target backEdge) g).1 = .error e) :
    (perform (addEdge source target backEdge) g).2 = g := by
  cases hsource : g.idOf? source with
  | none => rw [addEdge, perform_bind_of_error (perform_requireNode_of_unknown hsource)]
  | some u =>
      rw [addEdge, perform_bind_of_ok (perform_requireNode_of_known hsource)] at h ⊢
      cases htarget : g.idOf? target with
      | none => rw [perform_bind_of_error (perform_requireNode_of_unknown htarget)]
      | some t =>
          rw [perform_bind_of_ok (perform_requireNode_of_known htarget)] at h
          cases h

theorem addControlEdge_of_refused {source target : Nat} {backEdge : Bool}
    (h : (perform (addControlEdge source target backEdge) g).1 = .error e) :
    (perform (addControlEdge source target backEdge) g).2 = g := by
  rw [addControlEdge, perform_bind_of_ok (perform_get g)] at h ⊢
  simp only [] at h ⊢
  split
  · rfl
  · next hsource =>
    split
    · rfl
    · next htarget =>
      rw [if_neg hsource, if_neg htarget] at h
      split at h <;> cases h

/-- A refused call leaves the graph as it was, unless it bounds the blocks. -/
theorem after_of_refused [Scalar α] {call : Call α} (h : call.answer g = .error e)
    (hcall : call ≠ .boundBlocks) : call.after g = g := by
  have hmap : ∀ {answer : Except GraphError Nat},
      (answer.map fun _ => ()) = .error e → answer = .error e := by
    rintro (_ | _) hanswer
    · cases hanswer
      rfl
    · cases hanswer
  cases call with
  | addBlock name => cases h
  | addOperation op => exact addOperation_of_refused (hmap h)
  | addOperationOfKind name kind block => exact addOperation_of_refused (hmap h)
  | addDependency source target => exact addEdge_of_refused h
  | addBackEdge source target => exact addEdge_of_refused h
  | addControlEdge source target backEdge => exact addControlEdge_of_refused h
  | boundBlocks => exact absurd rfl hcall

end

/-! ### Bounding the blocks -/

section

variable [Scalar α] {g g' : Graph α} {e : GraphError} {id count : Nat}

/-- A block lacks a supernode, and a name that it needs is taken. -/
def IsStuck (g : Graph α) (id : Nat) : Prop :=
  (∃ b, g.blocks[id]? = some b ∧ b.isBounded = false) ∧
    ∃ role : SuperRole, role.nodeName id ∈ g.register

omit [Scalar α] in
theorem IsStuck.lt (h : g.IsStuck id) : id < g.blocks.length := by
  rcases h.1 with ⟨b, hb, _⟩
  exact (List.getElem?_eq_some_iff.mp hb).1

/-- What bounding the blocks leaves when it stops at one of them. The blocks before
    are bounded. -/
inductive StopsAt (g : Graph α) (id : Nat) : GraphError → Graph α → Prop
  | first {g' : Graph α} (hloop : perform ((List.range id).forM boundBlock) g = (.ok ⟨⟩, g'))
    (hfirst : Block.sourceName id ∈ g.register) :
    StopsAt g id (.nameTaken (Block.sourceName id)) g'
  /-- The supernode that came in first stays. -/
  | last {g' : Graph α} (hloop : perform ((List.range id).forM boundBlock) g = (.ok ⟨⟩, g'))
    (hfirst : Block.sourceName id ∉ g.register) (hlast : Block.sinkName id ∈ g.register) :
    StopsAt g id (.nameTaken (Block.sinkName id)) (g'.withOperation (firstOf id))

/-- A block is as it was, and so are the names that it needs. -/
def SameAt (g g' : Graph α) (id : Nat) : Prop :=
  g'.blocks[id]? = g.blocks[id]? ∧
    ∀ role : SuperRole, role.nodeName id ∈ g'.register ↔ role.nodeName id ∈ g.register

omit [Scalar α] in
theorem SameAt.refl (g : Graph α) (id : Nat) : g.SameAt g id := ⟨rfl, fun _ => Iff.rfl⟩

omit [Scalar α] in
theorem SameAt.trans {g'' : Graph α} (h : g.SameAt g' id) (h' : g'.SameAt g'' id) :
    g.SameAt g'' id :=
  ⟨h'.1.trans h.1, fun role => (h'.2 role).trans (h.2 role)⟩

omit [Scalar α] in
theorem SameAt.isStuck_iff (h : g.SameAt g' id) : g'.IsStuck id ↔ g.IsStuck id := by
  simp only [IsStuck, h.1, h.2]

/-- Bounding a block does not touch the others and takes no name that they need. The
    block was not stuck. -/
theorem boundBlock_frame (h : perform (boundBlock id) g = (.ok ⟨⟩, g')) :
    (∀ i, i ≠ id → g.SameAt g' i) ∧ ¬ g.IsStuck id := by
  cases bounding_of_perform h with
  | kept hdone =>
      refine ⟨fun i _ => .refl g i, fun hstuck => ?_⟩
      rcases hstuck.1 with ⟨b, hb, hopen⟩
      rw [hdone b hb] at hopen
      cases hopen
  | bounded b hb hopen hfirst hlast heq =>
      rcases g.withSupers_eq id b with ⟨edges, hsupers, _⟩
      rw [heq, hsupers]
      refine ⟨fun i hi => ⟨?_, fun role => ?_⟩, fun hstuck => ?_⟩
      · exact List.getElem?_modify_ne _ _ (Ne.symm hi)
      · -- The new names are those of the block that is bounded.
        have hother : ∀ role' : SuperRole, role.nodeName i ≠ role'.nodeName id := fun _ heq =>
          hi (SuperRole.nodeName_inj.mp heq).2
        have hsource : role.nodeName i ≠ Block.sourceName id := hother .source
        have hsink : role.nodeName i ≠ Block.sinkName id := hother .sink
        simp only [List.mem_append, List.mem_cons, List.not_mem_nil, hsource, hsink, or_self,
          or_false]
      · rcases hstuck.2 with ⟨role, hrole⟩
        cases role with
        | source => exact hfirst hrole
        | sink => exact hlast (List.mem_append_left _ hrole)

/-- Bounding the first blocks does not touch the others and takes no name that they
    need. None of the first blocks was stuck. -/
theorem loop_frame (h : perform ((List.range count).forM boundBlock) g = (.ok ⟨⟩, g')) :
    (∀ i, count ≤ i → g.SameAt g' i) ∧ ∀ i < count, ¬ g.IsStuck i := by
  let P (count : Nat) (s : Graph α) : Prop :=
    (∀ i, count ≤ i → g.SameAt s i) ∧ ∀ i < count, ¬ g.IsStuck i
  have hstart : P 0 g := ⟨fun i _ => .refl g i, fun i hi => absurd hi (by omega)⟩
  refine forM_range_induction (P := P) (fun k _ s t hs hrun => ?_) hstart h
  rcases hs with ⟨hlater, hbefore⟩
  rcases boundBlock_frame hrun with ⟨hothers, hfree⟩
  refine ⟨fun i hi => (hlater i (by omega)).trans (hothers i (by omega)), fun i hi => ?_⟩
  by_cases hik : i = k
  · -- The rounds before have not touched block `k`, so it was not stuck before them either.
    subst hik
    rwa [(hlater i (Nat.le_refl i)).isStuck_iff] at hfree
  · exact hbefore i (by omega)

/-- The loop over the blocks stops at the first stuck one. -/
theorem stopsAt_of_loop (h : perform ((List.range count).forM boundBlock) g = (.error e, g')) :
    ∃ id, g.IsStuck id ∧ (∀ i < id, ¬ g.IsStuck i) ∧ g.StopsAt id e g' := by
  rcases exists_round_of_range_error h with ⟨id, hid, t, hbefore, hround⟩
  rcases loop_frame hbefore with ⟨hlater, hnot⟩
  rcases hlater id (Nat.le_refl id) with ⟨hblock, hnames⟩
  cases bounding_of_perform hround with
  | refused b hb hopen hfirst =>
      have hfirst' := (hnames .source).mp hfirst
      exact ⟨id, ⟨⟨b, hblock.symm.trans hb, hopen⟩, .source, hfirst'⟩, hnot,
        .first hbefore hfirst'⟩
  | halfway b hb hopen hfirst hlast =>
      have hlast' : Block.sinkName id ∈ t.register := by
        rcases List.mem_append.mp hlast with hmem | hmem
        · exact hmem
        · -- The name that has just come in is the other one.
          have heq : SuperRole.sink.nodeName id = SuperRole.source.nodeName id :=
            List.mem_singleton.mp hmem
          exact nomatch (SuperRole.nodeName_inj.mp heq).1
      have hlast'' := (hnames .sink).mp hlast'
      exact ⟨id, ⟨⟨b, hblock.symm.trans hb, hopen⟩, .sink, hlast''⟩, hnot,
        .last hbefore (fun hmem => hfirst ((hnames .source).mpr hmem)) hlast''⟩

/-- So does the call, in a graph whose parts agree. -/
theorem stopsAt_of_refused (h : g.Consistent)
    (hrefused : perform boundBlocks g = (.error e, g')) :
    ∃ id, g.IsStuck id ∧ (∀ i < id, ¬ g.IsStuck i) ∧ g.StopsAt id e g' := by
  rw [perform_boundBlocks] at hrefused
  rcases hloop : perform ((List.range g.blocks.length).forM boundBlock) g with ⟨answer, g₁⟩
  rw [hloop] at hrefused
  cases answer with
  | ok u =>
      -- After the loop nothing is refused.
      have hg₁ : g₁.Consistent := by
        have hconsistent := (h.extends_loop (List.range g.blocks.length)).1
        rwa [hloop] at hconsistent
      rcases hg₁.exists_links (isBounded_of_loop hloop).2 with ⟨found, hfound⟩
      simp only [hfound] at hrefused
      cases hrefused
  | error e' =>
      cases hrefused
      exact stopsAt_of_loop hloop

/-- Bounding the blocks is refused exactly if one of them is stuck. -/
theorem exists_refused_iff (h : g.Consistent) :
    (∃ e, Call.answer g .boundBlocks = .error e) ↔ ∃ id, g.IsStuck id := by
  rcases hresult : perform boundBlocks g with ⟨answer, g'⟩
  rw [Call.answer, hresult]
  constructor
  · rintro ⟨e, rfl⟩
    rcases stopsAt_of_refused h hresult with ⟨id, hstuck, _⟩
    exact ⟨id, hstuck⟩
  · rintro ⟨id, hstuck⟩
    cases answer with
    | error e => exact ⟨e, rfl⟩
    | ok u =>
        rcases exists_links_of_boundBlocks hresult with ⟨g₁, _, hloop, _⟩
        exact absurd hstuck ((loop_frame hloop).2 id hstuck.lt)

/-- A refusal leaves the graph as it was only if it comes before the first block that
    lacks a supernode got one. -/
theorem StopsAt.eq_iff (h : g.StopsAt id e g') :
    g' = g ↔ Block.sourceName id ∈ g.register ∧
      ∀ i < id, ∀ b, g.blocks[i]? = some b → b.isBounded = true := by
  cases h with
  | first hloop hfirst =>
      constructor
      · rintro rfl
        exact ⟨hfirst, (isBounded_of_rounds hloop).2⟩
      · rintro ⟨_, hbounded⟩
        rw [perform_loop_of_bounded fun i hi => hbounded i (List.mem_range.mp hi)] at hloop
        cases hloop
        rfl
  | @last g₁ hloop hfirst hlast =>
      refine ⟨fun heq => absurd ?_ hfirst, fun hall => absurd hall.1 hfirst⟩
      have hmem : Block.sourceName id ∈ (g₁.withOperation (firstOf id)).register :=
        List.mem_append_right _ List.mem_cons_self
      rwa [heq] at hmem

omit [Scalar α] in
/-- A block stays stuck as long as operations are only added and it is not bounded. -/
theorem IsStuck.mono (h : g.IsStuck id) (hg : g.Consistent) (hg' : g'.Consistent)
    (hops : g.ops <+: g'.ops)
    (hblock : ∀ b, g.blocks[id]? = some b → b.isBounded = false →
      ∃ b', g'.blocks[id]? = some b' ∧ b'.isBounded = false) : g'.IsStuck id := by
  rcases h with ⟨⟨b, hb, hopen⟩, role, htaken⟩
  refine ⟨hblock b hb hopen, role, ?_⟩
  rw [hg.register] at htaken
  rw [hg'.register]
  exact (hops.map _).subset htaken

omit [Scalar α] in
/-- An operation that is added bounds no block. -/
theorem exists_open_withOperation (op : Operation α) {b : Block} (hb : g.blocks[id]? = some b)
    (hopen : b.isBounded = false) :
    ∃ b', (g.withOperation op).blocks[id]? = some b' ∧ b'.isBounded = false := by
  have hlt : id < (g.withOperation op).blocks.length := by
    rw [length_blocks_withOperation]
    exact (List.getElem?_eq_some_iff.mp hb).1
  have hb' := List.getElem?_eq_getElem hlt
  refine ⟨_, hb', ?_⟩
  rcases exists_block_of_withOperation hb' with ⟨b₀, hb₀, heq⟩
  cases hb₀.symm.trans hb
  rw [heq]
  split <;> exact hopen

omit [Scalar α] in
theorem IsStuck.addOperation (h : g.IsStuck id) (hg : g.Consistent) (op : Operation α) :
    (perform (Graph.addOperation op) g).2.IsStuck id := by
  have hg' := hg.addOperation op
  rw [perform_addOperation] at hg' ⊢
  split
  · exact h
  · next hname =>
    split
    · exact h
    · next hinside =>
      rw [if_neg hname, if_neg hinside] at hg'
      exact h.mono hg hg' (List.prefix_append _ _) fun b => exists_open_withOperation op

/-- Bounding the blocks does not get beyond the first stuck one. -/
theorem IsStuck.boundBlocks (h : g.IsStuck id) (hg : g.Consistent) :
    (perform Graph.boundBlocks g).2.IsStuck id := by
  rcases hg.extends_boundBlocks.gains.ops with ⟨more, hops, _⟩
  rcases (exists_refused_iff hg).mpr ⟨id, h⟩ with ⟨e, hrefused⟩
  have hresult : perform Graph.boundBlocks g = (.error e, (perform Graph.boundBlocks g).2) :=
    Prod.ext hrefused rfl
  rcases stopsAt_of_refused hg hresult with ⟨first, _, hbefore, hstops⟩
  have hle : first ≤ id := Nat.le_of_not_lt fun hlt => hbefore id hlt h
  refine h.mono hg hg.boundBlocks (hops ▸ List.prefix_append _ _) fun b hb hopen => ?_
  generalize (perform Graph.boundBlocks g).2 = g' at hstops ⊢
  cases hstops with
  | first hloop _ => exact ⟨b, ((loop_frame hloop).1 id hle).1.trans hb, hopen⟩
  | last hloop _ _ =>
      exact exists_open_withOperation _ (((loop_frame hloop).1 id hle).1.trans hb) hopen

/-- No call makes a stuck block one that can be bounded. -/
theorem IsStuck.after (h : g.IsStuck id) (hg : g.Consistent) (call : Call α) :
    (call.after g).IsStuck id := by
  have hsame : ∀ {g' : Graph α}, g'.Consistent → g.SameNodes g' → g'.IsStuck id := by
    intro g' hg' hnodes
    refine h.mono hg hg' (hnodes.1 ▸ List.prefix_refl _) fun b hb hopen => ?_
    exact ⟨b, by rw [hnodes.2]; exact hb, hopen⟩
  cases call with
  | addBlock name =>
      refine h.mono hg (hg.withBlock name) (List.prefix_refl _) fun b hb hopen => ?_
      exact ⟨b, getElem?_concat_eq_some_iff.mpr (.inl hb), hopen⟩
  | addOperation op => exact h.addOperation hg op
  | addOperationOfKind name kind block => exact h.addOperation hg _
  | addDependency source target => exact hsame (hg.addEdge _ _ _) (addEdge_moves _ _ _ g)
  | addBackEdge source target => exact hsame (hg.addEdge _ _ _) (addEdge_moves _ _ _ g)
  | addControlEdge source target backEdge =>
      exact hsame (hg.addControlEdge _ _ _) (addControlEdge_moves _ _ _ g).1
  | boundBlocks => exact h.boundBlocks hg

/-- Once bounding the blocks has been refused, it always is. -/
theorem refused_again (hg : g.Consistent) (h : Call.answer g .boundBlocks = .error e)
    (calls : List (Call α)) :
    ∃ e', Call.answer ((Call.after g .boundBlocks).afterCalls calls) .boundBlocks = .error e' := by
  rcases (exists_refused_iff hg).mp ⟨e, h⟩ with ⟨id, hstuck⟩
  have hstays : ∀ g : Graph α, g.Consistent → g.IsStuck id → (g.afterCalls calls).IsStuck id := by
    induction calls with
    | nil => exact fun _ _ h => h
    | cons call calls ih => exact fun g hg h => ih (call.after g) (hg.after call) (h.after hg call)
  have hg' := hg.after .boundBlocks
  exact (exists_refused_iff (hg'.afterCalls calls)).mpr ⟨id, hstays _ hg' (hstuck.after hg _)⟩

end

/-! ### Graphs that calls lead to -/

/-- On every graph that calls lead to, a refused call leaves the graph exactly as it was,
    unless it bounds the blocks. Such a call stops at the first block that lacks a
    supernode while one of the names that it needs is taken. It has added supernodes and
    their wiring for the blocks before, and the first supernode of that block if only the
    second name is taken. So the graph is as it was exactly if the blocks before had theirs
    already and the first name is taken. -/
theorem refused_calls_leave [Scalar α] (name : String) (calls : List (Call α)) (call : Call α)
    {e : GraphError} (h : call.answer (afterCalls { name } calls) = .error e) :
    let g := afterCalls { name } calls
    match call with
    | .boundBlocks =>
      ∃ id, g.IsStuck id ∧ (∀ i < id, ¬ g.IsStuck i) ∧ g.StopsAt id e (call.after g) ∧
        g.Extends (call.after g) ∧
        (call.after g = g ↔ Block.sourceName id ∈ g.register ∧
          ∀ i < id, ∀ b, g.blocks[i]? = some b → b.isBounded = true)
    | _ => call.after g = g := by
  intro g
  have hconsistent : g.Consistent := (Consistent.empty (α := α) name).afterCalls calls
  cases call with
  | boundBlocks =>
      have hresult : perform boundBlocks g = (.error e, Call.after g .boundBlocks) := Prod.ext h rfl
      rcases stopsAt_of_refused hconsistent hresult with ⟨id, hstuck, hbefore, hstops⟩
      exact ⟨id, hstuck, hbefore, hstops, hconsistent.extends_boundBlocks, hstops.eq_iff⟩
  | _ => exact after_of_refused h nofun

/-- An addition takes the name of the last supernode of its block. -/
def sinkTaken : List (Call Rat) :=
  [.addBlock "entry", .addOperationOfKind "ssink_0" .add 0]

/-- Bounding the block is refused, and leaves a supernode that the block has not
    recorded. -/
theorem exists_lone_supernode :
    let g := afterCalls { name := "taken" } sinkTaken
    Call.answer g .boundBlocks = .error (.nameTaken "ssink_0") ∧
      (Call.after g .boundBlocks).ops.map (·.name) = ["ssink_0", "ssrc_0"] ∧
      (Call.after g .boundBlocks).blocks.map (·.source) = [none] ∧
      Call.after g .boundBlocks ≠ g := by
  intro g
  refine ⟨rfl, rfl, rfl, fun heq => ?_⟩
  have hlength : (Call.after g .boundBlocks).ops.length = g.ops.length := by rw [heq]
  cases hlength

/-- Here the first block is stuck, and it is its second name that is taken. -/
theorem refused_calls_leave_sinkTaken :
    let g := afterCalls { name := "taken" } sinkTaken
    Call.answer g .boundBlocks = .error (.nameTaken "ssink_0") ∧
      ∃ id, g.IsStuck id ∧ g.StopsAt id (.nameTaken "ssink_0") (Call.after g .boundBlocks) ∧
        g.Extends (Call.after g .boundBlocks) := by
  intro g
  have hrefused : Call.answer g .boundBlocks = .error (.nameTaken "ssink_0") := rfl
  rcases refused_calls_leave "taken" sinkTaken .boundBlocks hrefused with
    ⟨id, hstuck, _, hstops, hextends, _⟩
  exact ⟨hrefused, id, hstuck, hstops, hextends⟩

end Graph

end CyclePlan
