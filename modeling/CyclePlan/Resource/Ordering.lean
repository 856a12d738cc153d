import CyclePlan.Engine.Basic
import CyclePlan.Resource.Limits

/-!
# Limits by ordering

Keeping within capacities by fixing an order of execution.

The operations of one class and one block are taken in an order that follows
the dependencies. With a capacity of `k`, every operation waits for the one
`k` places before it to finish. More than `k` operations in flight would
contain two with the same place modulo `k`, and of those one waits for the
other. The constraints need no new variables, but a schedule that takes the
operations in another order is lost.

## Main definitions

* `HandleM`: Actions of a borrower that may be refused.
* `waitingPairs`: Which operation waits for which.
* `addOrdering`: Adds the constraints.
-/

namespace CyclePlan

/-- An action of a borrower that may be refused. -/
abbrev HandleM (α : Type) := ExceptT (SchedulingError α) (StateM (Handle α))

namespace HandleM

/-- A step of the model as an action of a borrower. What it changed stays, even
    if it is refused. -/
def onModel {α β : Type} (act : ModelM α β) : HandleM α β := do
  let h ← get
  let (answer, model) := Id.run (act.run.run h.model)
  set { h with model }
  match answer with
  | .ok b => return b
  | .error e => throw (.lp e)

end HandleM

namespace View

variable {α : Type}

/-- The operations of a class in a block, in an order that follows the
    dependencies. -/
def orderedUnits (v : View α) (block : Nat) (unit : String) : List (View.Node α) :=
  v.orderedNodes.filter fun n => n.block == block && n.kind.unit? == some unit

end View

/-- Every item with the one `k` places further on. -/
def pairsAtDistance {β : Type} (k : Nat) (xs : List β) : List (β × β) := xs.zip (xs.drop k)

/-- The pairs of operations of which the second waits for the first. -/
def waitingPairs {α : Type} (v : View α) (limits : Limits) : List (View.Node α × View.Node α) :=
  v.blocks.flatMap fun block =>
    limits.toList.flatMap fun (unit, capacity) =>
      pairsAtDistance capacity (v.orderedUnits block unit)

/-- Adds the constraints of the order and answers their numbers. -/
def addOrdering {α : Type} [Scalar α] (limits : Limits) : HandleM α (List Nat) := do
  let h ← get
  (waitingPairs h.view limits).mapM fun (earlier, later) => do
    let terms : List (String × α) := [(startVar later.name, 1), (startVar earlier.name, -1)]
    HandleM.onModel (Model.addConstraint terms .ge earlier.latency)

end CyclePlan
