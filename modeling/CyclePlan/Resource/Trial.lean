import CyclePlan.Resource.Ordering

/-!
# Trials

Adding constraints that are taken back when something goes wrong.

A trial records the number of every constraint it adds. If it is refused, the
recorded constraints are removed again, the last one first, and the borrower's
copy of the solution is put back. Numbers of constraints that were given out
stay given out, and variables stay.

Removing a constraint can be refused too. The trial is then left halfway taken
back, with the refusal of the removal as its answer.

## Main definitions

* `Trial`: A borrower with the constraints added so far.
* `TrialM`: Actions of a trial.
* `TrialM.constrain`: Adds a constraint and records it.
* `HandleM.takeBack`: Removes what was recorded.
* `TrialM.attempt`: Runs a trial and takes it back if it is refused.
-/

namespace CyclePlan

/-- A borrower with the constraints added so far. -/
structure Trial (α : Type) where
  handle : Handle α
  /-- The numbers of the constraints added, in order. -/
  added : List Nat := []

/-- An action of a trial that may be refused. -/
abbrev TrialM (α : Type) := ExceptT (SchedulingError α) (StateM (Trial α))

/-- Removes the constraints with the given numbers, one after the other. -/
def HandleM.takeBack {α : Type} (ids : List Nat) : HandleM α Unit :=
  ids.forM fun id => do
    let _ ← HandleM.onModel (Model.removeConstraint id)

namespace TrialM

variable {α : Type}

/-- A step of the model as part of a trial. -/
def onModel {β : Type} (act : ModelM α β) : TrialM α β := do
  let t ← get
  let (answer, handle) := Id.run ((HandleM.onModel act).run.run t.handle)
  set { t with handle }
  match answer with
  | .ok b => return b
  | .error e => throw e

/-- Adds a constraint and records it. -/
def constrain [Scalar α] (terms : List (String × α)) (relation : Relation) (rhs : α) :
    TrialM α Unit := do
  let id ← onModel (Model.addConstraint terms relation rhs)
  modify fun t => { t with added := t.added ++ [id] }

/-- Runs a trial and answers the constraints it added. If it is refused, they
    are removed and the solution is put back. -/
def attempt {β : Type} (act : TrialM α β) : HandleM α (β × List Nat) := do
  let h ← get
  let (answer, t) := Id.run (act.run.run { handle := h })
  set t.handle
  match answer with
  | .ok b => return (b, t.added)
  | .error e =>
    HandleM.takeBack t.added.reverse
    modify fun taken => { taken with solution := h.solution }
    throw e

end TrialM

end CyclePlan
