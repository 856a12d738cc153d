import CyclePlan.Resource.Trial

/-!
# Limits by cycle

Keeping within capacities with a variable for every operation and cycle.

For each operation of a limited class and each cycle up to a horizon, a binary
variable says that the operation starts there. Exactly one of them is one, the
timing variable agrees with it, and in every block, class and cycle no more of
them are one than the capacity allows. Within the horizon nothing is lost.

A horizon that is not given is derived for each block from a solution without
limits: the start cycle of the block's last node, and one more cycle for every
operation of a limited class anywhere, because start cycles are absolute and
every earlier block may be stretched.

## Main definitions

* `startsAtVar`: The name of a binary variable.
* `blockHorizons`: The horizon of each block.
* `addTimeIndexed`: Adds the formulation.
* `Formulation`, `addResources`: The two ways to keep within capacities.
-/

namespace CyclePlan

/-- The name of the variable that says that a node starts in a cycle. -/
def startsAtVar (node : String) (cycle : Nat) : String := s!"x_{node}_{cycle}"

namespace View

variable {α : Type}

/-- The number of operations of limited classes. -/
def limitedCount (v : View α) (limits : Limits) : Nat :=
  v.nodes.countP fun n => (limits.capacityOf? n.kind).isSome

/-- The names of the operations of a class in a block. -/
def unitNodes (v : View α) (block : Nat) (unit : String) : List String :=
  (v.nodes.filter fun n => n.block == block && n.kind.unit? == some unit).map (·.name)

end View

variable {α : Type} [Scalar α]

/-- The horizon of a block that is derived from a solution. -/
def derivedHorizon (h : Handle α) (limits : Limits) (block : Nat) :
    Except (SchedulingError α) Int := do
  let some sink := h.view.sinkOf? block | throw (.blockWithoutSink block)
  let some delay := h.cycle? sink.name | throw (.precondition .addResources .noHorizon)
  return delay + h.view.limitedCount limits

/-- The horizon of each block, in the order of the blocks. A negative one counts
    as zero. -/
def blockHorizons (h : Handle α) (limits : Limits) (explicit : Option Int) :
    Except (SchedulingError α) (List (Nat × Nat)) :=
  h.view.blocks.mapM fun block => do
    let horizon ←
      match explicit with
      | some horizon => Except.ok horizon
      | none => derivedHorizon h limits block
    return (block, horizon.toNat)

/-- Adds the variables of a node, and ties them to each other and to the timing
    variable. -/
def addActivations (horizon : Nat) (node : String) : TrialM α Unit := do
  let cycles := List.range (horizon + 1)
  cycles.forM fun t => do
    let _ ← TrialM.onModel (Model.addVariable (startsAtVar node t) none none .binary)
  TrialM.constrain (cycles.map fun t => (startsAtVar node t, 1)) .eq 1
  TrialM.constrain
    ((startVar node, 1) :: cycles.map fun t => (startsAtVar node t, -Scalar.ofInt t)) .eq 0

/-- Adds the variables and constraints of one block and class. -/
def addUnitCycles (block horizon : Nat) (unit : String) (capacity : Nat) : TrialM α Unit := do
  let nodes := (← get).handle.view.unitNodes block unit
  unless nodes.isEmpty do
    nodes.forM (addActivations horizon)
    (List.range (horizon + 1)).forM fun t =>
      TrialM.constrain (nodes.map fun n => (startsAtVar n t, 1)) .le (Scalar.ofInt capacity)

/-- Adds the formulation and answers the numbers of its constraints. If it is
    refused, the constraints are taken back; variables stay, in no
    constraint. -/
def addTimeIndexed (limits : Limits) (explicit : Option Int) : HandleM α (List Nat) := do
  let h ← get
  match blockHorizons h limits explicit with
  | .error e => throw e
  | .ok hs =>
    let build : TrialM α Unit :=
      hs.forM fun (block, horizon) =>
        limits.toList.forM fun (unit, capacity) => addUnitCycles block horizon unit capacity
    let (_, added) ← build.attempt
    return added

/-- How limits are expressed when iterations do not overlap. -/
inductive Formulation where
  /-- By an order of execution. -/
  | ordering
  /-- By a variable for every operation and cycle, up to a horizon. -/
  | timeIndexed (horizon : Option Int)
  deriving DecidableEq, Repr

/-- Adds the constraints of limits and answers their numbers. -/
def addResources (limits : Limits) : Formulation → HandleM α (List Nat)
  | .ordering => addOrdering limits
  | .timeIndexed horizon => addTimeIndexed limits horizon

end CyclePlan
