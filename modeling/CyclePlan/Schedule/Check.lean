import CyclePlan.Resource.Limits
import CyclePlan.Schedule.Reservation

/-!
# Checking schedules

Checking a finished schedule against the graph and the resource limits, with
no model involved.

A forward dependency holds if the consumer starts no earlier than the
producer's latency after it. A loop-carried one has the initiation interval to
spare. Operations without a start cycle are passed over. Without overlap, the
operations of one class that start in the same cycle of the same block must
not outnumber the capacity; with overlap, those in the same column of the
reservation table must not.

## Main definitions

* `Schedule.slack?`: What a dependency has to spare.
* `Schedule.checkDependencies`: The dependencies that do not hold.
* `IssueSlot`: A cycle of a block, for one class.
* `Schedule.checkIssue`: The slots with too many operations.
* `Schedule.checkColumns`: The columns with too many operations.
-/

namespace CyclePlan

/-- A cycle of a block, for one class of units. -/
structure IssueSlot where
  block : Nat
  cycle : Int
  unit : String
  deriving DecidableEq, Repr

/-- Slots by block, then cycle, then class. -/
def IssueSlot.precedes (a b : IssueSlot) : Bool :=
  a.block < b.block ||
    (a.block == b.block &&
      (a.cycle < b.cycle || (a.cycle == b.cycle && (a.unit < b.unit || a.unit == b.unit))))

namespace Schedule

variable {α : Type} [Scalar α] (s : Schedule α)

/-- What a dependency from `u` to `v` has to spare, if both are scheduled and,
    for a loop-carried one, the schedule has an interval. -/
def slack? (backEdge : Bool) (u v : Operation α) : Option α := do
  let cu ← s.cycle? u.name
  let cv ← s.cycle? v.name
  if backEdge then
    let interval ← s.interval
    return Scalar.ofInt (cv - cu + loopDistance * interval) - u.latency
  else return Scalar.ofInt (cv - cu) - u.latency

/-- The violation of a dependency that lacks cycles. -/
def dependencyViolation (backEdge : Bool) (u v : Operation α) (slack : α) : Violation :=
  let lacking := Scalar.text (Scalar.ceil (-slack))
  if backEdge then
    ⟨.interval, v.name,
      "loop-carried dependency " ++ s!"{u.name} -> {v.name} short by {lacking} cycle(s)"⟩
  else ⟨.dependency, v.name, s!"dependency {u.name} -> {v.name} short by {lacking} cycle(s)"⟩

/-- The violation of one dependency of a graph, if it does not hold. -/
def checkDependency (g : Graph α) (e : Dependency) : Except GraphError (Option Violation) := do
  let some u := g.node? e.source | throw (.noSuchNode e.source)
  let some v := g.node? e.target | throw (.noSuchNode e.target)
  match s.slack? e.backEdge u v with
  | some slack => return if slack < 0 then some (dependencyViolation e.backEdge u v slack) else none
  | none => return none

/-- The dependencies that do not hold, in the order of the edges. -/
def checkDependencies (g : Graph α) : Except GraphError (List Violation) := do
  let found ← g.edges.mapM (s.checkDependency g)
  return found.filterMap id

/-- The slot that an operation is issued in, if it needs a unit and is
    scheduled. -/
def slotOf? (op : Operation α) : Option IssueSlot := do
  let unit ← op.kind.unit?
  let cycle ← s.cycle? op.name
  return ⟨op.block, cycle, unit⟩

/-- The slots in use, in ascending order. -/
def slots (g : Graph α) : List IssueSlot :=
  (g.ops.filterMap s.slotOf?).eraseDups.mergeSort IssueSlot.precedes

/-- The operations issued in a slot. -/
def issuedIn (g : Graph α) (slot : IssueSlot) : List String :=
  (g.ops.filter fun op => s.slotOf? op == some slot).map (·.name)

/-- The slots in which more operations are issued than the capacity allows. -/
def checkIssue (g : Graph α) (limits : Limits) : List Violation :=
  (s.slots g).filterMap fun slot => do
    let capacity ← limits.capacity? slot.unit
    let nodes := s.issuedIn g slot
    let names := ", ".intercalate nodes
    if capacity < nodes.length then
      some ⟨.capacity, slot.unit,
        s!"{nodes.length} {slot.unit} op(s) issued in cycle {slot.cycle} of block {slot.block}, "
          ++ s!"capacity {capacity}: {names}"⟩
    else none

/-- The columns in which more operations are issued than the capacity allows. -/
def checkColumns (g : Graph α) (limits : Limits) (interval : Int) : List Violation :=
  let table := ReservationTable.ofSchedule g s interval
  limits.toList.flatMap fun (unit, capacity) =>
    (List.range table.interval).filterMap fun column =>
      let n := table.occupancy column unit
      if capacity < n then
        some ⟨.moduloCapacity, unit,
          s!"{n} {unit} op(s) in MRT column {column} (II={interval}), capacity {capacity}"⟩
      else none

end Schedule

end CyclePlan
