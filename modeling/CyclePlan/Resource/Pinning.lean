import CyclePlan.Resource.Trial
import CyclePlan.Schedule.Reservation

/-!
# Limits by pinning

Keeping within capacities when iterations overlap.

The start cycles of a solved model are taken as a proposal. Class by class,
and in an order that follows the dependencies, each operation is looked at. If
its column of the reservation table has room beside the operations that are
already placed, it is pinned to its cycle. If not, it is pushed one cycle
later, the model is solved again, and the same operation is looked at again.

Every look costs one pass of a budget that all classes share. The procedure is
given up when the budget is used up, when an operation would have to start too
late, or when a push leaves no assignment. Whatever it added is then taken
back.

## Main definitions

* `PinningBudget`: How long to go on.
* `PinningReport`: What was done.
* `Progress`: The operations placed so far, and the counts.
* `place`: Places the operations of one class.
* `pinToColumns`: Places the operations of all limited classes.
-/

namespace CyclePlan

/-- How long pinning goes on. -/
structure PinningBudget where
  /-- The passes that all classes share. -/
  iterations : Nat := 1000
  /-- The latest cycle that an operation may be pushed to. -/
  maxLatency : Int := 1000
  deriving DecidableEq, Repr

/-- What pinning did, if it succeeded. -/
structure PinningReport where
  passes : Nat
  pinned : Nat
  /-- The pushes, each followed by a solve. -/
  pushes : Nat
  constraints : List Nat
  deriving DecidableEq, Repr

/-- The operations placed so far, and what it took. -/
structure Progress where
  remaining : Nat
  /-- The operations placed for good. -/
  placed : List String := []
  pushes : Nat := 0
  deriving DecidableEq, Repr

namespace View

/-- The names of the operations of a class, in an order that follows the
    dependencies. -/
def unitQueue {α : Type} (v : View α) (unit : String) : List String :=
  (v.orderedNodes.filter fun n => n.kind.unit? == some unit).map (·.name)

end View

variable {α : Type} [Scalar α]

/-- Gives pinning up. -/
def giveUp {β : Type} (cause : PinningFailure) : TrialM α β := throw (.pinning cause)

/-- Pushes an operation to a cycle and solves again. -/
def push (budget : PinningBudget) (node : String) (target : Int) : TrialM α Unit := do
  if budget.maxLatency < target then
    giveUp (.latencyBoundExceeded node target budget.maxLatency)
  TrialM.constrain [(startVar node, 1)] .ge (Scalar.ofInt target)
  modify fun t => { t with handle := t.handle.solve }
  unless (← get).handle.hasAssignment do
    giveUp (.infeasible node target)

/-- Whether an operation fits into its column beside those placed. -/
def fits (h : Handle α) (interval : Int) (unit : String) (capacity : Nat) (placed : List String)
    (node : String) (cycle : Int) : Bool :=
  (ReservationTable.ofView h.view h.cycle? interval).hasRoom node unit cycle capacity placed

/-- Places the operations of one class, the first of the queue first, with
    `remaining` passes left. -/
def place (budget : PinningBudget) (interval : Int) (unit : String) (capacity : Nat) :
    (remaining : Nat) → (placed : List String) → (pushes : Nat) → (queue : List String) →
    TrialM α Progress
  | remaining, placed, pushes, [] => return ⟨remaining, placed, pushes⟩
  | 0, _, _, node :: queue =>
    giveUp (.budgetExhausted budget.iterations (node :: queue).length)
  | remaining + 1, placed, pushes, node :: queue => do
    let h := (← get).handle
    match h.cycle? node with
    | none => giveUp .unsolved
    | some cycle =>
      if fits h interval unit capacity placed node cycle then
        TrialM.constrain [(startVar node, 1)] .eq (Scalar.ofInt cycle)
        place budget interval unit capacity remaining (node :: placed) pushes queue
      else
        -- The operation keeps its place at the head of the queue.
        push budget node (cycle + 1)
        place budget interval unit capacity remaining placed (pushes + 1) (node :: queue)

/-- Places the operations of all limited classes, class by class. -/
def placeAll (budget : PinningBudget) (interval : Int) (v : View α) :
    List (String × Nat) → Progress → TrialM α Progress
  | [], p => return p
  | (unit, capacity) :: rest, p => do
    let p ← place budget interval unit capacity p.remaining p.placed p.pushes (v.unitQueue unit)
    placeAll budget interval v rest p

/-- Brings a solved model within limits. If it is given up, the constraints are
    taken back and the solution is put back. -/
def pinToColumns (limits : Limits) (interval : Int) (budget : PinningBudget) :
    HandleM α PinningReport := do
  let h ← get
  if !h.hasAssignment then
    throw (.pinning .unsolved)
  let start : Progress := { remaining := budget.iterations }
  let (p, added) ← (placeAll budget interval h.view limits.toList start : TrialM α _).attempt
  return {
    passes := budget.iterations - p.remaining
    pinned := p.placed.length
    pushes := p.pushes
    constraints := added }

end CyclePlan
