import CyclePlan.NameMap
import CyclePlan.Scalar.Basic

/-!
# Schedules

The result of a scheduling run.

A schedule gives every scheduled operation its start cycle, by name, and
carries the outcome of the run that produced it. That no schedule exists is an
outcome like any other and not an error. Checks add what they find to the
schedule as violations instead of failing.

## Main definitions

* `Outcome`: How a run ended.
* `Violation`: A broken rule.
* `Schedule`: Start cycles with an outcome.
-/

namespace CyclePlan

/-- How a run ended. -/
inductive Outcome where
  /-- With an assignment that is proven optimal. -/
  | optimal
  /-- With an assignment; the search stopped before it was proven optimal. -/
  | feasible
  | infeasible
  | failed (reason : String)
  deriving DecidableEq, Repr

namespace Outcome

/-- Whether there is an assignment. -/
def hasAssignment : Outcome → Bool
  | optimal | feasible => true
  | _ => false

/-- The wording of an outcome. -/
def text : Outcome → String
  | optimal => "optimal"
  | feasible => "feasible"
  | infeasible => "infeasible"
  | failed reason => s!"failed ({reason})"

end Outcome

/-- The rules that a schedule can break. -/
inductive ViolationKind where
  /-- A consumer starts before its producer is done. -/
  | dependency
  /-- A loop-carried dependency does not hold at the initiation interval. -/
  | interval
  /-- Too many operations of a class start in one cycle. -/
  | capacity
  /-- Too many operations of a class share a column of the reservation table. -/
  | moduloCapacity
  deriving DecidableEq, Repr

/-- A broken rule. -/
structure Violation where
  kind : ViolationKind
  /-- The operation or the class of units concerned. -/
  entity : String
  message : String
  deriving DecidableEq, Repr

/-- Start cycles of operations, with the outcome of the run. -/
structure Schedule (α : Type) where
  outcome : Outcome := .infeasible
  /-- The start cycle of every scheduled operation. -/
  cycles : NameMap Int := .empty
  /-- The initiation interval, if iterations overlap. -/
  interval : Option Int := none
  /-- The objective value that the solver reported. -/
  objective : Option α := none
  violations : List Violation := []

namespace Schedule

variable {α : Type} (s : Schedule α)

/-- The start cycle of an operation. -/
def cycle? (name : String) : Option Int := s.cycles.get? name

/-- Whether there is an assignment. -/
def isFeasible : Bool := s.outcome.hasAssignment

/-- The greatest of some numbers, zero if there are none. -/
def greatest : List Int → Int
  | [] => 0
  | n :: rest => rest.foldl max n

/-- The latest start cycle, zero if nothing is scheduled. -/
def lastCycle : Int := greatest s.cycles.values

/-- The operations that start in a cycle, by name. -/
def startingAt (cycle : Int) : List String :=
  (s.cycles.entries.filter fun e => e.2 == cycle).map (·.1)

/-- Adds what a check has found. -/
def addViolations (vs : List Violation) : Schedule α :=
  { s with violations := s.violations ++ vs }

/-- Whether no check has found anything. -/
def isClean : Bool := s.violations.isEmpty

end Schedule

end CyclePlan
