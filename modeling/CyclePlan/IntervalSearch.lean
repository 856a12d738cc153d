import CyclePlan.Resource.Pinning
import CyclePlan.Schedule.Check

/-!
# Searching for an initiation interval

The least interval at which a loop can be pipelined.

Intervals are tried from one upwards, each with an engine of its own, and the
first that works is taken. An interval works if its model has an assignment
and, when resources are limited, if pinning succeeds and the schedule that
comes out passes the check. That an interval does not work is recorded; only
a defect of the graph or the end of the range ends the search without a
result.

## Main definitions

* `IntervalVerdict`, `Attempt`: What became of an interval.
* `IntervalSearch`: What to search for.
* `IntervalSearch.attempt`: Tries one interval.
* `IntervalSearch.run`: The search.
-/

namespace CyclePlan

/-- What became of an interval. -/
inductive IntervalVerdict where
  /-- It works. -/
  | scheduled
  /-- Its model has no assignment. -/
  | infeasible
  | solverFailed (reason : String)
  /-- There is a schedule, but none within the limits was found. -/
  | resourcesRejected (reason : String)
  deriving DecidableEq, Repr

/-- An interval that was tried. -/
structure Attempt where
  interval : Int
  /-- What became of it. -/
  outcome : IntervalVerdict
  deriving DecidableEq, Repr

/-- A successful search. -/
structure FoundInterval (α : Type) where
  interval : Int
  engine : Engine α
  /-- All intervals that were tried, in order. -/
  attempts : List Attempt

/-- What to search for. -/
structure IntervalSearch (α : Type) where
  maxInterval : Int := 40
  /-- The limits, if resources are limited. -/
  limits : Option Limits := none
  /-- How long pinning goes on at each interval. -/
  budget : PinningBudget := {}
  /-- Whether forward dependencies between blocks are left out. -/
  sameBlockOnly : Bool := true
  solver : Solver α

namespace IntervalSearch

variable {α : Type} [Scalar α] (s : IntervalSearch α)

omit [Scalar α] in
/-- The engine that an interval is tried with. -/
def engine (interval : Int) : Engine α :=
  { discipline := .pipelined (.fixed interval)
    solver := s.solver
    sameBlockOnly := s.sameBlockOnly }

/-- Brings a solved engine within limits, solves it again and checks the
    schedule. -/
def attemptWithin (limits : Limits) (g : Graph α) (interval : Int) : EngineM α IntervalVerdict := do
  let pinned ← Engine.lend (pinToColumns limits interval s.budget).run
  match pinned with
  -- Giving up speaks about this interval only; any other refusal ends the search.
  | .error (.pinning cause) => return .resourcesRejected cause.text
  | .error e => throw e
  | .ok _ =>
    match ← Engine.solve with
    | .infeasible => return .infeasible
    | .failed reason => return .solverFailed reason
    | _ =>
      let schedule ← Engine.liftExcept (← get).schedule
      match schedule.checkColumns g limits interval with
      | violation :: _ => return .resourcesRejected violation.message
      | [] => return .scheduled

/-- Tries one interval. -/
def attempt (g : Graph α) (interval : Int) : EngineM α IntervalVerdict := do
  Engine.load g
  Engine.build
  match ← Engine.solve with
  | .infeasible => return .infeasible
  | .failed reason => return .solverFailed reason
  | _ =>
    match s.limits with
    | none => return .scheduled
    | some limits => s.attemptWithin limits g interval

/-- Tries `count` intervals from one on, after the given attempts. -/
def runFrom (g : Graph α) : (count : Nat) → (interval : Int) → List Attempt →
    Except (SchedulingError α) (FoundInterval α)
  | 0, _, _ => .error (.intervalsExhausted s.maxInterval)
  | count + 1, interval, attempts =>
    let (answer, engine) := Id.run ((s.attempt g interval).run.run (s.engine interval))
    match answer with
    | .error e => .error e
    | .ok outcome =>
      let attempts := attempts ++ [⟨interval, outcome⟩]
      if outcome = .scheduled then .ok ⟨interval, engine, attempts⟩
      else runFrom g count (interval + 1) attempts

/-- Tries the intervals from one up to the greatest one. -/
def run (g : Graph α) : Except (SchedulingError α) (FoundInterval α) :=
  if s.maxInterval < 1 then .error (.config (.nothingToTry s.maxInterval))
  else s.runFrom g s.maxInterval.toNat 1 []

end IntervalSearch

end CyclePlan
