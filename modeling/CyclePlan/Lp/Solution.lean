import CyclePlan.Lp.Model
import CyclePlan.NameMap

/-!
# Solutions

What a solver answers.

An answer is a status and, where the status says so, a value for every
variable, by name. The part of the library that builds models sees nothing
else of a solver. A solver is a function of the model and of the number of
times it has been asked before, so a solver that changes its mind between two
calls is covered as well.

## Main definitions

* `SolverStatus`: The kind of an answer.
* `Solution`: An answer.
* `Solver`: A source of answers.
-/

namespace CyclePlan

/-- The kind of a solver's answer. -/
inductive SolverStatus where
  /-- An assignment that is proven optimal. -/
  | optimal
  /-- An assignment; the search stopped before it was proven optimal. -/
  | feasible
  | infeasible
  | unbounded
  | failed (reason : String)
  deriving DecidableEq, Repr

namespace SolverStatus

/-- Whether there is an assignment. -/
def hasAssignment : SolverStatus → Bool
  | optimal | feasible => true
  | _ => false

/-- The wording of a status. -/
def text : SolverStatus → String
  | optimal => "optimal"
  | feasible => "feasible"
  | infeasible => "infeasible"
  | unbounded => "unbounded"
  | failed reason => s!"error: {reason}"

end SolverStatus

/-- A solver's answer. -/
structure Solution (α : Type) where
  status : SolverStatus
  /-- The values of the variables, by name. -/
  values : List (String × α) := []
  objective : Option α := none
  /-- The number of relaxations that were solved. -/
  nodes : Nat := 0

namespace Solution

variable {α : Type}

/-- The value of a variable. -/
def value? (s : Solution α) (name : String) : Option α := NameMap.find? name s.values

/-- The integer nearest to the value of a variable. -/
def int? [Scalar α] (s : Solution α) (name : String) : Option Int :=
  (s.value? name).map Scalar.roundInt

end Solution

/-- A source of answers: what is answered to a model by a solver that has been
    asked a number of times before. -/
abbrev Solver (α : Type) := Nat → Model α → Solution α

end CyclePlan
