import CyclePlan.Lp.Relaxation
import CyclePlan.Lp.Solution

/-!
# Branch and bound

Finding a best assignment whose integer variables are whole.

The search keeps boxes on a stack and solves the relaxation of the top one. A
relaxation that is worse than the best assignment found so far is dropped. One
whose integer variables are all whole becomes the best assignment. Otherwise
the first variable that is not whole splits the box, and the part below it is
searched first. When every objective coefficient is whole and belongs to an
integer variable, a better assignment is better by at least one, which prunes
more.

The search is written over any way to solve relaxations. It ends when the
stack is empty or the allowance of relaxations is used up, and says which.

## Main definitions

* `SearchConfig`: The allowance and the tolerance.
* `Relaxer`: A way to solve relaxations.
* `BranchAndBound.search`: The search.
* `BranchAndBound.solve`: The answer to a model.
* `builtInSolver`: The solver of every run.
-/

namespace CyclePlan

/-- How far a search goes. -/
structure SearchConfig (α : Type) where
  maxNodes : Nat
  /-- How far from whole a value may be, and how much better an assignment has
      to be. -/
  tolerance : α

/-- The configuration of a search that is given none. -/
def SearchConfig.standard {α : Type} [Scalar α] : SearchConfig α := ⟨100000, 1e-6⟩

/-- A way to solve the relaxation of a model within bounds. -/
abbrev Relaxer (α : Type) := Model α → Box α → Relaxation α

namespace BranchAndBound

variable {α : Type} [Scalar α]

/-- A found assignment. -/
structure Incumbent (α : Type) where
  values : List α
  /-- The objective value, to be made small. -/
  bound : α

/-- How a search ended. -/
inductive Verdict (α : Type) where
  /-- Every box was searched. -/
  | exhausted (best : Option (Incumbent α)) (nodes : Nat)
  /-- The allowance was used up before. -/
  | truncated (best : Option (Incumbent α)) (nodes : Nat)
  /-- The first relaxation has no bound. -/
  | unbounded (nodes : Nat)
  /-- A relaxation could not be solved. -/
  | stalled (nodes : Nat)

/-- One for a small objective, minus one for a large one. -/
@[specialize] def flip (m : Model α) : α :=
  match m.objective.direction with
  | .minimize => 1
  | .maximize => -1

/-- Whether every assignment with whole integer variables has a whole
    objective. -/
@[specialize] def hasIntegralObjective (m : Model α) : Bool :=
  m.objective.terms.all fun (v, c) =>
    ((m.vars[v]?).map (·.isIntegral)).getD false &&
      decide (Scalar.abs (c - Scalar.round c) < 1e-12)

/-- The bounds of a variable, moved to whole numbers if it is an integer. -/
@[specialize] def rootBounds (tolerance : α) (v : Variable α) : Bounds α :=
  if v.isIntegral then
    ⟨v.lower.map fun l => Scalar.ceil (l - tolerance),
     v.upper.map fun u => Scalar.floor (u + tolerance)⟩
  else ⟨v.lower, v.upper⟩

/-- The box that a search starts with. -/
@[specialize] def rootBox (tolerance : α) (m : Model α) : Box α :=
  m.vars.map (rootBounds tolerance)

/-- The first integer variable whose value is not whole. -/
@[specialize] def fractional? (tolerance : α) (m : Model α) (values : List α) :
    Option (Nat × α) :=
  (m.vars.zip values).zipIdx.findSome? fun ((v, x), j) =>
    if v.isIntegral ∧ tolerance < Scalar.abs (x - Scalar.round x) then some (j, x) else none

/-- The two parts of a box in which a variable is at most and at least given
    values. -/
@[specialize] def split (box : Box α) (j : Nat) (x : α) : Box α × Box α :=
  let floor := Scalar.floor x
  (box.modify j fun b => { b with upper := some floor },
   box.modify j fun b => { b with lower := some (floor + 1) })

/-- Whether a bound is no improvement of the best assignment found so far. -/
@[specialize] def isPruned (margin : α) (best : Option (Incumbent α)) (bound : α) : Bool :=
  match best with
  | none => false
  | some best => best.bound - margin < bound

/-- Searches the boxes on a stack. `allowance` relaxations may still be solved,
    and `nodes` have been. -/
@[specialize] def search (relax : Relaxer α) (tolerance margin : α) (m : Model α) :
    (allowance : Nat) → (nodes : Nat) → Option (Incumbent α) → List (Box α) → Verdict α
  | _, nodes, best, [] => .exhausted best nodes
  | 0, nodes, best, _ :: _ => .truncated best nodes
  | allowance + 1, nodes, best, box :: stack =>
    match relax m box with
    | .infeasible => search relax tolerance margin m allowance (nodes + 1) best stack
    | .stalled => .stalled (nodes + 1)
    | .unbounded =>
      -- Only the first box holds every point of the model.
      if nodes = 0 then .unbounded 1
      else search relax tolerance margin m allowance (nodes + 1) best stack
    | .optimal values objective =>
      let bound := flip m * objective
      if isPruned margin best bound then
        search relax tolerance margin m allowance (nodes + 1) best stack
      else
        match fractional? tolerance m values with
        | none => search relax tolerance margin m allowance (nodes + 1) (some ⟨values, bound⟩) stack
        | some (j, x) =>
          -- The part below goes on top, so that it is searched first.
          let (below, above) := split box j x
          search relax tolerance margin m allowance (nodes + 1) best (below :: above :: stack)

/-- The solution that an assignment gives, with integer variables rounded. -/
@[specialize] def solutionOf (m : Model α) (status : SolverStatus) (nodes : Nat)
    (best : Incumbent α) : Solution α :=
  let values := (m.vars.zip best.values).map fun (v, x) =>
    if v.isIntegral then Scalar.round x else x
  { status
    values := (m.vars.zip values).map fun (v, x) => (v.name, x)
    objective := some (m.objectiveValue fun v => values.getD v 0)
    nodes }

/-- The answer to a model. -/
@[specialize] def solve (relax : Relaxer α) (config : SearchConfig α) (m : Model α) :
    Solution α :=
  let margin := if hasIntegralObjective m then 1 - config.tolerance else config.tolerance
  let root := rootBox config.tolerance m
  match search relax config.tolerance margin m config.maxNodes 0 none [root] with
  | .exhausted (some best) nodes => solutionOf m .optimal nodes best
  | .truncated (some best) nodes => solutionOf m .feasible nodes best
  | .exhausted none nodes => { status := .infeasible, nodes }
  | .truncated none nodes =>
    let limit := config.maxNodes
    { status := .failed s!"node limit {limit} reached without an integral solution", nodes }
  | .unbounded nodes => { status := .unbounded, nodes }
  | .stalled nodes => { status := .failed "simplex pivot limit reached", nodes }

end BranchAndBound

/-- The solver of every run: branch and bound over the simplex method. -/
@[specialize] def builtInSolver {α : Type} [Scalar α] (config : SearchConfig α) : Solver α :=
  fun _ m => BranchAndBound.solve (Model.relax .standard pivotLimit) config m

end CyclePlan
