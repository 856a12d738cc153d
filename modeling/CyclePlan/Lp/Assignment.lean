import CyclePlan.Lp.Solution

/-!
# Assignments

What it means that numbers satisfy a model.

An assignment gives every variable a value, by number. It is a point of a
model if it keeps within the bounds of every variable and meets every
constraint, and it is integral if the integer variables have whole values.
None of this mentions how a model is solved; every way to solve one, and every
way to build one, is measured against it.

A solution names its values instead of numbering them. It carries an
assignment if it has the value of every variable of the model under the
variable's name. A solver is sound if what it calls a solution carries an
integral point. Soundness leaves room for values under other names; a solver
that gives none keeps to the variables. A solver is exact if it finds an
optimum wherever there is one and denies integral points exactly where there
are none.

## Main definitions

* `Relation.Holds`, `Variable.Admits`, `Constraint.Holds`: The parts.
* `Model.IsPoint`: An assignment satisfies a model.
* `Model.IsIntegral`: Integer variables have whole values.
* `Model.IsOptimum`: No integral point is better.
* `Solution.Carries`: A solution gives an assignment.
* `Solver.Sound`: Solutions carry integral points.
* `Solver.KeepsToVariables`: Solutions have no values under other names.
* `Solver.Exact`: Optima are found, and points are denied where there are none.
-/

namespace CyclePlan

variable {α : Type} [Scalar α]

/-- Two sides compare as stated. -/
def Relation.Holds (r : Relation) (left right : α) : Prop :=
  match r with
  | eq => left = right
  | le => left ≤ right
  | ge => right ≤ left

/-- A value lies within the bounds of a variable. -/
structure Variable.Admits (v : Variable α) (value : α) : Prop where
  above : ∀ l ∈ v.lower, l ≤ value
  below : ∀ u ∈ v.upper, value ≤ u

/-- An assignment meets a constraint. -/
def Constraint.Holds (c : Constraint α) (x : Nat → α) : Prop :=
  c.relation.Holds (Model.evaluate c.terms x) c.rhs

namespace Model

variable (m : Model α)

/-- An assignment keeps within all bounds and meets all constraints. -/
structure IsPoint (x : Nat → α) : Prop where
  admits : ∀ (i : Nat) (v : Variable α), m.vars[i]? = some v → v.Admits (x i)
  meets : ∀ c ∈ m.constraints, c.2.Holds x

/-- The integer variables have whole values. -/
def IsIntegral (x : Nat → α) : Prop :=
  ∀ (i : Nat) (v : Variable α), m.vars[i]? = some v → v.isIntegral = true →
    ∃ n : Int, x i = Scalar.ofInt n

/-- An integral point than which no other one has a better objective value. -/
structure IsOptimum (x : Nat → α) : Prop where
  point : m.IsPoint x
  integral : m.IsIntegral x
  /-- Every other integral point has an objective value that is as large when it
      is to be small, and as small when it is to be large. -/
  best : ∀ y, m.IsPoint y → m.IsIntegral y →
    match m.objective.direction with
    | .minimize => m.objectiveValue x ≤ m.objectiveValue y
    | .maximize => m.objectiveValue y ≤ m.objectiveValue x

end Model

omit [Scalar α] in
/-- A solution gives every variable of a model the value of an assignment. -/
def Solution.Carries (s : Solution α) (m : Model α) (x : Nat → α) : Prop :=
  ∀ (i : Nat) (v : Variable α), m.vars[i]? = some v → s.value? v.name = some (x i)

/-- What a solver calls a solution carries an integral point, whatever it was
    asked before. -/
def Solver.Sound (solver : Solver α) : Prop :=
  ∀ asked m, (solver asked m).status.hasAssignment = true →
    ∃ x, (solver asked m).Carries m x ∧ m.IsPoint x ∧ m.IsIntegral x

omit [Scalar α] in
/-- A solution has values under the names of variables only. -/
def Solver.KeepsToVariables (solver : Solver α) : Prop :=
  ∀ asked (m : Model α) name, ((solver asked m).value? name).isSome → ∃ v ∈ m.vars, v.name = name

/-- A solver that is right about every model, whatever it was asked before. -/
structure Solver.Exact (solver : Solver α) : Prop where
  /-- Where there is an optimum, the answer is one. -/
  optimal : ∀ asked m, (∃ x, m.IsOptimum x) →
    (solver asked m).status = .optimal ∧ ∃ x, (solver asked m).Carries m x ∧ m.IsOptimum x
  /-- Integral points are denied exactly where there are none. -/
  infeasible_iff : ∀ asked m,
    (solver asked m).status = .infeasible ↔ ¬ ∃ x, m.IsPoint x ∧ m.IsIntegral x

end CyclePlan
