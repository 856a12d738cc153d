import CyclePlan.Scalar.Basic

/-!
# Linear models

Mixed-integer linear programs, as a store of variables, constraints and one
objective.

Variables and constraints are added by name and kept by number. A constraint's
number is never given out again, so that one that has been removed stays
removed. Terms are merged when they are added: a constraint lists each of its
variables once, in the order of their numbers and without zero coefficients.

An assignment is a function from the numbers of variables to values, and terms
have a value under it.

## Main definitions

* `Variable`, `Constraint`, `Objective`, `Model`: The parts of a model.
* `ModelM`: Actions over a model.
* `Model.addVariable`, `Model.addConstraint`, `Model.removeConstraint`,
  `Model.setObjective`: The actions.
* `ModelError`: Why an action is refused.
* `Model.evaluate`: The value of terms under an assignment.
-/

namespace CyclePlan

/-- What values a variable may take. -/
inductive VariableKind where
  | continuous
  | integer
  | binary
  deriving DecidableEq, Repr

/-- A decision variable. -/
structure Variable (α : Type) where
  /-- The name, unique within a model. -/
  name : String
  kind : VariableKind
  lower : Option α
  upper : Option α

/-- Whether a variable takes whole values only. -/
def Variable.isIntegral {α : Type} (v : Variable α) : Bool := v.kind != .continuous

/-- How the two sides of a constraint compare. -/
inductive Relation where
  | eq
  | le
  | ge
  deriving DecidableEq, Repr

/-- Terms, a comparison and a constant. -/
structure Constraint (α : Type) where
  /-- The variables with their coefficients, in the order of the variables. -/
  terms : List (Nat × α)
  relation : Relation
  rhs : α

/-- Whether the objective is to be small or large. -/
inductive Direction where
  | minimize
  | maximize
  deriving DecidableEq, Repr

/-- What is to be optimised. -/
structure Objective (α : Type) where
  direction : Direction := .minimize
  /-- The variables with their coefficients, in the order of the variables. -/
  terms : List (Nat × α) := []

/-- A mixed-integer linear program. -/
structure Model (α : Type) where
  name : String := ""
  /-- The variables, in the order of their numbers. -/
  vars : List (Variable α) := []
  /-- No two variables have the same name. -/
  distinct : (vars.map (·.name)).Nodup := by exact List.nodup_nil
  /-- The constraints with their numbers, in ascending order. -/
  constraints : List (Nat × Constraint α) := []
  /-- The number of the next constraint, if it is not zero. -/
  nextConstraint : Nat := 0
  objective : Objective α := {}

/-- Why an action on a model is refused. -/
inductive ModelError (α : Type) where
  | duplicateVariable (name : String)
  | unknownVariable (name : String)
  | unknownConstraint (id : Nat)
  /-- No value lies within the bounds. -/
  | emptyBounds (name : String) (lower upper : α)
  /-- A number that has to be finite, or at least defined, is not. -/
  | nonFinite (name : String) (value : α)

/-- An action over a model. -/
abbrev ModelM (α : Type) := ExceptT (ModelError α) (StateM (Model α))

namespace Relation

/-- The text of a comparison. -/
def text : Relation → String
  | eq => "="
  | le => "<="
  | ge => ">="

/-- The comparison between the negated sides. -/
def swapped : Relation → Relation
  | eq => eq
  | le => ge
  | ge => le

end Relation

/-- The coefficient of a variable in terms, zero if it does not occur. -/
def coefficientIn {α : Type} [Scalar α] (terms : List (Nat × α)) (v : Nat) : α :=
  match terms.find? fun t => t.1 == v with
  | some t => t.2
  | none => 0

namespace Model

variable {α : Type} [Scalar α]

/-- The value of terms under an assignment. -/
def evaluate (terms : List (Nat × α)) (x : Nat → α) : α :=
  Scalar.sum (terms.map fun t => t.2 * x t.1)

/-- The value of the objective under an assignment. -/
def objectiveValue (m : Model α) (x : Nat → α) : α := evaluate m.objective.terms x

/-- The value of the objective under listed values, if no value is missing. -/
def objectiveOf? (m : Model α) (values : List α) : Option α :=
  if m.objective.terms.all fun t => t.1 < values.length then
    some (m.objectiveValue fun v => values.getD v 0)
  else none

/-- A model without variables, constraints and objective. -/
def named (name : String) : Model α := { name, nextConstraint := 1 }

/-- The number of a variable. -/
def variableId? (m : Model α) (name : String) : Option Nat :=
  m.vars.findIdx? fun v => v.name == name

/-- The constraint with a number. -/
def constraint? (m : Model α) (id : Nat) : Option (Constraint α) :=
  (m.constraints.find? fun c => c.1 == id).map (·.2)

/-- The model with one more variable, whose name is not taken. -/
def withVariable (m : Model α) (v : Variable α) (fresh : m.variableId? v.name = none) :
    Model α where
  name := m.name
  vars := m.vars ++ [v]
  distinct := by
    rw [List.map_append, List.nodup_append]
    refine ⟨m.distinct, by simp, fun a ha b hb => ?_⟩
    rcases List.mem_map.mp ha with ⟨w, hw, rfl⟩
    rw [List.mem_singleton.mp hb]
    have hne := List.findIdx?_eq_none_iff.mp fresh w hw
    simpa using hne
  constraints := m.constraints
  nextConstraint := m.nextConstraint
  objective := m.objective

/-- Why bounds are refused: one is undefined, or they exclude each other. -/
def boundsError? (name : String) (lower upper : Option α) : Option (ModelError α) :=
  match (lower.toList ++ upper.toList).find? Scalar.isNaN with
  | some bound => some (.nonFinite name bound)
  | none =>
    match lower, upper with
    | some l, some u => if u < l then some (.emptyBounds name l u) else none
    | _, _ => none

/-- A variable of a kind. A binary one lies between zero and one whatever bounds
    are given. -/
def variableOf (name : String) (lower upper : Option α) : VariableKind → Variable α
  | .binary => { name, kind := .binary, lower := some 0, upper := some 1 }
  | kind => { name, kind, lower, upper }

/-- Adds a variable and answers its number. -/
def addVariable (name : String) (lower upper : Option α) (kind : VariableKind) :
    ModelM α Nat := do
  let m ← get
  let v := variableOf name lower upper kind
  if fresh : m.variableId? v.name = none then
    match boundsError? v.name v.lower v.upper with
    | some e => throw e
    | none =>
      set (m.withVariable v fresh)
      return m.vars.length
  else
    throw (.duplicateVariable name)

/-- Adds a coefficient to the terms of a variable, in the order of the
    variables. -/
def addTerm (v : Nat) (c : α) : List (Nat × α) → List (Nat × α)
  | [] => [(v, c)]
  | (w, d) :: rest =>
    if w = v then (w, d + c) :: rest
    else if v < w then (v, c) :: (w, d) :: rest
    else (w, d) :: addTerm v c rest

/-- Adds a named term to terms that are given by number. -/
def collectTerm (m : Model α) (terms : List (Nat × α)) (t : String × α) :
    Except (ModelError α) (List (Nat × α)) :=
  match m.variableId? t.1 with
  | none => .error (.unknownVariable t.1)
  | some v =>
    if Scalar.isFinite t.2 then .ok (addTerm v t.2 terms) else .error (.nonFinite t.1 t.2)

/-- The terms that named terms stand for, one per variable and without zero
    coefficients. -/
def collect (m : Model α) (named : List (String × α)) :
    Except (ModelError α) (List (Nat × α)) := do
  let merged ← named.foldlM m.collectTerm []
  return merged.filter fun t => t.2 != 0

/-- The terms that named terms stand for, as an action. -/
def collected (named : List (String × α)) : ModelM α (List (Nat × α)) := do
  match (← get).collect named with
  | .ok terms => return terms
  | .error e => throw e

/-- Adds a constraint and answers its number. -/
def addConstraint (named : List (String × α)) (relation : Relation) (rhs : α) :
    ModelM α Nat := do
  if !Scalar.isFinite rhs then
    throw (.nonFinite "rhs" rhs)
  let terms ← collected named
  let m ← get
  let id := max m.nextConstraint 1
  let c : Constraint α := { terms, relation, rhs }
  set { m with constraints := m.constraints ++ [(id, c)], nextConstraint := id + 1 }
  return id

/-- Removes a constraint and answers it. -/
def removeConstraint (id : Nat) : ModelM α (Constraint α) := do
  let m ← get
  match m.constraint? id with
  | none => throw (.unknownConstraint id)
  | some c =>
    set { m with constraints := m.constraints.filter fun c => c.1 != id }
    return c

/-- Replaces the objective. -/
def setObjective (named : List (String × α)) (direction : Direction) : ModelM α Unit := do
  let terms ← collected named
  modify fun m => { m with objective := { direction, terms } }

end Model

/-- The wording of a refusal. -/
def ModelError.message {α : Type} [Scalar α] : ModelError α → String
  | duplicateVariable name => s!"variable '{name}' already exists"
  | unknownVariable name => s!"variable '{name}' does not exist"
  | unknownConstraint id => s!"constraint c{id} does not exist"
  | emptyBounds name lower upper =>
    s!"variable '{name}' has empty bounds [" ++ Scalar.text lower ++ ", " ++ Scalar.text upper
      ++ "]"
  | nonFinite name value => "non-finite coefficient " ++ Scalar.text value ++ s!" for '{name}'"

end CyclePlan
