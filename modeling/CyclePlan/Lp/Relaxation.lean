import CyclePlan.Lp.Model
import CyclePlan.Lp.Tableau

/-!
# Relaxations

Solving a model within given bounds, whole values not asked for.

Every variable is expressed by columns that are not negative. One with a
finite lower bound is the bound plus a column; one with a finite upper bound
alone is the bound minus a column; one with neither is the difference of two
columns. A variable with both bounds adds a row that keeps its column below
their distance. The rows of the bounds come first, in the order of the
variables, then those of the constraints, in the order of their numbers. A row
with a negative right-hand side is negated.

An inequality gets a column for its slack, and a row that has no slack to
start from an artificial column. The first phase drives the artificial columns
to zero, or finds that no point exists. The second optimises, with the
artificial columns kept out.

## Main definitions

* `Bounds`, `Box`: The bounds within which a model is solved.
* `Reading`: How a variable is expressed by columns.
* `StandardForm`: A model as rows over non-negative columns.
* `StandardForm.tableau`: Its first tableau.
* `Relaxation`: The answer.
* `Model.relax`: Solves the relaxation of a model.
-/

namespace CyclePlan

/-- The bounds of one variable. An infinite bound is the same as none. -/
structure Bounds (α : Type) where
  lower : Option α
  upper : Option α

/-- The bounds of all variables, in the order of their numbers. -/
abbrev Box (α : Type) := List (Bounds α)

/-- The answer to a relaxation. -/
inductive Relaxation (α : Type) where
  /-- A best point, and the objective value there. -/
  | optimal (values : List α) (objective : α)
  | infeasible
  | unbounded
  /-- The pivots that were granted are used up. -/
  | stalled
  deriving DecidableEq

/-- How a variable is expressed: an offset plus signed columns. -/
structure Reading (α : Type) where
  /-- The value where all columns are zero. -/
  offset : α
  /-- The columns with their signs. -/
  columns : List (Nat × α)

/-- A row over columns, before slack is added. -/
structure StandardRow (α : Type) where
  /-- The columns with their coefficients. -/
  coeffs : List (Nat × α)
  relation : Relation
  rhs : α

/-- A model as rows over non-negative columns. -/
structure StandardForm (α : Type) where
  /-- How each variable is expressed. -/
  readings : List (Reading α)
  /-- The number of columns that variables are expressed by. -/
  columns : Nat
  /-- The rows, with right-hand sides that are not negative. -/
  rows : List (StandardRow α)

variable {α : Type} [Scalar α]

namespace Bounds

/-- A bound, if it is finite. -/
def finite? (bound : Option α) : Option α := bound.filter Scalar.isFinite

/-- Whether the bounds exclude each other by more than the tolerance. -/
@[specialize] def isEmpty (tol : Tolerances α) (b : Bounds α) : Bool :=
  match b.lower, b.upper with
  | some l, some u => u + tol.pivot < l
  | _, _ => false

/-- The expression of a variable by the columns from `next` on. -/
@[specialize] def reading (b : Bounds α) (next : Nat) : Reading α :=
  match finite? b.lower, finite? b.upper with
  | some l, _ => ⟨l, [(next, 1)]⟩
  | none, some u => ⟨u, [(next, -1)]⟩
  | none, none => ⟨0, [(next, 1), (next + 1, -1)]⟩

/-- The row that keeps the column of a variable with two bounds below their
    distance. -/
@[specialize] def rangeRow? (b : Bounds α) (column : Nat) : Option (StandardRow α) := do
  let l ← finite? b.lower
  let u ← finite? b.upper
  return ⟨[(column, 1)], .le, if u - l < 0 then 0 else u - l⟩

end Bounds

namespace StandardRow

/-- The row of a constraint, with every variable expressed by its columns. -/
@[specialize] def ofConstraint (readings : List (Reading α)) (c : Constraint α) : StandardRow α :=
  let read (v : Nat) : Reading α := readings.getD v ⟨0, []⟩
  { coeffs := c.terms.flatMap fun (v, a) => (read v).columns.map fun (j, sign) => (j, a * sign)
    relation := c.relation
    rhs := c.terms.foldl (fun rhs (v, a) => rhs - a * (read v).offset) c.rhs }

/-- The row with a right-hand side that is not negative. -/
@[specialize] def nonneg (row : StandardRow α) : StandardRow α :=
  if row.rhs < 0 then
    ⟨row.coeffs.map fun (j, a) => (j, -a), row.relation.swapped, -row.rhs⟩
  else row

/-- Whether the row has a slack column. -/
def hasSlack (row : StandardRow α) : Bool := row.relation != .eq

/-- Whether the row has an artificial column. -/
def hasArtificial (row : StandardRow α) : Bool := row.relation != .le

/-- The coefficient of a column that variables are expressed by. -/
@[specialize] def coefficient (row : StandardRow α) (j : Nat) : α :=
  (row.coeffs.filter fun t => t.1 == j).foldl (fun sum t => sum + t.2) 0

end StandardRow

namespace StandardForm

/-- Expresses variables by columns from `next` on. Answers the expressions with
    the bounds they stem from, and the first column that is free. -/
@[specialize] def readingsFrom : Nat → Box α → List (Reading α × Bounds α) × Nat
  | next, [] => ([], next)
  | next, b :: rest =>
    let r := b.reading next
    let (readings, free) := readingsFrom (next + r.columns.length) rest
    ((r, b) :: readings, free)

/-- The standard form of a model within bounds. -/
@[specialize] def ofModel (m : Model α) (box : Box α) : StandardForm α :=
  let (readings, columns) := readingsFrom 0 box
  let expressions := readings.map (·.1)
  let ranges := readings.filterMap fun (r, b) => do b.rangeRow? (← r.columns.head?).1
  -- Bounds before constraints: the order of rows decides ties between pivots.
  let rows := ranges ++ m.constraints.map fun c => .ofConstraint expressions c.2
  { readings := expressions, columns, rows := rows.map (·.nonneg) }

variable (s : StandardForm α)

/-- The number of slack columns. -/
def slacks : Nat := s.rows.countP (·.hasSlack)

/-- The number of artificial columns. -/
def artificials : Nat := s.rows.countP (·.hasArtificial)

/-- The first artificial column. -/
def firstArtificial : Nat := s.columns + s.slacks

/-- The number of all columns. -/
def width : Nat := s.firstArtificial + s.artificials

/-- One row of a tableau: the given columns, then the slack column with its
    sign and the artificial column, of which the row is solved for `basic`. -/
@[specialize] def tableauRow (columns w : Nat) (row : StandardRow α)
    (slack artificial : Option (Nat × α)) (basic : Fin w) : TableauRow α w where
  coeffs := Vector.ofFn fun j =>
    if slack.map (·.1) = some j.val then (slack.map (·.2)).getD 0
    else if artificial.map (·.1) = some j.val then (artificial.map (·.2)).getD 0
    else if j.val < columns then row.coefficient j.val
    else 0
  rhs := row.rhs
  basic := basic

/-- The rows of a tableau, with slack columns from `slack` on and artificial
    columns from `artificial` on. -/
@[specialize] def tableauRows (columns w : Nat) :
    (rows : List (StandardRow α)) → (slack artificial : Nat) →
    slack + rows.countP (·.hasSlack) ≤ w → artificial + rows.countP (·.hasArtificial) ≤ w →
    Tableau α w
  | [], _, _, _, _ => []
  | row :: rest, slack, artificial, hs, ha =>
    match h : row.relation with
    | .le =>
      have hs' : slack + 1 + rest.countP (·.hasSlack) ≤ w := by
        simp [StandardRow.hasSlack, h] at hs ⊢; omega
      have ha' : artificial + rest.countP (·.hasArtificial) ≤ w := by
        simp [StandardRow.hasArtificial, h] at ha ⊢; omega
      tableauRow columns w row (some (slack, 1)) none ⟨slack, by omega⟩
        :: tableauRows columns w rest (slack + 1) artificial hs' ha'
    | .ge =>
      have hs' : slack + 1 + rest.countP (·.hasSlack) ≤ w := by
        simp [StandardRow.hasSlack, h] at hs ⊢; omega
      have ha' : artificial + 1 + rest.countP (·.hasArtificial) ≤ w := by
        simp [StandardRow.hasArtificial, h] at ha ⊢; omega
      tableauRow columns w row (some (slack, -1)) (some (artificial, 1)) ⟨artificial, by omega⟩
        :: tableauRows columns w rest (slack + 1) (artificial + 1) hs' ha'
    | .eq =>
      have hs' : slack + rest.countP (·.hasSlack) ≤ w := by
        simp [StandardRow.hasSlack, h] at hs ⊢; omega
      have ha' : artificial + 1 + rest.countP (·.hasArtificial) ≤ w := by
        simp [StandardRow.hasArtificial, h] at ha ⊢; omega
      tableauRow columns w row none (some (artificial, 1)) ⟨artificial, by omega⟩
        :: tableauRows columns w rest slack (artificial + 1) hs' ha'

/-- The first tableau. -/
@[specialize] def tableau : Tableau α s.width :=
  tableauRows s.columns s.width s.rows s.columns s.firstArtificial
    (Nat.le_add_right _ _) (Nat.le_refl _)

/-- The costs of the first phase: one for every artificial column. -/
@[specialize] def phaseOneCost : Vector α s.width :=
  Vector.ofFn fun j => if j.val < s.firstArtificial then 0 else 1

/-- The costs of the second phase: the objective, to be made small. -/
@[specialize] def phaseTwoCost (objective : Objective α) : Vector α s.width :=
  let flip : α :=
    match objective.direction with
    | .minimize => 1
    | .maximize => -1
  let terms := objective.terms.flatMap fun (v, c) =>
    (s.readings.getD v ⟨0, []⟩).columns.map fun (j, sign) => (j, flip * c * sign)
  Vector.ofFn fun j =>
    (terms.filter fun t => t.1 == j.val).foldl (fun sum t => sum + t.2) 0

/-- What is left in the artificial columns that are basic. -/
@[specialize] def residual (t : Tableau α s.width) : α :=
  Scalar.sum ((t.filter fun row => s.firstArtificial ≤ row.basic.val).map (·.rhs))

/-- Makes another column basic in the row at a position, if an artificial one
    is and the row contains another. -/
@[specialize] def expel (tol : Tolerances α) (t : Tableau α s.width) (i : Nat) :
    Tableau α s.width :=
  match t[i]? with
  | none => t
  | some row =>
    if row.basic.val < s.firstArtificial then t
    else
      let other := (List.finRange s.width).find? fun j =>
        decide (j.val < s.firstArtificial) && decide (tol.pivot < Scalar.abs row.coeffs[j])
      match other with
      | some j => t.pivot tol i j
      | none => t

/-- Makes other columns basic in place of artificial ones, row by row. -/
@[specialize] def expelAll (tol : Tolerances α) (t : Tableau α s.width) : Tableau α s.width :=
  (List.range t.length).foldl (s.expel tol) t

/-- A tableau at a point that satisfies the rows. -/
inductive PhaseOne where
  /-- There is one. -/
  | reached (t : Tableau α s.width)
  | infeasible
  /-- The pivots that were granted are used up. -/
  | stalled

/-- The first phase. That its objective is unbounded cannot happen, since it is
    never negative; the tableau would be used as it is. -/
@[specialize] def phaseOne (tol : Tolerances α) (pivots : Nat) : s.PhaseOne :=
  if s.artificials = 0 then .reached s.tableau
  else
    let finish (t : Tableau α s.width) : s.PhaseOne :=
      if tol.residual < s.residual t then .infeasible else .reached (s.expelAll tol t)
    match s.tableau.optimize tol pivots s.phaseOneCost fun _ => true with
    | .optimal t => finish t
    | .unbounded t => finish t
    | .stalled => .stalled

/-- The value of a column at the point of a tableau. -/
@[specialize] def columnValue (t : Tableau α s.width) (j : Nat) : α :=
  match t.find? fun row => row.basic.val == j with
  | some row => row.rhs
  | none => 0

/-- The value of a variable at the point of a tableau. -/
@[specialize] def valueOf (t : Tableau α s.width) (r : Reading α) : α :=
  r.offset + Scalar.sum (r.columns.map fun (j, sign) => sign * s.columnValue t j)

end StandardForm

/-- The pivots that are granted to each phase. -/
def pivotLimit : Nat := 200000

/-- Solves the relaxation of a model within bounds. -/
@[specialize] def Model.relax (tol : Tolerances α) (pivots : Nat) (m : Model α) (box : Box α) :
    Relaxation α :=
  if box.any (·.isEmpty tol) then .infeasible
  else
    let s := StandardForm.ofModel m box
    match s.phaseOne tol pivots with
    | .stalled => .stalled
    | .infeasible => .infeasible
    | .reached t =>
      let cost := s.phaseTwoCost m.objective
      match t.optimize tol pivots cost fun j => j.val < s.firstArtificial with
      | .stalled => .stalled
      | .unbounded _ => .unbounded
      | .optimal t =>
        -- The objective is taken at the values, not read off the tableau.
        let values := s.readings.map (s.valueOf t)
        .optimal values (m.objectiveValue fun v => values.getD v 0)

end CyclePlan
