import CyclePlan.Scalar.Basic

/-!
# Simplex tableaus

Linear equations over non-negative columns, solved for one column each, and
the pivots that walk from one such form to the next.

A row reads as an equation: the sum of its coefficients times the columns
equals its right-hand side. Its basic column occurs in no other row, so
setting every other column to zero gives a point at once. A pivot makes
another column basic in a row. Which one follows Bland's rule: the first
column whose reduced cost is negative enters, and of the rows that bound it
equally tightly the one with the least basic column leaves. The rule excludes
cycling, and it also fixes which of several optimal points is reached.

Rounding errors are met by four tolerances, which are data. With all of them
zero and exact arithmetic every comparison is a plain one.

## Main definitions

* `Tolerances`: How small a number has to be to count as zero.
* `TableauRow`, `Tableau`: Equations solved for their basic columns.
* `Tableau.pivot`: Makes a column basic in a row.
* `Tableau.entering?`, `Tableau.leaving?`: Bland's rule.
* `Tableau.optimize`: Pivots until no reduced cost is negative.
-/

namespace CyclePlan

/-- How small a number has to be to count as zero. -/
structure Tolerances (α : Type) where
  /-- In the choice of pivots. -/
  pivot : α
  /-- As the remainder of the first phase. -/
  residual : α
  /-- As the result of an elimination. -/
  snap : α
  /-- As the factor of an elimination. -/
  skip : α

namespace Tolerances

variable {α : Type} [Scalar α]

/-- The tolerances of every run. The last one is the distance from one to the
    next double. -/
def standard : Tolerances α where
  pivot := 1e-9
  residual := 1e-7
  snap := 1e-12
  skip := 1 / Scalar.ofInt 0x10000000000000

/-- No tolerance at all. -/
def exact : Tolerances α := ⟨0, 0, 0, 0⟩

end Tolerances

/-- An equation that is solved for one of `w` columns. -/
structure TableauRow (α : Type) (w : Nat) where
  coeffs : Vector α w
  rhs : α
  /-- The column that the equation is solved for. -/
  basic : Fin w

/-- Equations over `w` columns. -/
abbrev Tableau (α : Type) (w : Nat) := List (TableauRow α w)

namespace TableauRow

variable {α : Type} [Scalar α] {w : Nat}

/-- The row divided by its coefficient in a column, and solved for the
    column. -/
@[specialize] def normalize (row : TableauRow α w) (c : Fin w) : TableauRow α w :=
  let p := row.coeffs[c]
  ⟨row.coeffs.map (· / p), row.rhs / p, c⟩

/-- A difference, read as zero if it is too small. -/
@[specialize] def snapped (tol : Tolerances α) (x : α) : α :=
  if Scalar.abs x < tol.snap then 0 else x

/-- The row with a column eliminated by means of a row that is solved for it. A
    row that hardly contains the column stays as it is. -/
@[specialize] def eliminate (tol : Tolerances α) (row pivotRow : TableauRow α w) (c : Fin w) :
    TableauRow α w :=
  let f := row.coeffs[c]
  if Scalar.abs f ≤ tol.skip then row
  else
    { row with
      coeffs := (row.coeffs.zipWith (fun v p => snapped tol (v - f * p)) pivotRow.coeffs).set c 0
      rhs := snapped tol (row.rhs - f * pivotRow.rhs) }

end TableauRow

namespace Tableau

variable {α : Type} [Scalar α] {w : Nat}

/-- Makes a column basic in the row at a position, by dividing that row and
    eliminating the column from the others. -/
@[specialize] def pivot (tol : Tolerances α) (t : Tableau α w) (r : Nat) (c : Fin w) :
    Tableau α w :=
  match t[r]? with
  | none => t
  | some row =>
    let pivotRow := row.normalize c
    t.mapIdx fun i row => if i = r then pivotRow else row.eliminate tol pivotRow c

/-- The reduced costs after a column has become basic in a row. -/
@[specialize] def priceOut (reduced : Vector α w) (pivotRow : TableauRow α w) (c : Fin w) :
    Vector α w :=
  let f := reduced[c]
  if f == 0 then reduced
  else (reduced.zipWith (fun v p => v - f * p) pivotRow.coeffs).set c 0

/-- The reduced costs of the columns: the costs less those of the basic columns
    that the rows express them by. -/
@[specialize] def reducedCosts (t : Tableau α w) (cost : Vector α w) : Vector α w :=
  t.foldl (fun reduced row =>
    let cb := cost[row.basic]
    if cb == 0 then reduced
    else reduced.zipWith (fun v a => v - cb * a) row.coeffs) cost

/-- The column that enters: the first allowed one with a negative reduced
    cost. -/
@[specialize] def entering? (tol : Tolerances α) (allowed : Fin w → Bool)
    (reduced : Vector α w) : Option (Fin w) :=
  (List.finRange w).find? fun j => allowed j && decide (reduced[j] < -tol.pivot)

/-- A row that bounds the entering column, with the bound. -/
structure Bounding (α : Type) (w : Nat) where
  position : Nat
  /-- The greatest value that the row leaves to the entering column. -/
  ratio : α
  /-- The column that the row is solved for. -/
  basic : Fin w

/-- Whether a bounding row is preferred to the best one so far: it is tighter,
    or as tight with a smaller basic column. -/
@[specialize] def Bounding.beats (tol : Tolerances α) (new best : Bounding α w) : Bool :=
  decide (new.ratio < best.ratio - tol.pivot) ||
    (decide (new.ratio ≤ best.ratio + tol.pivot) && decide (new.basic < best.basic))

/-- The best bound on the entering column after one more row is looked at. -/
@[specialize] def tighten (tol : Tolerances α) (c : Fin w) (best : Option (Bounding α w))
    (p : TableauRow α w × Nat) : Option (Bounding α w) :=
  -- Only a positive coefficient keeps the entering column from growing.
  let a := p.1.coeffs[c]
  if a ≤ tol.pivot then best
  else
    let new : Bounding α w := ⟨p.2, p.1.rhs / a, p.1.basic⟩
    match best with
    | none => some new
    | some old => if new.beats tol old then some new else some old

/-- The row that leaves: the one that bounds the entering column most
    tightly. -/
@[specialize] def leaving? (tol : Tolerances α) (t : Tableau α w) (c : Fin w) :
    Option (Bounding α w) :=
  t.zipIdx.foldl (tighten tol c) none

/-- How pivoting ended. -/
inductive PivotResult (α : Type) (w : Nat) where
  /-- No reduced cost is negative any more. -/
  | optimal (t : Tableau α w)
  /-- No row bounds the entering column. -/
  | unbounded (t : Tableau α w)
  /-- The pivots that were granted are used up. -/
  | stalled

/-- Pivots at most `pivots` times, given the reduced costs. -/
@[specialize] def optimizeFrom (tol : Tolerances α) (allowed : Fin w → Bool) :
    Nat → Tableau α w → Vector α w → PivotResult α w
  | 0, _, _ => .stalled
  | pivots + 1, t, reduced =>
    match entering? tol allowed reduced with
    | none => .optimal t
    | some c =>
      match leaving? tol t c with
      | none => .unbounded t
      | some best =>
        let t := pivot tol t best.position c
        let reduced :=
          match t[best.position]? with
          | some pivotRow => priceOut reduced pivotRow c
          | none => reduced
        optimizeFrom tol allowed pivots t reduced

/-- Pivots until no allowed column has a negative reduced cost, at most
    `pivots` times. -/
@[specialize] def optimize (tol : Tolerances α) (pivots : Nat) (cost : Vector α w)
    (allowed : Fin w → Bool) (t : Tableau α w) : PivotResult α w :=
  optimizeFrom tol allowed pivots t (t.reducedCosts cost)

end Tableau

end CyclePlan
