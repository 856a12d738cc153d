import CyclePlan.Scalar.Basic
import Mathlib.Data.Rat.Floor

/-!
# Rational scalars

Exact arithmetic. Every rational is finite and defined, and the integer
nearest to one is not clamped to any range.

This is the reading in which the formulation, the simplex method and the
search over integral points can be reasoned about: all comparisons are those
of the ordered field, so a tolerance of zero really means equality.

## Main definitions

* `Scalar.roundRat`: The nearest integer, a half going away from zero.
-/

namespace CyclePlan

namespace Scalar

/-- The nearest integer, a half going away from zero. -/
def roundRat (x : Rat) : Int :=
  if x < 0 then -(-x + 1 / 2).floor else (x + 1 / 2).floor

/-- A rational as a fraction, or as an integer when it is whole. -/
def textRat (x : Rat) : String :=
  if x.den = 1 then toString x.num else s!"{x.num}/{x.den}"

instance : Scalar Rat where
  decidableLT := inferInstance
  decidableLE := inferInstance
  ofInt n := (n : Rat)
  floor x := (x.floor : Rat)
  ceil x := (x.ceil : Rat)
  round x := (roundRat x : Rat)
  roundInt := roundRat
  isFinite _ := true
  isNaN _ := false
  text := textRat

end Scalar

end CyclePlan
