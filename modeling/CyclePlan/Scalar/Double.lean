import CyclePlan.Decimal.Layout
import CyclePlan.Scalar.Basic

/-!
# Double scalars

Machine doubles, the arithmetic of every run.

The operations are those of the hardware, one rounding each. Only the integer
nearest to a double needs a rule of its own: it is clamped to sixty-four bits,
and the undefined value counts as zero.
-/

namespace CyclePlan

namespace Scalar

/-- The nearest integer of sixty-four bits, a half going away from zero; zero
    for the undefined value. -/
def roundDouble (x : Float) : Int := x.round.toInt64.toInt

instance : Scalar Float where
  decidableLT := inferInstance
  decidableLE := inferInstance
  ofInt := Float.ofInt
  floor := Float.floor
  ceil := Float.ceil
  round := Float.round
  roundInt := roundDouble
  isFinite := Float.isFinite
  isNaN := Float.isNaN
  text := Decimal.Layout.plain.write

end Scalar

end CyclePlan
