/-!
# Scalars

The arithmetic that timing models are written in.

A latency, a coefficient and the value of a variable are all numbers of one
type, and every part of the library that computes with them is written once
over this class. Two readings matter. Machine doubles are what a run uses: the
order of every operation is then part of the answer, because rounding makes
one of several equally good schedules come out. Exact rationals are what the
theory is about: with them the class's operations are those of the ordered
field, and nothing is ever infinite or undefined.

The class asks for no laws. Doubles satisfy few, and a statement that needs a
law is made about the rationals.

## Main definitions

* `Scalar`: Arithmetic, comparison, rounding and text of one number type.
* `Scalar.abs`: The absolute value, by one comparison.
* `Scalar.sum`: A sum taken from the left, starting at zero.
-/

namespace CyclePlan

/-- A number type that latencies, coefficients and variable values can have.
    Comparisons are decided, and a comparison with an undefined value is
    false. -/
class Scalar (α : Type) extends Zero α, One α, Add α, Sub α, Mul α, Div α, Neg α,
    LT α, LE α, BEq α, OfScientific α where
  decidableLT : DecidableLT α
  decidableLE : DecidableLE α
  /-- The number nearest to an integer. -/
  ofInt : Int → α
  /-- The greatest whole number that is not above the argument. -/
  floor : α → α
  /-- The least whole number that is not below the argument. -/
  ceil : α → α
  /-- The nearest whole number, a half going away from zero. -/
  round : α → α
  /-- The nearest integer, a half going away from zero. -/
  roundInt : α → Int
  /-- Neither infinite nor undefined. -/
  isFinite : α → Bool
  isNaN : α → Bool
  /-- How a message writes the number. -/
  text : α → String

namespace Scalar

variable {α : Type} [Scalar α]

instance : DecidableLT α := Scalar.decidableLT

instance : DecidableLE α := Scalar.decidableLE

/-- The absolute value. -/
@[inline] def abs (x : α) : α := if x < 0 then -x else x

/-- The sum of a list, taken from the left. The order is fixed because rounded
    addition is not associative. -/
def sum (xs : List α) : α := xs.foldl (· + ·) 0

@[simp] theorem sum_nil : sum ([] : List α) = 0 := rfl

end Scalar

end CyclePlan
