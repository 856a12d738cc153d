import CyclePlan.Scalar.Double
import CyclePlan.Scalar.Rational

/-!
# Words as Scalars

Which of the numbers that a model is written with are finite.

A model refuses numbers that are infinite or undefined. Most of those that it is
given are fixed: zero, one and minus one are the bounds and the coefficients of
nearly every row. The others are integers of sixty-four bits that a caller chooses,
a cycle, an interval or a capacity. That all of them are finite is a property of the
number type, and it is all that has to be known of one to see that a model accepts
what it is given.

## Main definitions

* `Scalar.IsWord`: An integer of sixty-four bits.
* `Scalar.FiniteUnits`, `Scalar.FiniteWords`: One and minus one are finite, and so is
  every such integer.
* `Scalar.ProperZero`: The integer zero is a number that can be a latency.
-/

namespace CyclePlan

namespace Scalar

/-- The coefficients of dependencies are finite. -/
class FiniteUnits (α : Type) [Scalar α] : Prop where
  one : Scalar.isFinite (1 : α) = true
  neg_one : Scalar.isFinite (-1 : α) = true

instance : FiniteUnits Float := ⟨by decide, by decide⟩

instance : FiniteUnits Rat := ⟨rfl, rfl⟩

/-- An integer of sixty-four bits. -/
def IsWord (n : Int) : Prop := -2 ^ 63 ≤ n ∧ n < 2 ^ 63

instance (n : Int) : Decidable (IsWord n) := inferInstanceAs (Decidable (_ ∧ _))

/-- A number that is not negative, and not greater than an integer of sixty-four bits, is
    one. -/
theorem IsWord.of_le {n m : Int} (h : IsWord n) (hpos : 0 ≤ m) (hle : m ≤ max n 0) :
    IsWord m := by
  rcases h with ⟨_, hupper⟩
  constructor <;> omega

/-- The integers of sixty-four bits are finite, with either sign, and the bounds of
    variables are defined and in order. -/
class FiniteWords (α : Type) [Scalar α] : Prop extends FiniteUnits α where
  zero : Scalar.isFinite (0 : α) = true
  zero_defined : Scalar.isNaN (0 : α) = false
  one_defined : Scalar.isNaN (1 : α) = false
  not_one_lt_zero : ¬ (1 : α) < 0
  word : ∀ n, IsWord n → Scalar.isFinite (Scalar.ofInt n : α) = true
  neg_word : ∀ n, IsWord n → Scalar.isFinite (-Scalar.ofInt n : α) = true

instance : FiniteWords Rat where
  zero := rfl
  zero_defined := rfl
  one_defined := rfl
  not_one_lt_zero := by decide
  word _ _ := rfl
  neg_word _ _ := rfl

/-- The number for the integer zero is finite, and not negative. -/
class ProperZero (α : Type) [Scalar α] : Prop where
  finite : Scalar.isFinite (Scalar.ofInt 0 : α) = true
  not_neg : ¬ (Scalar.ofInt 0 : α) < 0

instance : ProperZero Float := ⟨by decide, by decide⟩

instance : ProperZero Rat := ⟨rfl, by decide⟩

end Scalar

end CyclePlan
