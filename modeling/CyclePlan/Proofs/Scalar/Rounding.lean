import Mathlib.Algebra.Order.Floor.Ring
import Mathlib.Data.Rat.Floor
import Mathlib.Tactic.Linarith
import CyclePlan.Scalar.Rational

/-!
# Rounding Rationals

What rounding leaves as it is.

The nearest whole number of a whole number is that number. Rounding down and rounding up
do not agree with each other, but both keep the order and move along with whole steps,
and this is all that has to be known of them to see that they keep whole distances and
whole bounds (`IsRounding`).

## Main definitions

* `IsRounding`: Rounding that keeps the order and moves along with whole steps.

## Theorems

* `Scalar.roundInt_intCast`, `Scalar.round_intCast`: Whole numbers are not rounded.
* `IsRounding.add_le`, `IsRounding.le_of_le`, `IsRounding.ge_of_ge`: What is kept.
-/

namespace CyclePlan

namespace Scalar

theorem floor_add_half (n : Int) : ((n : Rat) + 1 / 2).floor = n := by
  refine Int.le_antisymm ?_ (Rat.le_floor_iff.mpr (by linarith))
  refine Int.le_of_lt_add_one (Rat.floor_lt_iff.mpr ?_)
  push_cast
  linarith

/-- Rounding a whole number does nothing. -/
@[simp] theorem roundInt_intCast (n : Int) : roundInt (n : Rat) = n := by
  change roundRat (n : Rat) = n
  rw [roundRat]
  split
  · -- A negative number is rounded by way of its opposite.
    have hneg := floor_add_half (-n)
    rw [Int.cast_neg] at hneg
    rw [hneg, Int.neg_neg]
  · exact floor_add_half n

@[simp] theorem round_intCast (n : Int) : Scalar.round (n : Rat) = n :=
  congrArg Int.cast (roundInt_intCast n)

end Scalar

/-- A way to round that keeps the order and moves along with whole steps. -/
structure IsRounding (ρ : Rat → Int) : Prop where
  mono : ∀ {x y : Rat}, x ≤ y → ρ x ≤ ρ y
  add_whole : ∀ (x : Rat) (n : Int), ρ (x + n) = ρ x + n
  zero : ρ 0 = 0

namespace IsRounding

variable {ρ : Rat → Int} {x y : Rat} {n : Int}

theorem floor : IsRounding Int.floor :=
  ⟨fun hle => Int.floor_mono hle, Int.floor_add_intCast, Int.floor_zero⟩

theorem ceil : IsRounding Int.ceil :=
  ⟨fun hle => Int.ceil_mono hle, Int.ceil_add_intCast, Int.ceil_zero⟩

/-- Whole numbers stay. -/
theorem intCast (h : IsRounding ρ) (n : Int) : ρ n = n := by
  have hstep := h.add_whole 0 n
  rwa [zero_add, h.zero, zero_add] at hstep

/-- Whole distances are kept. -/
theorem add_le (h : IsRounding ρ) (hle : x + n ≤ y) : (ρ x : Rat) + n ≤ ρ y := by
  have hmono := h.mono hle
  rw [h.add_whole] at hmono
  exact_mod_cast hmono

/-- Whole upper bounds are kept. -/
theorem le_of_le (h : IsRounding ρ) (hle : x ≤ n) : (ρ x : Rat) ≤ n := by
  have hmono := h.mono hle
  rw [h.intCast] at hmono
  exact_mod_cast hmono

/-- Whole lower bounds are kept. -/
theorem ge_of_ge (h : IsRounding ρ) (hle : (n : Rat) ≤ x) : (n : Rat) ≤ ρ x := by
  have hmono := h.mono hle
  rw [h.intCast] at hmono
  exact_mod_cast hmono

end IsRounding

end CyclePlan
