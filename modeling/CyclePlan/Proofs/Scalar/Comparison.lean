import CyclePlan.Scalar.Double
import CyclePlan.Scalar.Rational

/-!
# Comparing Scalars

What it means that one number is not below another.

A model takes two bounds unless the upper one is below the lower one. That this puts
them in order is a property of the number type: any two defined numbers have to be
comparable. Doubles are comparable, the infinite ones included, because exchanging two of
them exchanges the outcome of their comparison (`compare_swap`), and the outcome is
missing only where one of them is undefined.

## Main definitions

* `Scalar.Comparable`: Of two defined numbers, one is not below the other only if it is
  above or equal.
* `Scalar.IsExact`: A reading of numbers as rationals that keeps sums.

## Theorems

* `Scalar.compare_swap`: Comparing doubles the other way round.
* `Scalar.isExact_id`: Rationals are read as they are.
-/

namespace CyclePlan

namespace Scalar

open Float.Model

/-- Defined numbers are comparable. -/
class Comparable (α : Type) [Scalar α] : Prop where
  le_of_not_lt : ∀ {x y : α}, isNaN x = false → isNaN y = false → ¬ y < x → x ≤ y

instance : Comparable Rat := ⟨fun _ _ h => Rat.not_lt.mp h⟩

theorem compare_swap (u w : UnpackedFloat) : w.compare u = (u.compare w).map Ordering.swap := by
  cases u with
  | notANumber => cases w <;> rfl
  | infinity s =>
      cases w with
      | notANumber => cases s <;> rfl
      | infinity s' => cases s <;> cases s' <;> rfl
      | zero s' => cases s <;> rfl
      | finite s' m e h => cases s <;> cases s' <;> rfl
  | zero s =>
      cases w with
      | notANumber => rfl
      | infinity s' => cases s' <;> rfl
      | zero s' => rfl
      | finite s' m e h => cases s' <;> rfl
  | finite s m e h =>
      cases w with
      | notANumber => cases s <;> rfl
      | infinity s' => cases s <;> cases s' <;> rfl
      | zero s' => cases s <;> rfl
      | finite s' m' e' h' =>
          have hswap : (compare e' e).then (compare m' m)
              = ((compare e e').then (compare m m')).swap := by
            rw [Ordering.swap_then, ← Std.OrientedCmp.eq_swap, ← Std.OrientedCmp.eq_swap]
          -- Below zero, the size of numbers is compared the other way round.
          cases s with
          | positive =>
              cases s' with
              | positive => exact congrArg some hswap
              | negative => rfl
          | negative =>
              cases s' with
              | positive => rfl
              | negative => exact congrArg (fun o => some o.swap) hswap

/-- The comparison of two defined doubles has an outcome. -/
theorem compare_ne_none {u w : UnpackedFloat} (hu : u.isNaN = false) (hw : w.isNaN = false) :
    u.compare w ≠ none := by
  cases u with
  | notANumber => cases hu
  | infinity s =>
      cases w with
      | notANumber => cases hw
      | infinity s' => cases s <;> cases s' <;> nofun
      | zero s' => cases s <;> nofun
      | finite s' m e h => cases s <;> nofun
  | zero s =>
      cases w with
      | notANumber => cases hw
      | infinity s' => cases s' <;> nofun
      | zero s' => nofun
      | finite s' m e h => cases s' <;> nofun
  | finite s m e h =>
      cases w with
      | notANumber => cases hw
      | infinity s' => cases s <;> cases s' <;> nofun
      | zero s' => cases s <;> nofun
      | finite s' m' e' h' => cases s <;> cases s' <;> nofun

instance : Comparable Float where
  le_of_not_lt {x y} hx hy h := by
    have hlt : (y.toModel.unpack.lt x.toModel.unpack) = false :=
      Bool.eq_false_iff.mpr fun hlt => h (decide_eq_true hlt)
    refine decide_eq_true (p := x.toModel ≤ y.toModel) ?_
    change (x.toModel.unpack.compare y.toModel.unpack).any Ordering.isLE = true
    rw [UnpackedFloat.lt, compare_swap] at hlt
    rcases hcompare : x.toModel.unpack.compare y.toModel.unpack with _ | outcome
    · exact absurd hcompare (compare_ne_none hx hy)
    · rw [hcompare] at hlt
      cases outcome with
      | lt => rfl
      | eq => rfl
      | gt => cases hlt

/-- A reading of numbers as rationals under which sums are exact and nothing but zero
    counts as zero. -/
structure IsExact {α : Type} [Scalar α] (read : α → Rat) : Prop where
  add : ∀ x y, read (x + y) = read x + read y
  zero : ∀ x : α, (x != 0) = false → read x = 0

theorem isExact_id : IsExact (id : Rat → Rat) :=
  ⟨fun _ _ => rfl, fun x h => by simpa using h⟩

end Scalar

end CyclePlan
