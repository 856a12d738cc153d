import Mathlib.Algebra.BigOperators.Field
import Mathlib.Algebra.BigOperators.Fin
import Mathlib.Tactic.Linarith
import Mathlib.Tactic.Ring
import CyclePlan.Lp.Tableau
import CyclePlan.Scalar.Rational

/-!
# Rows of a Tableau

What a tableau says, and that a pivot says the same.

A row is an equation, and a tableau stands for the points that satisfy all of
its rows. In exact arithmetic and without tolerances a pivot only rewrites the
equations, so these points stay the same (`pivot_satisfies_iff`). What it
changes is the form. A tableau is solved for its basic columns if each of them
occurs in its own row only, with coefficient one, and a pivot keeps it so
(`IsSolved.pivot`).

From a solved tableau points can be read off. The columns that are not basic
may have any values, and the rows give those of the others
(`IsSolved.complete_satisfies`); conversely a point is known once these values
are known (`IsSolved.eq_of_lhs_eq`). Both rest on one observation, that a row
of a solved tableau sees nothing but its own basic column at a point that
vanishes on all columns that are not basic.

## Main definitions

* `TableauRow.lhs`, `TableauRow.Holds`, `Tableau.Satisfies`: Rows as equations.
* `Tableau.IsBasic`, `Tableau.IsSolved`: The form of a tableau.
* `Tableau.complete`, `Tableau.point`: Points read off a solved tableau.

## Theorems

* `Tableau.getElem?_pivot`: The rows after a pivot.
* `Tableau.pivot_satisfies_iff`, `Tableau.IsSolved.pivot`: What a pivot keeps.
* `Tableau.IsSolved.lhs_eq_basic`: What a row sees of a point on basic columns.
-/

namespace CyclePlan

namespace Scalar

/-- The absolute value of a rational is the usual one. -/
theorem abs_rat (x : Rat) : Scalar.abs x = |x| := by
  rw [Scalar.abs]
  split
  · next h => exact (abs_of_neg h).symm
  · next h => exact (abs_of_nonneg (not_lt.mp h)).symm

end Scalar

variable {w : Nat}

namespace TableauRow

variable (row other : TableauRow Rat w) (c : Fin w)

/-- The coefficient of a column. -/
def coeff (j : Fin w) : Rat := row.coeffs.get j

/-- The left side of the equation. -/
def lhs (x : Fin w → Rat) : Rat := ∑ j, row.coeff j * x j

/-- A point satisfies the equation. -/
def Holds (x : Fin w → Rat) : Prop := row.lhs x = row.rhs

theorem lhs_sub (x y : Fin w → Rat) : row.lhs (x - y) = row.lhs x - row.lhs y := by
  rw [lhs, lhs, lhs, ← Finset.sum_sub_distrib]
  exact Finset.sum_congr rfl fun j _ => mul_sub _ _ _

theorem lhs_zero : row.lhs 0 = 0 := Finset.sum_eq_zero fun _ _ => mul_zero _

theorem lhs_single (a : Rat) : row.lhs (Pi.single c a) = row.coeff c * a := by
  rw [lhs, Finset.sum_eq_single c]
  · rw [Pi.single_eq_same]
  · intro j _ hj
    rw [Pi.single_eq_of_ne hj, mul_zero]
  · exact fun hc => absurd (Finset.mem_univ c) hc

@[simp] theorem normalize_basic : (row.normalize c).basic = c := rfl

theorem normalize_rhs : (row.normalize c).rhs = row.rhs / row.coeff c := rfl

theorem normalize_coeff (j : Fin w) :
    (row.normalize c).coeff j = row.coeff j / row.coeff c :=
  Vector.getElem_map _ j.isLt

theorem normalize_coeff_self (hc : row.coeff c ≠ 0) : (row.normalize c).coeff c = 1 := by
  rw [normalize_coeff, div_self hc]

theorem lhs_normalize (x : Fin w → Rat) :
    (row.normalize c).lhs x = row.lhs x / row.coeff c := by
  rw [lhs, lhs, Finset.sum_div]
  refine Finset.sum_congr rfl fun j _ => ?_
  rw [normalize_coeff, div_mul_eq_mul_div]

theorem snapped_exact (x : Rat) : snapped .exact x = x := by
  rw [snapped, if_neg]
  rw [Scalar.abs_rat]
  exact not_lt.mpr (abs_nonneg x)

theorem eliminate_basic (tol : Tolerances Rat) :
    (row.eliminate tol other c).basic = row.basic := by
  rw [eliminate]
  split <;> rfl

theorem skip_exact_iff (f : Rat) :
    Scalar.abs f ≤ (Tolerances.exact : Tolerances Rat).skip ↔ f = 0 := by
  rw [Scalar.abs_rat]
  exact abs_nonpos_iff

theorem eliminate_of_zero (hc : row.coeff c = 0) : row.eliminate .exact other c = row := by
  rw [eliminate]
  exact if_pos ((skip_exact_iff _).mpr hc)

theorem eliminate_of_ne_zero (hc : row.coeff c ≠ 0) :
    row.eliminate .exact other c =
      { row with
        coeffs := (row.coeffs.zipWith (fun v p => snapped .exact (v - row.coeff c * p))
          other.coeffs).set c.val 0 c.isLt
        rhs := snapped .exact (row.rhs - row.coeff c * other.rhs) } := by
  rw [eliminate]
  exact if_neg (mt (skip_exact_iff _).mp hc)

/-- Elimination subtracts a multiple of the other row, whether the column
    occurs or not. -/
theorem eliminate_coeff (hother : other.coeff c = 1) (j : Fin w) :
    (row.eliminate .exact other c).coeff j
      = row.coeff j - row.coeff c * other.coeff j := by
  by_cases hf : row.coeff c = 0
  · rw [eliminate_of_zero row other c hf, hf, zero_mul, sub_zero]
  · rw [eliminate_of_ne_zero row other c hf]
    by_cases hj : j = c
    · subst hj
      rw [hother, mul_one, sub_self]
      exact Vector.getElem_set_self j.isLt
    · have hne : c.val ≠ j.val := fun h => hj (Fin.ext h.symm)
      refine (Vector.getElem_set_ne c.isLt j.isLt hne).trans ?_
      exact (Vector.getElem_zipWith j.isLt).trans (snapped_exact _)

theorem eliminate_rhs :
    (row.eliminate .exact other c).rhs = row.rhs - row.coeff c * other.rhs := by
  by_cases hf : row.coeff c = 0
  · rw [eliminate_of_zero row other c hf, hf, zero_mul, sub_zero]
  · rw [eliminate_of_ne_zero row other c hf]
    exact snapped_exact _

theorem lhs_eliminate (hother : other.coeff c = 1) (x : Fin w → Rat) :
    (row.eliminate .exact other c).lhs x = row.lhs x - row.coeff c * other.lhs x := by
  rw [lhs, lhs, lhs, Finset.mul_sum, ← Finset.sum_sub_distrib]
  refine Finset.sum_congr rfl fun j _ => ?_
  rw [row.eliminate_coeff other c hother]
  ring

end TableauRow

namespace Tableau

variable {t : Tableau Rat w} {row : TableauRow Rat w} {i : Nat} {x y : Fin w → Rat}

/-- A point satisfies all rows. -/
def Satisfies (t : Tableau Rat w) (x : Fin w → Rat) : Prop := ∀ row ∈ t, row.Holds x

/-- A column that some row is solved for. -/
def IsBasic (t : Tableau Rat w) (j : Fin w) : Prop := ∃ row ∈ t, row.basic = j

/-- Every basic column occurs in its own row only, with coefficient one. -/
def IsSolved (t : Tableau Rat w) : Prop :=
  ∀ (i k : Nat) (a b : TableauRow Rat w), t[i]? = some a → t[k]? = some b →
    a.coeff b.basic = if i = k then 1 else 0

theorem isSolved_iff : t.IsSolved ↔
    ∀ i k : Fin t.length, t[i].coeff t[k].basic = if i = k then 1 else 0 := by
  constructor
  · intro h i k
    rw [h i k t[i] t[k] (List.getElem?_eq_getElem i.isLt) (List.getElem?_eq_getElem k.isLt)]
    simp only [Fin.ext_iff]
  · intro h i k a b hi hk
    rcases List.getElem?_eq_some_iff.mp hi with ⟨hi', rfl⟩
    rcases List.getElem?_eq_some_iff.mp hk with ⟨hk', rfl⟩
    have hcoeff := h ⟨i, hi'⟩ ⟨k, hk'⟩
    simp only [Fin.mk.injEq] at hcoeff
    exact hcoeff

instance : Decidable t.IsSolved := decidable_of_iff' _ isSolved_iff

/-! ### Points of a solved tableau -/

namespace IsSolved

theorem basic_ne (h : t.IsSolved) {k : Nat} {a b : TableauRow Rat w} (hi : t[i]? = some a)
    (hk : t[k]? = some b) (hne : i ≠ k) : a.basic ≠ b.basic := by
  intro heq
  have hself := h i i a a hi hi
  have hother := h i k a b hi hk
  rw [← heq, hself, if_pos rfl, if_neg hne] at hother
  exact one_ne_zero hother

/-- What a row sees of a point that vanishes on all columns that are not
    basic. -/
theorem lhs_eq_basic (h : t.IsSolved) (hi : t[i]? = some row)
    (hx : ∀ j, ¬ t.IsBasic j → x j = 0) : row.lhs x = x row.basic := by
  have hself := h i i row row hi hi
  rw [if_pos rfl] at hself
  rw [TableauRow.lhs, Finset.sum_eq_single row.basic]
  · rw [hself, one_mul]
  · intro j _ hj
    by_cases hbasic : t.IsBasic j
    · rcases hbasic with ⟨other, hother, rfl⟩
      rcases List.mem_iff_getElem?.mp hother with ⟨k, hk⟩
      have hne : i ≠ k := by
        rintro rfl
        rw [hi] at hk
        cases hk
        exact hj rfl
      rw [h i k row other hi hk, if_neg hne, zero_mul]
    · rw [hx j hbasic, mul_zero]
  · exact fun hc => absurd (Finset.mem_univ _) hc

/-- A point is known from its values on the columns that are not basic. -/
theorem eq_of_lhs_eq (h : t.IsSolved) (hrows : ∀ row ∈ t, row.lhs x = row.lhs y)
    (hfree : ∀ j, ¬ t.IsBasic j → x j = y j) : x = y := by
  funext j
  by_cases hbasic : t.IsBasic j
  · rcases hbasic with ⟨row, hrow, rfl⟩
    rcases List.mem_iff_getElem?.mp hrow with ⟨i, hi⟩
    have hdiff := h.lhs_eq_basic (x := x - y) hi fun j hj => sub_eq_zero.mpr (hfree j hj)
    rw [row.lhs_sub, hrows row hrow, sub_self] at hdiff
    exact sub_eq_zero.mp hdiff.symm
  · exact hfree j hbasic

end IsSolved

/-- The point at which the columns that are not basic have given values. -/
def complete (t : Tableau Rat w) (z : Fin w → Rat) (j : Fin w) : Rat :=
  match t.find? fun row => row.basic == j with
  | some row => row.rhs - row.lhs z
  | none => z j

/-- The point at which they are zero. -/
def point (t : Tableau Rat w) : Fin w → Rat := t.complete 0

theorem complete_of_not_isBasic (z : Fin w → Rat) {j : Fin w} (hj : ¬ t.IsBasic j) :
    t.complete z j = z j := by
  have hnone : t.find? (fun row => row.basic == j) = none := by
    rw [List.find?_eq_none]
    intro row hrow hbasic
    exact hj ⟨row, hrow, beq_iff_eq.mp hbasic⟩
  rw [complete, hnone]

theorem point_of_not_isBasic {j : Fin w} (hj : ¬ t.IsBasic j) : t.point j = 0 :=
  complete_of_not_isBasic 0 hj

namespace IsSolved

/-- A row is known from its basic column. -/
theorem eq_of_basic (h : t.IsSolved) {other : TableauRow Rat w} (hrow : row ∈ t)
    (hother : other ∈ t) (heq : row.basic = other.basic) : row = other := by
  rcases List.mem_iff_getElem?.mp hrow with ⟨i, hi⟩
  rcases List.mem_iff_getElem?.mp hother with ⟨k, hk⟩
  by_cases hik : i = k
  · rw [hik, hk] at hi
    exact (Option.some.inj hi).symm
  · exact absurd heq (h.basic_ne hi hk hik)

theorem find?_basic (h : t.IsSolved) (hrow : row ∈ t) :
    t.find? (fun other => other.basic == row.basic) = some row := by
  cases hfind : t.find? fun other => other.basic == row.basic with
  | none =>
      have hnone := List.find?_eq_none.mp hfind row hrow
      exact absurd (beq_self_eq_true row.basic) hnone
  | some other =>
      have hbasic : other.basic = row.basic := by
        have hsome := List.find?_some hfind
        exact beq_iff_eq.mp hsome
      exact congrArg some (h.eq_of_basic (List.mem_of_find?_eq_some hfind) hrow hbasic)

theorem complete_basic (h : t.IsSolved) (z : Fin w → Rat) (hrow : row ∈ t) :
    t.complete z row.basic = row.rhs - row.lhs z := by
  rw [complete, h.find?_basic hrow]

theorem point_basic (h : t.IsSolved) (hrow : row ∈ t) : t.point row.basic = row.rhs := by
  rw [point, h.complete_basic 0 hrow, row.lhs_zero, sub_zero]

/-- Values for the columns that are not basic can be chosen freely. -/
theorem complete_satisfies (h : t.IsSolved) {z : Fin w → Rat} (hz : ∀ j, t.IsBasic j → z j = 0) :
    t.Satisfies (t.complete z) := by
  intro row hrow
  rcases List.mem_iff_getElem?.mp hrow with ⟨i, hi⟩
  have hdiff := h.lhs_eq_basic (x := t.complete z - z) hi fun j hj =>
    sub_eq_zero.mpr (complete_of_not_isBasic z hj)
  rw [row.lhs_sub, Pi.sub_apply, h.complete_basic z hrow, hz row.basic ⟨row, hrow, rfl⟩,
    sub_zero] at hdiff
  exact sub_left_inj.mp hdiff

theorem point_satisfies (h : t.IsSolved) : t.Satisfies t.point :=
  h.complete_satisfies fun _ _ => rfl

/-- The point with one column that is not basic off zero. -/
theorem complete_single (h : t.IsSolved) {c : Fin w} (hc : ¬ t.IsBasic c) (a : Rat) :
    t.Satisfies (t.complete (Pi.single c a)) :=
  h.complete_satisfies fun j hj => Pi.single_eq_of_ne (by rintro rfl; exact hc hj) _

end IsSolved

/-- A point is not negative if the columns that are not basic are not, and they
    leave something of every right-hand side. -/
theorem complete_nonneg {z : Fin w → Rat} (hz : ∀ j, 0 ≤ z j)
    (hrhs : ∀ row ∈ t, row.lhs z ≤ row.rhs) (j : Fin w) : 0 ≤ t.complete z j := by
  rw [complete]
  split
  · next row hrow => exact sub_nonneg.mpr (hrhs row (List.mem_of_find?_eq_some hrow))
  · exact hz j

/-! ### Pivots -/

variable {r : Nat} {c : Fin w}

/-- The rows after a pivot. -/
theorem getElem?_pivot (tol : Tolerances Rat) (hr : t[r]? = some row) (k : Nat) :
    (t.pivot tol r c)[k]? = t[k]?.map fun other =>
      if k = r then row.normalize c else other.eliminate tol (row.normalize c) c := by
  rw [pivot, hr]
  exact List.getElem?_mapIdx

theorem getElem?_pivot_self (tol : Tolerances Rat) (hr : t[r]? = some row) :
    (t.pivot tol r c)[r]? = some (row.normalize c) := by
  rw [getElem?_pivot tol hr, hr, Option.map_some, if_pos rfl]

theorem getElem?_pivot_of_ne (tol : Tolerances Rat) (hr : t[r]? = some row) {k : Nat}
    (hk : k ≠ r) :
    (t.pivot tol r c)[k]? = t[k]?.map fun other => other.eliminate tol (row.normalize c) c := by
  rw [getElem?_pivot tol hr]
  simp only [if_neg hk]

theorem length_pivot (tol : Tolerances Rat) : (t.pivot tol r c).length = t.length := by
  rw [pivot]
  split
  · rfl
  · exact List.length_mapIdx

/-- The rows after a pivot, one by one. -/
theorem mem_pivot_cases {tol : Tolerances Rat} (hr : t[r]? = some row)
    {after : TableauRow Rat w} (hafter : after ∈ t.pivot tol r c) :
    after = row.normalize c ∨
      ∃ k other, k ≠ r ∧ t[k]? = some other ∧
        after = other.eliminate tol (row.normalize c) c := by
  rcases List.mem_iff_getElem?.mp hafter with ⟨k, hk⟩
  rw [getElem?_pivot tol hr] at hk
  rcases Option.map_eq_some_iff.mp hk with ⟨other, hother, rfl⟩
  by_cases hkr : k = r
  · rw [if_pos hkr]
    exact .inl rfl
  · rw [if_neg hkr]
    exact .inr ⟨k, other, hkr, hother, rfl⟩

theorem mem_pivot_self (tol : Tolerances Rat) (hr : t[r]? = some row) :
    row.normalize c ∈ t.pivot tol r c :=
  List.mem_of_getElem? (getElem?_pivot_self tol hr)

/-- A pivot rewrites the equations and keeps their points. -/
theorem pivot_satisfies_iff (hr : t[r]? = some row) (hc : row.coeff c ≠ 0) (x : Fin w → Rat) :
    (t.pivot .exact r c).Satisfies x ↔ t.Satisfies x := by
  have hself := row.normalize_coeff_self c hc
  have hnormal : (row.normalize c).Holds x ↔ row.Holds x := by
    rw [TableauRow.Holds, row.lhs_normalize, row.normalize_rhs, div_left_inj' hc]
    exact Iff.rfl
  constructor
  · intro h other hother
    have hrow : (row.normalize c).Holds x := h _ (mem_pivot_self .exact hr)
    rcases List.mem_iff_getElem?.mp hother with ⟨k, hk⟩
    by_cases hkr : k = r
    · rw [hkr, hr] at hk
      cases hk
      exact hnormal.mp hrow
    · have hafter := h (other.eliminate .exact (row.normalize c) c) (by
        refine List.mem_of_getElem? (i := k) ?_
        rw [getElem?_pivot_of_ne .exact hr hkr, hk, Option.map_some])
      rw [TableauRow.Holds, other.lhs_eliminate _ c hself, other.eliminate_rhs, hrow] at hafter
      exact sub_left_inj.mp hafter
  · intro h after hafter
    have hrow := hnormal.mpr (h row (List.mem_of_getElem? hr))
    rcases mem_pivot_cases hr hafter with rfl | ⟨k, other, _, hother, rfl⟩
    · exact hrow
    · rw [TableauRow.Holds, other.lhs_eliminate _ c hself, other.eliminate_rhs, hrow,
        h other (List.mem_of_getElem? hother)]

/-- A pivot keeps a tableau solved. -/
theorem IsSolved.pivot (h : t.IsSolved) (hr : t[r]? = some row) (hc : row.coeff c ≠ 0) :
    (t.pivot .exact r c).IsSolved := by
  have hself := row.normalize_coeff_self c hc
  -- The pivot row after the pivot, seen from the basic columns of all rows.
  have hnormal : ∀ k b, k ≠ r → t[k]? = some b → (row.normalize c).coeff b.basic = 0 := by
    intro k b hkr hk
    rw [row.normalize_coeff, h r k row b hr hk, if_neg (Ne.symm hkr), zero_div]
  intro i k a b hi hk
  by_cases hir : i = r
  · subst hir
    rw [getElem?_pivot_self .exact hr] at hi
    cases hi
    by_cases hki : k = i
    · subst hki
      rw [getElem?_pivot_self .exact hr] at hk
      cases hk
      rw [if_pos rfl]
      exact hself
    · rw [getElem?_pivot_of_ne .exact hr hki] at hk
      rcases Option.map_eq_some_iff.mp hk with ⟨b', hb', rfl⟩
      rw [if_neg (Ne.symm hki), TableauRow.eliminate_basic]
      exact hnormal k b' hki hb'
  · rw [getElem?_pivot_of_ne .exact hr hir] at hi
    rcases Option.map_eq_some_iff.mp hi with ⟨a', ha', rfl⟩
    by_cases hkr : k = r
    · subst hkr
      rw [getElem?_pivot_self .exact hr] at hk
      cases hk
      rw [if_neg hir, a'.eliminate_coeff _ c hself, row.normalize_basic, hself, mul_one,
        sub_self]
    · rw [getElem?_pivot_of_ne .exact hr hkr] at hk
      rcases Option.map_eq_some_iff.mp hk with ⟨b', hb', rfl⟩
      rw [TableauRow.eliminate_basic, a'.eliminate_coeff _ c hself, hnormal k b' hkr hb',
        mul_zero, sub_zero]
      exact h i k a' b' ha' hb'

end Tableau

end CyclePlan
