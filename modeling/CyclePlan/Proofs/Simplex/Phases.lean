import Mathlib.Algebra.Order.BigOperators.Group.Finset
import CyclePlan.Proofs.Simplex.Layout
import CyclePlan.Proofs.Simplex.Pivoting

/-!
# The Two Phases

What the two phases of the simplex method find out about the rows of a standard
form.

Every tableau that is reached has the points of the first one, is solved, and
has no negative right-hand side (`StandardForm.IsReached`), so its own point is
one of them. The first phase makes the artificial columns small. If something is
left in them at the end, every point has at least that in them, and the rows
cannot be satisfied. Otherwise the artificial columns that are still basic have
nothing in them, and `expelAll` exchanges them where it can. Where it cannot, the
row has no other columns left: it says nothing about them, and no later pivot
changes it. A tableau is ready for the second phase if all of its rows are
settled in one of these two ways (`StandardForm.IsReady`).

The second phase keeps a tableau ready. The points it looks at therefore have
nothing in the artificial columns and are points of the rows.

## Main definitions

* `StandardForm.IsReached`, `StandardForm.IsReady`: The tableaus of the phases.
* `TableauRow.IsSettled`: A row that is solved for a proper column or is idle.

## Theorems

* `StandardForm.phaseOne_cases`: What the first phase finds out.
* `StandardForm.phaseTwo_cases`: What the second phase finds out.
-/

namespace CyclePlan

variable {w : Nat}

namespace Tableau

variable {t : Tableau Rat w} {row : TableauRow Rat w} {cost reduced : Vector Rat w}
  {x : Fin w → Rat} {c : Fin w} {allowed : Fin w → Bool}

/-- Where no allowed column can enter, no point with nothing in the other columns
    is cheaper. -/
theorem IsPriced.costOf_point_le (h : t.IsPriced cost reduced) (hsolved : t.IsSolved)
    (henter : entering? .exact allowed reduced = none) (hx : t.Satisfies x)
    (hnonneg : ∀ j, 0 ≤ x j) (hallowed : ∀ j, allowed j = false → x j = 0) :
    costOf cost t.point ≤ costOf cost x := by
  have hreduced : 0 ≤ costOf reduced x := by
    refine Finset.sum_nonneg fun j _ => ?_
    cases hj : allowed j with
    | true => exact mul_nonneg (entering?_eq_none_iff.mp henter j hj) (hnonneg j)
    | false => rw [hallowed j hj, mul_zero]
  rw [h.costOf_eq hsolved hx]
  exact le_add_of_nonneg_right hreduced

/-- A point has nothing negative where no right-hand side is. -/
theorem point_nonneg (hrhs : ∀ row ∈ t, 0 ≤ row.rhs) (j : Fin w) : 0 ≤ t.point j :=
  complete_nonneg (fun _ => le_refl 0) (fun row hrow => row.lhs_zero.trans_le (hrhs row hrow)) j

/-- Along a column that no row bounds there are points that are not negative. -/
theorem complete_single_nonneg (hrhs : ∀ row ∈ t, 0 ≤ row.rhs)
    (hleave : leaving? .exact t c = none) {a : Rat} (ha : 0 ≤ a) (j : Fin w) :
    0 ≤ t.complete (Pi.single c a) j := by
  refine complete_nonneg (fun k => ?_) (fun row hrow => ?_) j
  · rw [Pi.single_apply]
    split
    · exact ha
    · exact le_refl 0
  · rw [row.lhs_single]
    exact (mul_nonpos_of_nonpos_of_nonneg (leaving?_none hleave row hrow) ha).trans (hrhs row hrow)

/-- A column with a reduced cost off zero is not basic. -/
theorem IsPriced.not_isBasic (h : t.IsPriced cost reduced) (hc : reduced.get c < 0) :
    ¬ t.IsBasic c := by
  rintro ⟨row, hrow, rfl⟩
  rw [h.basic row hrow] at hc
  exact lt_irrefl 0 hc

/-- The cost changes along a column at the rate of its reduced cost. -/
theorem IsPriced.costOf_complete_single (h : t.IsPriced cost reduced) (hsolved : t.IsSolved)
    (hc : reduced.get c < 0) (a : Rat) :
    costOf cost (t.complete (Pi.single c a)) = costOf cost t.point + reduced.get c * a := by
  have hbasic := h.not_isBasic hc
  rw [h.costOf_eq hsolved (hsolved.complete_single hbasic a)]
  congr 1
  rw [costOf, Finset.sum_eq_single c]
  · rw [complete_of_not_isBasic _ hbasic, Pi.single_eq_same]
  · intro j _ hj
    by_cases hb : t.IsBasic j
    · rcases hb with ⟨row, hrow, rfl⟩
      rw [h.basic row hrow, zero_mul]
    · rw [complete_of_not_isBasic _ hb, Pi.single_eq_of_ne hj, mul_zero]
  · exact fun h => absurd (Finset.mem_univ _) h

/-- Far enough along such a column the cost is below any bound. -/
theorem IsPriced.exists_costOf_lt (h : t.IsPriced cost reduced) (hsolved : t.IsSolved)
    (hc : reduced.get c < 0) (K : Rat) :
    ∃ a, 0 ≤ a ∧ costOf cost (t.complete (Pi.single c a)) < K := by
  refine ⟨(|costOf cost t.point - K| + 1) / -reduced.get c,
    div_nonneg (by positivity) (neg_nonneg.mpr hc.le), ?_⟩
  rw [h.costOf_complete_single hsolved hc, ← neg_mul_neg, mul_neg, mul_div_cancel₀ _ (by linarith)]
  have habs := le_abs_self (costOf cost t.point - K)
  linarith

end Tableau

/-- A row is solved for a proper column, or it says nothing about any. -/
def TableauRow.IsSettled (row : TableauRow Rat w) (firstArtificial : Nat) : Prop :=
  row.basic.val < firstArtificial ∨
    (row.rhs = 0 ∧ ∀ j : Fin w, j.val < firstArtificial → row.coeff j = 0)

namespace StandardForm

open Tableau

/-- A tableau of the rows that has a point of its own. -/
structure IsReached (s : StandardForm Rat) (t : Tableau Rat s.width) : Prop where
  solved : t.IsSolved
  nonneg : ∀ row ∈ t, 0 ≤ row.rhs
  satisfies_iff : ∀ x, t.Satisfies x ↔ s.tableau.Satisfies x

/-- A tableau of the rows that the artificial columns have left. -/
structure IsReady (s : StandardForm Rat) (t : Tableau Rat s.width) : Prop extends
    s.IsReached t where
  settled : ∀ row ∈ t, row.IsSettled s.firstArtificial

variable {s : StandardForm Rat} {t : Tableau Rat s.width} {row : TableauRow Rat s.width}
  {cost reduced : Vector Rat s.width} {c : Fin s.width} {r : Nat} {allowed : Fin s.width → Bool}

theorem tableau_isReached (hfit : s.IsFit) : s.IsReached s.tableau where
  solved := tableau_isSolved hfit
  nonneg tableauRow h := by
    rcases List.mem_iff_getElem?.mp h with ⟨i, hi⟩
    rcases getElem?_tableau hfit hi with ⟨row, hrow, hrep⟩
    rw [hrep.rhs]
    exact hfit.nonneg row (List.mem_of_getElem? hrow)
  satisfies_iff _ := Iff.rfl

theorem IsReached.pivot (h : s.IsReached t) (hr : t[r]? = some row) (hc : row.coeff c ≠ 0)
    (hrhs : ∀ row ∈ t.pivot .exact r c, 0 ≤ row.rhs) : s.IsReached (t.pivot .exact r c) where
  solved := h.solved.pivot hr hc
  nonneg := hrhs
  satisfies_iff x := (pivot_satisfies_iff hr hc x).trans (h.satisfies_iff x)

/-- What a pivot of a run keeps. -/
theorem IsReached.step (h : s.IsReached t) (hpriced : t.IsPriced cost reduced)
    {b : Bounding Rat s.width} (hleave : leaving? .exact t c = some b)
    (hrow : t[b.position]? = some row) :
    row.coeff c ≠ 0 ∧ s.IsReached (t.pivot .exact b.position c) ∧
      (t.pivot .exact b.position c).IsPriced cost (priceOut reduced (row.normalize c) c) := by
  have hne := (leaving?_some hleave hrow).1.ne'
  exact ⟨hne, h.pivot hrow hne (pivot_rhs_nonneg hleave hrow h.nonneg),
    hpriced.pivot h.solved hrow hne⟩

/-! ### The first phase -/

theorem costOf_phaseOneCost (x : Fin s.width → Rat) :
    costOf s.phaseOneCost x = ∑ j, if j.val < s.firstArtificial then 0 else x j := by
  refine Finset.sum_congr rfl fun j _ => ?_
  have hget : s.phaseOneCost.get j = if j.val < s.firstArtificial then 0 else 1 :=
    Vector.getElem_ofFn j.isLt
  rw [hget]
  split
  · exact zero_mul _
  · exact one_mul _

/-- The first phase never has negative costs. -/
theorem costOf_phaseOneCost_nonneg {x : Fin s.width → Rat} (hx : ∀ j, 0 ≤ x j) :
    0 ≤ costOf s.phaseOneCost x := by
  rw [costOf_phaseOneCost]
  refine Finset.sum_nonneg fun j _ => ?_
  split
  · exact le_refl 0
  · exact hx j

/-- Points of the rows cost nothing in the first phase. -/
theorem costOf_phaseOneCost_eq_zero_iff {x : Fin s.width → Rat} (hx : ∀ j, 0 ≤ x j) :
    costOf s.phaseOneCost x = 0 ↔ ∀ j, s.firstArtificial ≤ j.val → x j = 0 := by
  rw [costOf_phaseOneCost, Finset.sum_eq_zero_iff_of_nonneg]
  · refine ⟨fun h j hj => ?_, fun h j _ => ?_⟩
    · have hzero := h j (Finset.mem_univ j)
      rwa [if_neg (not_lt.mpr hj)] at hzero
    · split
      · rfl
      · next hj => exact h j (not_lt.mp hj)
  · intro j _
    split
    · exact le_refl 0
    · exact hx j

/-- What is left in the artificial columns is what the tableau's point costs. -/
theorem residual_eq (h : t.IsSolved) : s.residual t = costOf s.phaseOneCost t.point := by
  rw [h.costOf_point, residual, Scalar.sum, ← List.sum_eq_foldl]
  have hlist : ∀ rows : List (TableauRow Rat s.width),
      ((rows.filter fun row => decide (s.firstArtificial ≤ row.basic.val)).map (·.rhs)).sum
        = (rows.map fun row => s.phaseOneCost.get row.basic * row.rhs).sum := by
    intro rows
    induction rows with
    | nil => rfl
    | cons row rest ih =>
        have hget : s.phaseOneCost.get row.basic
            = if row.basic.val < s.firstArtificial then 0 else 1 :=
          Vector.getElem_ofFn row.basic.isLt
        rw [List.filter_cons, List.map_cons, List.sum_cons, hget, ← ih]
        by_cases hlt : row.basic.val < s.firstArtificial
        · rw [if_neg (by simpa using hlt), if_pos hlt, zero_mul, zero_add]
        · rw [if_pos (by simpa using hlt), if_neg hlt, one_mul, List.map_cons, List.sum_cons]
  exact hlist t

/-- If something is left in the artificial columns, the rows have no point. -/
theorem no_point_of_residual (h : s.IsReached t) (hpriced : t.IsPriced s.phaseOneCost reduced)
    (henter : entering? .exact (fun _ => true) reduced = none) (hres : 0 < s.residual t)
    (x : Fin s.width → Rat) : ¬ s.IsPoint s.tableau x := by
  intro hx
  have hle := hpriced.costOf_point_le h.solved henter ((h.satisfies_iff x).mpr hx.satisfies)
    hx.nonneg fun _ hj => by cases hj
  rw [← residual_eq h.solved, (costOf_phaseOneCost_eq_zero_iff hx.nonneg).mpr hx.proper] at hle
  exact absurd hres (not_lt.mpr hle)

/-- If nothing is, the rows of artificial columns have zero right-hand sides. -/
theorem rhs_eq_zero_of_residual (h : s.IsReached t) (hres : ¬ 0 < s.residual t) :
    ∀ row ∈ t, s.firstArtificial ≤ row.basic.val → row.rhs = 0 := by
  intro row hrow hbasic
  have hnonneg := point_nonneg h.nonneg
  rw [residual_eq h.solved] at hres
  have hzero := le_antisymm (not_lt.mp hres) (costOf_phaseOneCost_nonneg hnonneg)
  rw [← h.solved.point_basic hrow]
  exact (costOf_phaseOneCost_eq_zero_iff hnonneg).mp hzero row.basic hbasic

/-- A pivot keeps settled rows settled, if it is on a proper column. -/
theorem isSettled_eliminate (hc : c.val < s.firstArtificial) (other : TableauRow Rat s.width)
    (h : row.IsSettled s.firstArtificial) :
    (row.eliminate .exact other c).IsSettled s.firstArtificial := by
  rcases h with h | ⟨hrhs, hcoeffs⟩
  · left
    rw [TableauRow.eliminate_basic]
    exact h
  · rw [row.eliminate_of_zero other c (hcoeffs c hc)]
    exact .inr ⟨hrhs, hcoeffs⟩

/-- A pivot on a row with a zero right-hand side leaves all right-hand sides. -/
theorem pivot_rhs_of_zero (hr : t[r]? = some row) (hrhs : row.rhs = 0)
    {k : Nat} {after : TableauRow Rat s.width} (hk : (t.pivot .exact r c)[k]? = some after) :
    ∃ other, t[k]? = some other ∧ after.rhs = other.rhs := by
  have hzero : (row.normalize c).rhs = 0 := by rw [row.normalize_rhs, hrhs, zero_div]
  rw [getElem?_pivot .exact hr] at hk
  rcases Option.map_eq_some_iff.mp hk with ⟨other, hother, rfl⟩
  refine ⟨other, hother, ?_⟩
  split
  · next hkr =>
    subst hkr
    cases hr.symm.trans hother
    rw [hzero, hrhs]
  · rw [other.eliminate_rhs, hzero, mul_zero, sub_zero]

/-- The tableaus while artificial columns are exchanged: the rows before some
    position are settled, and nothing is in the artificial columns. -/
structure IsExpelled (s : StandardForm Rat) (t : Tableau Rat s.width) (n : Nat) : Prop extends
    s.IsReached t where
  empty : ∀ row ∈ t, s.firstArtificial ≤ row.basic.val → row.rhs = 0
  settled : ∀ k row, k < n → t[k]? = some row → row.IsSettled s.firstArtificial

/-- A row with nothing in its artificial column is solved for another one. -/
theorem IsExpelled.pivot {i : Nat} (h : s.IsExpelled t i) (hi : t[i]? = some row)
    (hrhs : row.rhs = 0) (hc : c.val < s.firstArtificial) (hcoeff : row.coeff c ≠ 0) :
    s.IsExpelled (t.pivot .exact i c) (i + 1) := by
  refine ⟨h.toIsReached.pivot hi hcoeff fun after hafter => ?_, fun after hafter hart => ?_,
    fun k after hk hafter => ?_⟩
  · rcases List.mem_iff_getElem?.mp hafter with ⟨k, hk⟩
    rcases pivot_rhs_of_zero hi hrhs hk with ⟨other, hother, heq⟩
    rw [heq]
    exact h.nonneg other (List.mem_of_getElem? hother)
  · rcases mem_pivot_cases hi hafter with rfl | ⟨k, other, _, hother, rfl⟩
    · exact absurd hc (not_lt.mpr hart)
    · rw [TableauRow.eliminate_basic] at hart
      rw [other.eliminate_rhs, row.normalize_rhs, hrhs, zero_div, mul_zero, sub_zero]
      exact h.empty other (List.mem_of_getElem? hother) hart
  · rw [getElem?_pivot .exact hi] at hafter
    rcases Option.map_eq_some_iff.mp hafter with ⟨other, hother, rfl⟩
    split
    · exact .inl hc
    · next hki =>
      exact isSettled_eliminate hc _
        (h.settled k other (lt_of_le_of_ne (Nat.lt_succ_iff.mp hk) hki) hother)

/-- A row that is settled already can stay as it is. -/
theorem IsExpelled.stay {i : Nat} (h : s.IsExpelled t i)
    (hi : ∀ row, t[i]? = some row → row.IsSettled s.firstArtificial) :
    s.IsExpelled t (i + 1) := by
  refine ⟨h.toIsReached, h.empty, fun k row hk hrow => ?_⟩
  rcases Nat.lt_succ_iff_lt_or_eq.mp hk with hlt | rfl
  · exact h.settled k row hlt hrow
  · exact hi row hrow

/-- One more row is settled. -/
theorem IsExpelled.expel {i : Nat} (h : s.IsExpelled t i) :
    s.IsExpelled (s.expel .exact t i) (i + 1) := by
  rw [StandardForm.expel]
  cases hi : t[i]? with
  | none => exact h.stay fun row hrow => by cases hi.symm.trans hrow
  | some row =>
      have hstay : row.IsSettled s.firstArtificial → s.IsExpelled t (i + 1) := by
        intro hsettled
        refine h.stay fun other hother => ?_
        cases hi.symm.trans hother
        exact hsettled
      by_cases hbasic : row.basic.val < s.firstArtificial
      · simp only [if_pos hbasic]
        exact hstay (.inl hbasic)
      · simp only [if_neg hbasic]
        have hrhs := h.empty row (List.mem_of_getElem? hi) (not_lt.mp hbasic)
        split
        · next j hfind =>
          have hj := List.find?_some hfind
          rw [Bool.and_eq_true, decide_eq_true_iff, decide_eq_true_iff, Scalar.abs_rat] at hj
          exact h.pivot hi hrhs hj.1 (abs_pos.mp hj.2)
        · next hfind =>
          -- The row has no proper column left.
          refine hstay (.inr ⟨hrhs, fun j hj => ?_⟩)
          have hnone := List.find?_eq_none.mp hfind j (List.mem_finRange j)
          by_contra hcoeff
          refine hnone ?_
          rw [Bool.and_eq_true, decide_eq_true_iff, decide_eq_true_iff, Scalar.abs_rat]
          exact ⟨hj, abs_pos.mpr hcoeff⟩

theorem length_expel (tol : Tolerances Rat) (i : Nat) : (s.expel tol t i).length = t.length := by
  rw [expel]
  split
  · rfl
  · split
    · rfl
    · dsimp only
      split
      · exact length_pivot tol
      · rfl

theorem foldl_expel_succ (tol : Tolerances Rat) (n : Nat) :
    (List.range (n + 1)).foldl (s.expel tol) t
      = s.expel tol ((List.range n).foldl (s.expel tol) t) n := by
  rw [List.range_succ, List.foldl_append, List.foldl_cons, List.foldl_nil]

/-- The first rows are settled after as many exchanges. -/
theorem isExpelled_foldl (h : s.IsReached t)
    (hempty : ∀ row ∈ t, s.firstArtificial ≤ row.basic.val → row.rhs = 0) (n : Nat) :
    s.IsExpelled ((List.range n).foldl (s.expel .exact) t) n := by
  induction n with
  | zero => exact ⟨h, hempty, fun k row hk => absurd hk (Nat.not_lt_zero k)⟩
  | succ n ih =>
      rw [foldl_expel_succ]
      exact ih.expel

theorem length_foldl_expel (tol : Tolerances Rat) (n : Nat) :
    ((List.range n).foldl (s.expel tol) t).length = t.length := by
  induction n with
  | zero => rfl
  | succ n ih =>
      rw [foldl_expel_succ, length_expel, ih]

/-- All rows are settled in the end. -/
theorem isReady_expelAll (h : s.IsReached t)
    (hempty : ∀ row ∈ t, s.firstArtificial ≤ row.basic.val → row.rhs = 0) :
    s.IsReady (s.expelAll .exact t) := by
  have hall := isExpelled_foldl h hempty t.length
  refine ⟨hall.toIsReached, fun row hrow => ?_⟩
  rcases List.mem_iff_getElem?.mp hrow with ⟨k, hk⟩
  have hlt := (List.getElem?_eq_some_iff.mp hk).1
  rw [expelAll, length_foldl_expel] at hlt
  exact hall.settled k row hlt hk

/-- The first phase finds a tableau of the rows, or that they have no point. -/
theorem phaseOne_cases (hfit : s.IsFit) (pivots : Nat) :
    match s.phaseOne .exact pivots with
    | .reached t => s.IsReady t
    | .infeasible => ∀ x, ¬ s.IsPoint s.tableau x
    | .stalled => True := by
  by_cases hnone : s.artificials = 0
  · rw [phaseOne, if_pos hnone]
    refine ⟨tableau_isReached hfit, fun row _ => .inl ?_⟩
    exact row.basic.isLt.trans_eq (by rw [width, hnone, Nat.add_zero])
  · rw [phaseOne, if_neg hnone]
    have hreached := tableau_isReached hfit
    have hrun := optimizeFrom_induction
      (P := fun t reduced => s.IsReached t ∧ t.IsPriced s.phaseOneCost reduced)
      (fun t reduced c b row h (_ : entering? .exact (fun _ => true) reduced = some c) hleave
          hrow =>
        (h.1.step h.2 hleave hrow).2) pivots
      ⟨hreached, isPriced_reducedCosts hreached.solved s.phaseOneCost⟩
    rw [optimize]
    split at hrun
    · next t heq =>
      rcases hrun with ⟨reduced, ⟨h, hpriced⟩, henter⟩
      rw [heq]
      dsimp only
      by_cases hres : (Tolerances.exact : Tolerances Rat).residual < s.residual t
      · rw [if_pos hres]
        exact no_point_of_residual h hpriced henter hres
      · rw [if_neg hres]
        exact isReady_expelAll h (rhs_eq_zero_of_residual h hres)
    · next t heq =>
      -- The costs of the first phase are never negative, so it cannot be unbounded.
      rcases hrun with ⟨reduced, c, ⟨h, hpriced⟩, henter, hleave⟩
      have hc := (entering?_some henter).2
      rcases hpriced.exists_costOf_lt h.solved hc 0 with ⟨a, ha, hlt⟩
      exact absurd hlt (not_lt.mpr
        (costOf_phaseOneCost_nonneg (complete_single_nonneg h.nonneg hleave ha)))
    · next heq =>
      rw [heq]
      trivial

/-! ### The second phase -/

/-- The point of a tableau that is ready has nothing in the artificial columns. -/
theorem IsReady.isPoint (h : s.IsReady t) : s.IsPoint s.tableau t.point where
  satisfies := (h.satisfies_iff _).mp h.solved.point_satisfies
  nonneg := point_nonneg h.nonneg
  proper j hj := by
    by_cases hbasic : t.IsBasic j
    · rcases hbasic with ⟨row, hrow, rfl⟩
      rw [h.solved.point_basic hrow]
      rcases h.settled row hrow with hlt | ⟨hrhs, _⟩
      · exact absurd hlt (not_lt.mpr hj)
      · exact hrhs
    · exact point_of_not_isBasic hbasic

/-- Along a proper column it still has nothing in them. -/
theorem IsReady.isPoint_complete_single (h : s.IsReady t) (hpriced : t.IsPriced cost reduced)
    (hneg : reduced.get c < 0) (hc : c.val < s.firstArtificial)
    (hleave : leaving? .exact t c = none) {a : Rat} (ha : 0 ≤ a) :
    s.IsPoint s.tableau (t.complete (Pi.single c a)) where
  satisfies := (h.satisfies_iff _).mp (h.solved.complete_single (hpriced.not_isBasic hneg) a)
  nonneg := complete_single_nonneg h.nonneg hleave ha
  proper j hj := by
    by_cases hbasic : t.IsBasic j
    · rcases hbasic with ⟨row, hrow, rfl⟩
      rw [h.solved.complete_basic _ hrow, row.lhs_single]
      rcases h.settled row hrow with hlt | ⟨hrhs, hcoeffs⟩
      · exact absurd hlt (not_lt.mpr hj)
      · rw [hrhs, hcoeffs c hc, zero_mul, sub_zero]
    · rw [complete_of_not_isBasic _ hbasic, Pi.single_eq_of_ne]
      rintro rfl
      exact absurd hc (not_lt.mpr hj)

/-- What a pivot of the second phase keeps. -/
theorem IsReady.step (h : s.IsReady t) (hpriced : t.IsPriced cost reduced)
    (hc : c.val < s.firstArtificial) {b : Bounding Rat s.width}
    (hleave : leaving? .exact t c = some b) (hrow : t[b.position]? = some row) :
    s.IsReady (t.pivot .exact b.position c) ∧
      (t.pivot .exact b.position c).IsPriced cost (priceOut reduced (row.normalize c) c) := by
  rcases h.toIsReached.step hpriced hleave hrow with ⟨_, hreached, hpriced'⟩
  refine ⟨⟨hreached, fun after hafter => ?_⟩, hpriced'⟩
  rcases mem_pivot_cases hrow hafter with rfl | ⟨k, other, _, hother, rfl⟩
  · exact .inl hc
  · exact isSettled_eliminate hc _ (h.settled other (List.mem_of_getElem? hother))

/-- The second phase finds a best point of the rows, or points of any cost. -/
theorem phaseTwo_cases (h : s.IsReady t) (cost : Vector Rat s.width) (pivots : Nat) :
    match t.optimize .exact pivots cost fun j => j.val < s.firstArtificial with
    | .optimal t' => s.IsReady t' ∧
        ∀ x, s.IsPoint s.tableau x → costOf cost t'.point ≤ costOf cost x
    | .unbounded _ => ∀ K, ∃ x, s.IsPoint s.tableau x ∧ costOf cost x < K
    | .stalled => True := by
  have hrun := optimizeFrom_induction (P := fun t reduced => s.IsReady t ∧ t.IsPriced cost reduced)
    (fun t reduced c b row h
        (henter : entering? .exact (fun j => j.val < s.firstArtificial) reduced = some c) hleave
        hrow =>
      h.1.step h.2 (of_decide_eq_true (entering?_some henter).1) hleave hrow) pivots
    ⟨h, isPriced_reducedCosts h.solved cost⟩
  rw [optimize]
  split at hrun
  · next t' heq =>
    rcases hrun with ⟨reduced, ⟨hready, hpriced⟩, henter⟩
    rw [heq]
    refine ⟨hready, fun x hx => ?_⟩
    refine hpriced.costOf_point_le hready.solved henter
      ((hready.satisfies_iff x).mpr hx.satisfies) hx.nonneg fun j hj => ?_
    exact hx.proper j (not_lt.mp (of_decide_eq_false hj))
  · next t' heq =>
    rcases hrun with ⟨reduced, c, ⟨hready, hpriced⟩, henter, hleave⟩
    rw [heq]
    intro K
    rcases entering?_some henter with ⟨hc, hneg⟩
    rcases hpriced.exists_costOf_lt hready.solved hneg K with ⟨a, ha, hlt⟩
    exact ⟨_, hready.isPoint_complete_single hpriced hneg (of_decide_eq_true hc) hleave ha, hlt⟩
  · next heq =>
    rw [heq]
    trivial

end StandardForm

end CyclePlan
