import Mathlib.Data.Prod.Lex
import CyclePlan.Proofs.Simplex.Rows

/-!
# Runs of Pivots

Why pivoting ends at a best point, or finds that there is none.

The reduced costs of a tableau are costs too. On the points of the tableau they
differ from the given ones by a constant, and they vanish on the basic columns
(`IsPriced`). A point of the tableau therefore costs what the tableau's own
point costs, and its reduced costs on top (`IsPriced.costOf_eq`). If no reduced
cost is negative, no point whose columns are not negative is cheaper.

The row that leaves is one of those that bound the entering column most tightly,
so a pivot keeps the right-hand sides from getting negative (`pivot_rhs_nonneg`).
Of rows that are equally tight, the one with the first basic column leaves, which
makes the choice a least element in the lexicographic order (`Bounding.rank`). If
no row bounds it, the column can grow without end.

`optimizeFrom_induction` follows a run: whatever every single pivot keeps holds of
the tableau at which the run stops, and the run stops only where no column can
enter or no row bounds the one that does.

## Main definitions

* `costOf`: What a point costs.
* `Tableau.IsPriced`: Reduced costs belong to a tableau.
* `Tableau.Bounding.rank`: What a row is preferred for.

## Theorems

* `Tableau.isPriced_reducedCosts`, `Tableau.IsPriced.pivot`: Reduced costs are computed,
  and kept by a pivot.
* `Tableau.entering?_eq_none_iff`, `Tableau.nonneg_of_entering?`, `Tableau.leaving?_some`,
  `Tableau.rank_le_of_leaving?`, `Tableau.leaving?_none`: What the choices mean.
* `Tableau.optimizeFrom_induction`: What a run keeps.
-/

namespace CyclePlan

variable {w : Nat}

/-- What a point costs. -/
def costOf (cost : Vector Rat w) (x : Fin w → Rat) : Rat := ∑ j, cost.get j * x j

namespace Tableau

variable {t : Tableau Rat w} {row : TableauRow Rat w} {cost reduced : Vector Rat w}
  {x : Fin w → Rat} {c : Fin w} {r : Nat}

/-! ### Reduced costs -/

/-- Reduced costs belong to a tableau: they vanish on its basic columns, and they
    differ from the costs by a constant on its points. -/
structure IsPriced (t : Tableau Rat w) (cost reduced : Vector Rat w) : Prop where
  basic : ∀ row ∈ t, reduced.get row.basic = 0
  shift : ∃ k, ∀ x, t.Satisfies x → costOf cost x = k + costOf reduced x

/-- A point that vanishes wherever the reduced costs do not costs nothing. -/
theorem IsPriced.costOf_point (h : t.IsPriced cost reduced) : costOf reduced t.point = 0 := by
  refine Finset.sum_eq_zero fun j _ => ?_
  by_cases hj : t.IsBasic j
  · rcases hj with ⟨row, hrow, rfl⟩
    rw [h.basic row hrow, zero_mul]
  · rw [point_of_not_isBasic hj, mul_zero]

/-- Any point costs what the tableau's point costs, and the reduced costs on top. -/
theorem IsPriced.costOf_eq (h : t.IsPriced cost reduced) (hsolved : t.IsSolved)
    (hx : t.Satisfies x) : costOf cost x = costOf cost t.point + costOf reduced x := by
  rcases h.shift with ⟨k, hk⟩
  rw [hk x hx, hk t.point hsolved.point_satisfies, h.costOf_point, add_zero]

/-- The reduced costs in closed form. -/
theorem get_reducedCosts (t : Tableau Rat w) (cost : Vector Rat w) (j : Fin w) :
    (t.reducedCosts cost).get j
      = cost.get j - (t.map fun row => cost.get row.basic * row.coeff j).sum := by
  -- The rows are taken off one after the other, from whatever is left.
  have hfold : ∀ (rows : List (TableauRow Rat w)) (start : Vector Rat w),
      (rows.foldl (fun reduced row =>
          if (cost[row.basic] == 0) = true then reduced
          else reduced.zipWith (fun v a => v - cost[row.basic] * a) row.coeffs) start).get j
        = start.get j - (rows.map fun row => cost.get row.basic * row.coeff j).sum := by
    intro rows
    induction rows with
    | nil =>
        intro start
        rw [List.foldl_nil, List.map_nil, List.sum_nil, sub_zero]
    | cons row rest ih =>
        intro start
        rw [List.foldl_cons, ih, List.map_cons, List.sum_cons, ← sub_sub]
        congr 1
        split
        · next hzero =>
          have hcost : cost.get row.basic = 0 := beq_iff_eq.mp hzero
          rw [hcost, zero_mul, sub_zero]
        · exact Vector.getElem_zipWith j.isLt
  exact hfold t cost

/-- Sums over the rows of a solved tableau pick out a row by its basic column. -/
theorem IsSolved.sum_coeff_basic (h : t.IsSolved) (f : TableauRow Rat w → Rat) (hrow : row ∈ t) :
    (t.map fun other => f other * other.coeff row.basic).sum = f row := by
  rcases List.mem_iff_getElem.mp hrow with ⟨k, hk, hget⟩
  rw [← Fin.sum_univ_fun_getElem, Finset.sum_eq_single ⟨k, hk⟩]
  · have hself := h k k row row (List.getElem?_eq_some_iff.mpr ⟨hk, hget⟩)
      (List.getElem?_eq_some_iff.mpr ⟨hk, hget⟩)
    rw [hget, hself, if_pos rfl, mul_one]
  · intro i _ hi
    have hne : i.val ≠ k := fun heq => hi (Fin.ext heq)
    rw [h i.val k _ row (List.getElem?_eq_getElem i.isLt)
      (List.getElem?_eq_some_iff.mpr ⟨hk, hget⟩), if_neg hne, mul_zero]
  · exact fun hc => absurd (Finset.mem_univ _) hc

/-- Computed reduced costs are less than the costs by what the rows take off. -/
theorem costOf_reducedCosts (cost : Vector Rat w) (hx : t.Satisfies x) :
    costOf (t.reducedCosts cost) x
      = costOf cost x - (t.map fun row => cost.get row.basic * row.rhs).sum := by
  have hrows : ∑ j, (t.map fun row => cost.get row.basic * row.coeff j).sum * x j
      = (t.map fun row => cost.get row.basic * row.rhs).sum := by
    calc ∑ j, (t.map fun row => cost.get row.basic * row.coeff j).sum * x j
        = ∑ j, ∑ i : Fin t.length, cost.get t[i.val].basic * (t[i.val].coeff j * x j) := by
          refine Finset.sum_congr rfl fun j _ => ?_
          rw [← Fin.sum_univ_fun_getElem, Finset.sum_mul]
          exact Finset.sum_congr rfl fun i _ => mul_assoc _ _ _
      _ = ∑ i : Fin t.length, cost.get t[i.val].basic * t[i.val].rhs := by
          rw [Finset.sum_comm]
          refine Finset.sum_congr rfl fun i _ => ?_
          rw [← Finset.mul_sum]
          exact congrArg _ (hx _ (List.getElem_mem i.isLt))
      _ = (t.map fun row => cost.get row.basic * row.rhs).sum :=
          Fin.sum_univ_fun_getElem t fun row => cost.get row.basic * row.rhs
  rw [costOf, costOf, ← hrows, ← Finset.sum_sub_distrib]
  refine Finset.sum_congr rfl fun j _ => ?_
  rw [get_reducedCosts, sub_mul]

/-- The computed reduced costs are reduced costs. -/
theorem isPriced_reducedCosts (h : t.IsSolved) (cost : Vector Rat w) :
    t.IsPriced cost (t.reducedCosts cost) := by
  constructor
  · intro row hrow
    rw [get_reducedCosts, h.sum_coeff_basic (fun row => cost.get row.basic) hrow, sub_self]
  · refine ⟨(t.map fun row => cost.get row.basic * row.rhs).sum, fun x hx => ?_⟩
    rw [costOf_reducedCosts cost hx, add_sub_cancel]

/-- What the tableau's own point costs. -/
theorem IsSolved.costOf_point (h : t.IsSolved) (cost : Vector Rat w) :
    costOf cost t.point = (t.map fun row => cost.get row.basic * row.rhs).sum := by
  have hzero := (isPriced_reducedCosts h cost).costOf_point
  rw [costOf_reducedCosts cost h.point_satisfies] at hzero
  exact sub_eq_zero.mp hzero

theorem get_priceOut {pivotRow : TableauRow Rat w} (hunit : pivotRow.coeff c = 1)
    (reduced : Vector Rat w) (j : Fin w) :
    (priceOut reduced pivotRow c).get j = reduced.get j - reduced.get c * pivotRow.coeff j := by
  by_cases hf : reduced.get c = 0
  · have hsame : priceOut reduced pivotRow c = reduced := if_pos (beq_iff_eq.mpr hf)
    rw [hsame, hf, zero_mul, sub_zero]
  · have hpriced : priceOut reduced pivotRow c
        = (reduced.zipWith (fun v p => v - reduced.get c * p) pivotRow.coeffs).set c 0 :=
      if_neg (mt beq_iff_eq.mp hf)
    rw [hpriced]
    by_cases hj : j = c
    · subst hj
      rw [hunit, mul_one, sub_self]
      exact Vector.getElem_set_self j.isLt
    · have hne : c.val ≠ j.val := fun h => hj (Fin.ext h.symm)
      exact (Vector.getElem_set_ne c.isLt j.isLt hne).trans (Vector.getElem_zipWith j.isLt)

/-- Reduced costs are kept by a pivot. -/
theorem IsPriced.pivot (h : t.IsPriced cost reduced) (hsolved : t.IsSolved)
    (hr : t[r]? = some row) (hc : row.coeff c ≠ 0) :
    (t.pivot .exact r c).IsPriced cost (priceOut reduced (row.normalize c) c) := by
  have hself := row.normalize_coeff_self c hc
  constructor
  · intro after hafter
    rw [get_priceOut hself]
    rcases mem_pivot_cases hr hafter with rfl | ⟨k, other, hkr, hk, rfl⟩
    · rw [row.normalize_basic, hself, mul_one, sub_self]
    · -- The basic column of another row occurs neither in the costs nor in the pivot row.
      rw [TableauRow.eliminate_basic, h.basic other (List.mem_of_getElem? hk),
        row.normalize_coeff, hsolved r k row other hr hk, if_neg (Ne.symm hkr), zero_div, mul_zero,
        sub_zero]
  · rcases h.shift with ⟨k, hk⟩
    refine ⟨k + reduced.get c * (row.normalize c).rhs, fun x hx => ?_⟩
    have hrow : (row.normalize c).lhs x = (row.normalize c).rhs := hx _ (mem_pivot_self .exact hr)
    have hpriced : costOf (priceOut reduced (row.normalize c) c) x
        = costOf reduced x - reduced.get c * (row.normalize c).rhs := by
      rw [← hrow, costOf, costOf, TableauRow.lhs, Finset.mul_sum, ← Finset.sum_sub_distrib]
      refine Finset.sum_congr rfl fun j _ => ?_
      rw [get_priceOut hself]
      ring
    rw [hk x ((pivot_satisfies_iff hr hc x).mp hx), hpriced]
    ring

/-! ### The choice of a pivot -/

/-- No column enters exactly if no allowed one has a negative reduced cost. -/
theorem entering?_eq_none_iff {allowed : Fin w → Bool} :
    entering? .exact allowed reduced = none ↔ ∀ j, allowed j = true → 0 ≤ reduced.get j := by
  rw [entering?, List.find?_eq_none]
  refine ⟨fun h j hj => ?_, fun h j _ hj => ?_⟩
  · by_contra hneg
    refine h j (List.mem_finRange j) ?_
    rw [hj, Bool.true_and, decide_eq_true_iff]
    exact (not_le.mp hneg).trans_eq neg_zero.symm
  · rw [Bool.and_eq_true, decide_eq_true_iff] at hj
    exact absurd (hj.2.trans_eq neg_zero) (not_lt.mpr (h j hj.1))

/-- The column that enters is allowed and has a negative reduced cost. -/
theorem entering?_some {allowed : Fin w → Bool}
    (h : entering? .exact allowed reduced = some c) : allowed c = true ∧ reduced.get c < 0 := by
  have hc := List.find?_some h
  rw [Bool.and_eq_true, decide_eq_true_iff] at hc
  exact ⟨hc.1, hc.2.trans_eq neg_zero⟩

/-- No allowed column before the one that enters has a negative reduced cost. -/
theorem nonneg_of_entering? {allowed : Fin w → Bool}
    (h : entering? .exact allowed reduced = some c) {j : Fin w} (hj : allowed j = true)
    (hlt : j < c) : 0 ≤ reduced.get j := by
  rcases List.find?_eq_some_iff_getElem.mp h with ⟨_, i, hi, hget, hbefore⟩
  rw [List.getElem_finRange] at hget
  have hji : j.val < i := by
    rw [← hget] at hlt
    exact hlt
  have hpassed := hbefore j.val hji
  rw [List.getElem_finRange, Bool.not_eq_true'] at hpassed
  by_contra hneg
  refine Bool.eq_false_iff.mp hpassed (Bool.and_eq_true_iff.mpr ⟨hj, decide_eq_true ?_⟩)
  exact (not_le.mp hneg).trans_eq neg_zero.symm

/-- One more row is looked at. -/
theorem tighten_cases (tol : Tolerances Rat) (c : Fin w) (best : Option (Bounding Rat w))
    (p : TableauRow Rat w × Nat) :
    (p.1.coeff c ≤ tol.pivot ∧ tighten tol c best p = best) ∨
      (tol.pivot < p.1.coeff c ∧
        ((tighten tol c best p = some ⟨p.2, p.1.rhs / p.1.coeff c, p.1.basic⟩ ∧
            ∀ old, best = some old →
              Bounding.beats tol ⟨p.2, p.1.rhs / p.1.coeff c, p.1.basic⟩ old = true) ∨
          ∃ old, best = some old ∧ tighten tol c best p = some old ∧
            Bounding.beats tol ⟨p.2, p.1.rhs / p.1.coeff c, p.1.basic⟩ old = false)) := by
  by_cases ha : p.1.coeff c ≤ tol.pivot
  · exact .inl ⟨ha, if_pos ha⟩
  · refine .inr ⟨not_le.mp ha, ?_⟩
    cases best with
    | none => exact .inl ⟨if_neg ha, fun old h => by cases h⟩
    | some old =>
        cases hbeats : Bounding.beats tol ⟨p.2, p.1.rhs / p.1.coeff c, p.1.basic⟩ old with
        | true =>
            refine .inl ⟨(if_neg ha).trans (if_pos hbeats), fun old' h => ?_⟩
            cases h
            exact hbeats
        | false =>
            have hkept := Bool.eq_false_iff.mp hbeats
            exact .inr ⟨old, rfl, (if_neg ha).trans (if_neg hkept), hbeats⟩

/-- A bound comes from a row, or was there before. -/
theorem bounding_of_foldl (tol : Tolerances Rat) (c : Fin w) {ps : List (TableauRow Rat w × Nat)}
    {best : Option (Bounding Rat w)} {b : Bounding Rat w}
    (h : ps.foldl (tighten tol c) best = some b) :
    best = some b ∨ ∃ p ∈ ps, tol.pivot < p.1.coeff c ∧
      b = ⟨p.2, p.1.rhs / p.1.coeff c, p.1.basic⟩ := by
  induction ps generalizing best with
  | nil => exact .inl h
  | cons p ps ih =>
      rcases ih h with hfirst | ⟨q, hq, hrest⟩
      · rcases tighten_cases tol c best p with
          ⟨_, hsame⟩ | ⟨hp, ⟨hnew, _⟩ | ⟨old, hbest, hold, _⟩⟩
        · exact .inl (hsame.symm.trans hfirst)
        · rw [hfirst] at hnew
          cases hnew
          exact .inr ⟨p, List.mem_cons_self, hp, rfl⟩
        · rw [hfirst] at hold
          cases hold
          exact .inl hbest
      · exact .inr ⟨q, List.mem_cons_of_mem _ hq, hrest⟩

/-- The row that leaves is one of the rows. -/
theorem exists_row_of_leaving? {tol : Tolerances Rat} {b : Bounding Rat w}
    (h : leaving? tol t c = some b) :
    ∃ row, t[b.position]? = some row ∧ tol.pivot < row.coeff c ∧
      b.ratio = row.rhs / row.coeff c ∧ b.basic = row.basic := by
  rcases bounding_of_foldl tol c h with hnone | ⟨p, hp, hpos, rfl⟩
  · cases hnone
  · exact ⟨p.1, List.mem_zipIdx_iff_getElem?.mp hp, hpos, rfl, rfl⟩

/-- What a bound is preferred for: that it is tight, and then that its basic column
    comes early. -/
def Bounding.rank (b : Bounding Rat w) : Rat ×ₗ Fin w := toLex (b.ratio, b.basic)

theorem Bounding.beats_iff {new old : Bounding Rat w} :
    new.beats .exact old = true ↔ new.rank < old.rank := by
  rw [beats, Bool.or_eq_true, Bool.and_eq_true, decide_eq_true_iff, decide_eq_true_iff,
    decide_eq_true_iff, rank, rank, Prod.Lex.toLex_lt_toLex]
  have hsub : old.ratio - (Tolerances.exact : Tolerances Rat).pivot = old.ratio := sub_zero _
  have hadd : old.ratio + (Tolerances.exact : Tolerances Rat).pivot = old.ratio := add_zero _
  rw [hsub, hadd]
  constructor
  · rintro (hlt | ⟨hle, hbasic⟩)
    · exact .inl hlt
    · rcases lt_or_eq_of_le hle with hlt | heq
      · exact .inl hlt
      · exact .inr ⟨heq, hbasic⟩
  · rintro (hlt | ⟨heq, hbasic⟩)
    · exact .inl hlt
    · exact .inr ⟨le_of_eq heq, hbasic⟩

/-- Looking at rows never takes a worse bound, and the bound is as good as that of each
    of them. -/
theorem foldl_tighten_le (c : Fin w) {ps : List (TableauRow Rat w × Nat)}
    {best : Option (Bounding Rat w)} :
    (∀ old, best = some old → ∃ b, ps.foldl (tighten .exact c) best = some b ∧
        b.rank ≤ old.rank) ∧
      ∀ p ∈ ps, 0 < p.1.coeff c → ∃ b, ps.foldl (tighten .exact c) best = some b ∧
        b.rank ≤ toLex (p.1.rhs / p.1.coeff c, p.1.basic) := by
  induction ps generalizing best with
  | nil =>
      refine ⟨fun old h => ⟨old, h, le_refl _⟩, fun p hp => absurd hp List.not_mem_nil⟩
  | cons p ps ih =>
      constructor
      · intro old hbest
        rcases tighten_cases .exact c best p with
          ⟨_, hsame⟩ | ⟨_, ⟨hnew, hbeats⟩ | ⟨old', hbest', hold, _⟩⟩
        · exact (ih.1 old (hsame.trans hbest))
        · rcases ih.1 _ hnew with ⟨b, hb, hle⟩
          exact ⟨b, hb, hle.trans (Bounding.beats_iff.mp (hbeats old hbest)).le⟩
        · exact ih.1 old (hold.trans (hbest'.symm.trans hbest))
      · refine List.forall_mem_cons.mpr ⟨fun hpos => ?_, ih.2⟩
        rcases tighten_cases .exact c best p with
          ⟨hzero, _⟩ | ⟨_, ⟨hnew, _⟩ | ⟨old, _, hold, hkept⟩⟩
        · exact absurd hpos (not_lt.mpr hzero)
        · exact ih.1 _ hnew
        · rcases ih.1 old hold with ⟨b, hb, hle⟩
          refine ⟨b, hb, hle.trans (not_lt.mp fun hlt => ?_)⟩
          exact Bool.eq_false_iff.mp hkept (Bounding.beats_iff.mpr hlt)

/-- No row that bounds the entering column is preferred to the one that leaves. -/
theorem rank_le_of_leaving? {b : Bounding Rat w} (h : leaving? .exact t c = some b)
    (hrow : row ∈ t) (hpos : 0 < row.coeff c) :
    b.rank ≤ toLex (row.rhs / row.coeff c, row.basic) := by
  rcases List.mem_iff_getElem?.mp hrow with ⟨k, hk⟩
  rcases (foldl_tighten_le c).2 (row, k) (List.mem_zipIdx_iff_getElem?.mpr hk) hpos with
    ⟨b', hb', hle⟩
  cases (hb'.symm.trans h : some b' = some b)
  exact hle

/-- The row that leaves bounds the entering column, and no row does so more
    tightly. -/
theorem leaving?_some {b : Bounding Rat w} (h : leaving? .exact t c = some b)
    (hrow : t[b.position]? = some row) :
    0 < row.coeff c ∧
      ∀ other ∈ t, 0 < other.coeff c → row.rhs / row.coeff c ≤ other.rhs / other.coeff c := by
  rcases exists_row_of_leaving? h with ⟨row', hrow', hpos, hratio, _⟩
  obtain rfl : row = row' := Option.some.inj (hrow.symm.trans hrow')
  refine ⟨hpos, fun other hother hpositive => ?_⟩
  rw [← hratio]
  exact Prod.Lex.monotone_fst _ _ (rank_le_of_leaving? h hother hpositive)

/-- If no row leaves, none bounds the entering column. -/
theorem leaving?_none (h : leaving? .exact t c = none) : ∀ row ∈ t, row.coeff c ≤ 0 := by
  intro row hrow
  by_contra hpos
  rcases List.mem_iff_getElem?.mp hrow with ⟨k, hk⟩
  rcases (foldl_tighten_le c).2 (row, k) (List.mem_zipIdx_iff_getElem?.mpr hk)
    (not_le.mp hpos) with ⟨b, hb, _⟩
  cases (hb.symm.trans h : some b = none)

/-- A pivot on the row that leaves makes no right-hand side negative. -/
theorem pivot_rhs_nonneg {b : Bounding Rat w} (hleave : leaving? .exact t c = some b)
    (hrow : t[b.position]? = some row) (h : ∀ row ∈ t, 0 ≤ row.rhs) :
    ∀ row ∈ t.pivot .exact b.position c, 0 ≤ row.rhs := by
  rcases leaving?_some hleave hrow with ⟨hpos, hmin⟩
  have hratio : 0 ≤ (row.normalize c).rhs :=
    div_nonneg (h row (List.mem_of_getElem? hrow)) hpos.le
  intro after hafter
  rcases mem_pivot_cases hrow hafter with rfl | ⟨k, other, _, hk, rfl⟩
  · exact hratio
  · have hother := List.mem_of_getElem? hk
    rw [other.eliminate_rhs]
    rcases le_or_gt (other.coeff c) 0 with hle | hgt
    · have hprod := mul_nonpos_of_nonpos_of_nonneg hle hratio
      linarith [h other hother]
    · have hbound := (le_div_iff₀ hgt).mp (hmin other hother hgt)
      rw [row.normalize_rhs]
      linarith [mul_comm (other.coeff c) (row.rhs / row.coeff c)]

/-! ### Runs -/

/-- What every pivot keeps holds where a run stops, and it stops where no column
    can enter or no row bounds the one that does. -/
theorem optimizeFrom_induction {tol : Tolerances Rat} {allowed : Fin w → Bool}
    {P : Tableau Rat w → Vector Rat w → Prop}
    (step : ∀ t reduced c b row, P t reduced → entering? tol allowed reduced = some c →
      leaving? tol t c = some b → t[b.position]? = some row →
      P (t.pivot tol b.position c) (priceOut reduced (row.normalize c) c))
    (pivots : Nat) (h : P t reduced) :
    match optimizeFrom tol allowed pivots t reduced with
    | .optimal t' => ∃ reduced', P t' reduced' ∧ entering? tol allowed reduced' = none
    | .unbounded t' => ∃ reduced' c, P t' reduced' ∧ entering? tol allowed reduced' = some c ∧
        leaving? tol t' c = none
    | .stalled => True := by
  induction pivots generalizing t reduced with
  | zero => exact trivial
  | succ pivots ih =>
      cases henter : entering? tol allowed reduced with
      | none =>
          simp only [optimizeFrom, henter]
          exact ⟨reduced, h, henter⟩
      | some c =>
          cases hleave : leaving? tol t c with
          | none =>
              simp only [optimizeFrom, henter, hleave]
              exact ⟨reduced, c, h, henter, hleave⟩
          | some b =>
              rcases exists_row_of_leaving? hleave with ⟨row, hrow, _⟩
              simp only [optimizeFrom, henter, hleave, getElem?_pivot_self tol hrow]
              exact ih (step t reduced c b row h henter hleave hrow)

end Tableau

end CyclePlan
