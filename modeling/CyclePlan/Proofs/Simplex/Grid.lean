import CyclePlan.Proofs.Simplex.Network

/-!
# Tolerances on a Grid

Where tolerances make no difference.

If all right-hand sides are multiples of one over some number and all coefficients
are zero or plus or minus one, every number that a pivot computes is such a
multiple, too. A tolerance that is smaller than the distance of two multiples then
decides every comparison as no tolerance does, and whatever a run of the simplex
method does with such tolerances, it does without them.

## Main definitions

* `OnGrid`: Multiples of one over a number.
* `Tolerances.IsFine`: Tolerances smaller than the distance of two multiples.
* `Tableau.IsGridded`: Coefficients zero or plus or minus one, right-hand sides on a grid.

## Theorems

* `OnGrid.lt_iff`: A small tolerance makes no difference.
* `Tolerances.standard_isFine`: The tolerances of every run are small.
* `Tableau.IsGridded.pivot_eq`, `Tableau.entering?_eq`, `Tableau.IsGridded.leaving?_eq`: A
  pivot and its choice.
* `StandardForm.phaseOne_eq`, `StandardForm.optimize_eq`: The two phases.
-/

namespace CyclePlan

/-- A multiple of one over a number. -/
def OnGrid (D : Nat) (z : Rat) : Prop := ∃ k : Int, z * D = k

namespace OnGrid

variable {D : Nat} {y z ε : Rat}

theorem one_iff : OnGrid 1 z ↔ ∃ k : Int, z = k := by
  rw [OnGrid, Nat.cast_one, mul_one]

theorem intCast (n : Int) : OnGrid D n := ⟨n * D, by push_cast; rfl⟩

theorem zero : OnGrid D 0 := ⟨0, by rw [zero_mul, Int.cast_zero]⟩

theorem neg (h : OnGrid D z) : OnGrid D (-z) := by
  rcases h with ⟨k, hk⟩
  exact ⟨-k, by rw [neg_mul, hk, Int.cast_neg]⟩

theorem add (hy : OnGrid D y) (hz : OnGrid D z) : OnGrid D (y + z) := by
  rcases hy with ⟨k, hk⟩
  rcases hz with ⟨n, hn⟩
  exact ⟨k + n, by rw [add_mul, hk, hn, Int.cast_add]⟩

theorem sub (hy : OnGrid D y) (hz : OnGrid D z) : OnGrid D (y - z) := by
  rw [sub_eq_add_neg]
  exact hy.add hz.neg

/-- A whole factor stays on the grid. -/
theorem mul (hy : OnGrid 1 y) (hz : OnGrid D z) : OnGrid D (y * z) := by
  rcases one_iff.mp hy with ⟨k, rfl⟩
  rcases hz with ⟨n, hn⟩
  exact ⟨k * n, by rw [mul_assoc, hn, Int.cast_mul]⟩

/-- Whole numbers are on every grid. -/
theorem of_one (h : OnGrid 1 z) : OnGrid D z := by
  rcases one_iff.mp h with ⟨k, rfl⟩
  exact intCast k

theorem abs (h : OnGrid D z) : OnGrid D |z| := by
  rcases abs_choice z with heq | heq
  · rw [heq]
    exact h
  · rw [heq]
    exact h.neg

theorem sum {zs : List Rat} (h : ∀ z ∈ zs, OnGrid D z) : OnGrid D zs.sum := by
  induction zs with
  | nil => exact zero
  | cons z zs ih =>
      rw [List.sum_cons]
      exact (h z List.mem_cons_self).add (ih fun y hy => h y (List.mem_cons_of_mem _ hy))

/-- Zero or plus or minus one is whole. -/
theorem of_cases (h : z = -1 ∨ z = 0 ∨ z = 1) : OnGrid 1 z := by
  rcases h with rfl | rfl | rfl
  · exact intCast (-1)
  · exact zero
  · exact intCast 1

/-- Dividing by plus or minus one stays on the grid. -/
theorem div (h : OnGrid D z) (hy : y = -1 ∨ y = 0 ∨ y = 1) : OnGrid D (z / y) := by
  rcases hy with rfl | rfl | rfl
  · rw [div_neg, div_one]
    exact h.neg
  · rw [div_zero]
    exact zero
  · rw [div_one]
    exact h

end OnGrid

/-- A tolerance is smaller than the distance of two multiples. -/
structure IsSmall (D : Nat) (ε : Rat) : Prop where
  nonneg : 0 ≤ ε
  lt : ε * D < 1

section Small

variable {D : Nat} {y z ε : Rat}

/-- A small tolerance makes no difference. -/
theorem OnGrid.lt_iff (h : OnGrid D z) (hD : 0 < D) (hε : IsSmall D ε) : ε < z ↔ 0 < z := by
  refine ⟨hε.nonneg.trans_lt, fun hz => ?_⟩
  have hpos : (0 : Rat) < D := Nat.cast_pos.mpr hD
  rcases h with ⟨k, hk⟩
  have hone : (1 : Rat) ≤ k := by
    have hk0 : (0 : Rat) < k := hk ▸ mul_pos hz hpos
    exact_mod_cast hk0
  exact lt_of_mul_lt_mul_right (hε.lt.trans_le (hone.trans_eq hk.symm)) hpos.le

theorem OnGrid.le_iff (h : OnGrid D z) (hD : 0 < D) (hε : IsSmall D ε) : z ≤ ε ↔ z ≤ 0 :=
  not_lt.symm.trans ((not_congr (h.lt_iff hD hε)).trans not_lt)

theorem OnGrid.abs_le_iff (h : OnGrid D z) (hD : 0 < D) (hε : IsSmall D ε) :
    |z| ≤ ε ↔ z = 0 :=
  (h.abs.le_iff hD hε).trans abs_nonpos_iff

theorem OnGrid.lt_neg_iff (h : OnGrid D z) (hD : 0 < D) (hε : IsSmall D ε) : z < -ε ↔ z < 0 :=
  lt_neg.trans ((h.neg.lt_iff hD hε).trans neg_pos)

theorem OnGrid.lt_sub_iff (hy : OnGrid D y) (hz : OnGrid D z) (hD : 0 < D) (hε : IsSmall D ε) :
    z < y - ε ↔ z < y :=
  lt_sub_comm.trans (((hy.sub hz).lt_iff hD hε).trans sub_pos)

theorem OnGrid.le_add_iff (hy : OnGrid D y) (hz : OnGrid D z) (hD : 0 < D) (hε : IsSmall D ε) :
    z ≤ y + ε ↔ z ≤ y :=
  sub_le_iff_le_add'.symm.trans (((hz.sub hy).le_iff hD hε).trans sub_nonpos)

end Small

/-- All tolerances are smaller than the distance of two multiples. -/
structure Tolerances.IsFine (tol : Tolerances Rat) (D : Nat) : Prop where
  pos : 0 < D
  pivot : IsSmall D tol.pivot
  residual : IsSmall D tol.residual
  snap : IsSmall D tol.snap
  skip : IsSmall D tol.skip

/-- No tolerance at all is the finest. -/
theorem Tolerances.exact_isFine {D : Nat} (hD : 0 < D) : (exact : Tolerances Rat).IsFine D := by
  have hzero : IsSmall D 0 := ⟨le_refl 0, by rw [zero_mul]; exact one_pos⟩
  exact ⟨hD, hzero, hzero, hzero, hzero⟩

/-- A millionth is small where there are less than a million multiples for each whole
    number. -/
theorem isSmall_of_le {D : Nat} {ε : Rat} (hfine : D < 1000000) (hnonneg : 0 ≤ ε)
    (hle : ε ≤ 1e-6) : IsSmall D ε := by
  have hlt : (D : Rat) < 1000000 := by exact_mod_cast hfine
  refine ⟨hnonneg, (mul_le_mul_of_nonneg_right hle D.cast_nonneg).trans_lt ?_⟩
  linarith

/-- There, the tolerances of every run are fine. -/
theorem Tolerances.standard_isFine {D : Nat} (hD : 0 < D) (hfine : D < 1000000) :
    (standard : Tolerances Rat).IsFine D := by
  have hskip : (Scalar.ofInt 0x10000000000000 : Rat) = 4503599627370496 := rfl
  refine ⟨hD, isSmall_of_le hfine ?_ ?_, isSmall_of_le hfine ?_ ?_, isSmall_of_le hfine ?_ ?_,
    isSmall_of_le hfine ?_ ?_⟩ <;>
    simp only [standard, hskip] <;> norm_num

variable {w D : Nat} {tol : Tolerances Rat}

namespace TableauRow

variable {row other : TableauRow Rat w} {c : Fin w}

/-- A difference on the grid is not read as zero unless it is. -/
theorem snapped_eq (htol : tol.IsFine D) {z : Rat} (h : OnGrid D z) : snapped tol z = z := by
  rw [snapped]
  split
  · next hz =>
    rw [Scalar.abs_rat] at hz
    exact ((h.abs_le_iff htol.pos htol.snap).mp hz.le).symm
  · rfl

theorem eliminate_eq (htol : tol.IsFine D) (hrow : ∀ j, OnGrid 1 (row.coeff j))
    (hrhs : OnGrid D row.rhs) (hother : ∀ j, OnGrid 1 (other.coeff j))
    (hother' : OnGrid D other.rhs) :
    row.eliminate tol other c = row.eliminate .exact other c := by
  have hskip : Scalar.abs (row.coeff c) ≤ tol.skip ↔ row.coeff c = 0 := by
    rw [Scalar.abs_rat]
    exact (hrow c).of_one.abs_le_iff htol.pos htol.skip
  by_cases hf : row.coeff c = 0
  · rw [eliminate_of_zero row other c hf, eliminate]
    exact if_pos (hskip.mpr hf)
  · rw [eliminate_of_ne_zero row other c hf, eliminate]
    refine (if_neg (mt hskip.mp hf)).trans ?_
    have hcoeffs : row.coeffs.zipWith (fun v p => snapped tol (v - row.coeff c * p)) other.coeffs
        = row.coeffs.zipWith (fun v p => snapped .exact (v - row.coeff c * p)) other.coeffs := by
      refine Vector.ext fun j hj => ?_
      have hgrid : OnGrid D (row.coeffs[j] - row.coeff c * other.coeffs[j]) :=
        ((hrow ⟨j, hj⟩).sub ((hrow c).mul (hother ⟨j, hj⟩))).of_one
      rw [Vector.getElem_zipWith, Vector.getElem_zipWith, snapped_eq htol hgrid, snapped_exact]
    have hright : snapped tol (row.rhs - row.coeff c * other.rhs)
        = snapped .exact (row.rhs - row.coeff c * other.rhs) := by
      rw [snapped_eq htol (hrhs.sub ((hrow c).mul hother')), snapped_exact]
    rw [← hcoeffs, ← hright]
    rfl

end TableauRow

namespace Tableau

variable {t : Tableau Rat w} {row : TableauRow Rat w} {c : Fin w} {r : Nat}
  {cost reduced : Vector Rat w} {allowed : Fin w → Bool}

/-- Coefficients are zero or plus or minus one, and right-hand sides are on a grid. -/
structure IsGridded (t : Tableau Rat w) (D : Nat) : Prop where
  coeff : ∀ row ∈ t, ∀ j, row.coeff j = -1 ∨ row.coeff j = 0 ∨ row.coeff j = 1
  rhs : ∀ row ∈ t, OnGrid D row.rhs

theorem IsGridded.normalize_coeff (h : t.IsGridded D) (hrow : row ∈ t) (j : Fin w) :
    OnGrid 1 ((row.normalize c).coeff j) := by
  rw [row.normalize_coeff]
  exact (OnGrid.of_cases (h.coeff row hrow j)).div (h.coeff row hrow c)

theorem IsGridded.normalize_rhs (h : t.IsGridded D) (hrow : row ∈ t) :
    OnGrid D (row.normalize c).rhs := by
  rw [row.normalize_rhs]
  exact (h.rhs row hrow).div (h.coeff row hrow c)

/-- A pivot with fine tolerances is one without. -/
theorem IsGridded.pivot_eq (h : t.IsGridded D) (htol : tol.IsFine D) (hr : t[r]? = some row) :
    t.pivot tol r c = t.pivot .exact r c := by
  have hrow := List.mem_of_getElem? hr
  refine List.ext_getElem? fun k => ?_
  rw [getElem?_pivot tol hr, getElem?_pivot .exact hr]
  refine Option.map_congr fun other hk => ?_
  have hother := List.mem_of_getElem? hk
  rw [TableauRow.eliminate_eq htol (fun j => .of_cases (h.coeff other hother j))
    (h.rhs other hother) (h.normalize_coeff hrow) (h.normalize_rhs hrow)]

/-- A pivot keeps right-hand sides on the grid. -/
theorem IsGridded.pivot_rhs (h : t.IsGridded D) (hr : t[r]? = some row) :
    ∀ row ∈ t.pivot .exact r c, OnGrid D row.rhs := by
  have hrow := List.mem_of_getElem? hr
  intro after hafter
  rcases mem_pivot_cases hr hafter with rfl | ⟨k, other, _, hk, rfl⟩
  · exact h.normalize_rhs hrow
  · have hother := List.mem_of_getElem? hk
    rw [other.eliminate_rhs]
    exact (h.rhs other hother).sub
      ((OnGrid.of_cases (h.coeff other hother c)).mul (h.normalize_rhs hrow))

/-! ### The choice of a pivot -/

/-- The entering column is the same. -/
theorem entering?_eq (htol : tol.IsFine D) (hreduced : ∀ j, OnGrid 1 (reduced.get j)) :
    entering? tol allowed reduced = entering? .exact allowed reduced := by
  rw [entering?, entering?]
  congr 1
  funext j
  have hlt : ∀ tol' : Tolerances Rat, tol'.IsFine D →
      (reduced.get j < -tol'.pivot ↔ reduced.get j < 0) := fun tol' h =>
    (hreduced j).of_one.lt_neg_iff h.pos h.pivot
  exact congrArg _ (decide_eq_decide.mpr
    ((hlt tol htol).trans (hlt .exact (Tolerances.exact_isFine htol.pos)).symm))

theorem beats_eq (htol : tol.IsFine D) {new old : Bounding Rat w} (hnew : OnGrid D new.ratio)
    (hold : OnGrid D old.ratio) : new.beats tol old = new.beats .exact old := by
  have hopen : ∀ tol' : Tolerances Rat, tol'.IsFine D → new.beats tol' old
      = (decide (new.ratio < old.ratio) ||
        (decide (new.ratio ≤ old.ratio) && decide (new.basic < old.basic))) := by
    intro tol' h
    rw [Bounding.beats, decide_eq_decide.mpr (hold.lt_sub_iff hnew h.pos h.pivot),
      decide_eq_decide.mpr (hold.le_add_iff hnew h.pos h.pivot)]
  rw [hopen tol htol, hopen .exact (Tolerances.exact_isFine htol.pos)]

/-- One more row gives the same bound, which is on the grid. -/
theorem tighten_eq (htol : tol.IsFine D) {best : Option (Bounding Rat w)}
    (hbest : ∀ b ∈ best, OnGrid D b.ratio) {p : TableauRow Rat w × Nat}
    (hcoeff : p.1.coeff c = -1 ∨ p.1.coeff c = 0 ∨ p.1.coeff c = 1) (hrhs : OnGrid D p.1.rhs) :
    tighten tol c best p = tighten .exact c best p ∧
      ∀ b ∈ tighten .exact c best p, OnGrid D b.ratio := by
  have hratio : OnGrid D (p.1.rhs / p.1.coeff c) := hrhs.div hcoeff
  have hle := (OnGrid.of_cases hcoeff).of_one.le_iff htol.pos htol.pivot
  by_cases ha : p.1.coeff c ≤ 0
  · have hsame : tighten .exact c best p = best := if_pos ha
    rw [hsame]
    exact ⟨if_pos (hle.mpr ha), hbest⟩
  · cases best with
    | none =>
        have hnew : tighten .exact c none p = some ⟨p.2, p.1.rhs / p.1.coeff c, p.1.basic⟩ :=
          if_neg ha
        rw [hnew]
        exact ⟨if_neg (mt hle.mp ha), fun b hb => by cases hb; exact hratio⟩
    | some old =>
        have hopen : ∀ tol' : Tolerances Rat, ¬ p.1.coeff c ≤ tol'.pivot →
            tighten tol' c (some old) p =
              if Bounding.beats tol' ⟨p.2, p.1.rhs / p.1.coeff c, p.1.basic⟩ old = true
              then some ⟨p.2, p.1.rhs / p.1.coeff c, p.1.basic⟩ else some old :=
          fun tol' h => if_neg h
        rw [hopen tol (mt hle.mp ha), hopen .exact ha,
          @beats_eq _ _ _ htol ⟨p.2, p.1.rhs / p.1.coeff c, p.1.basic⟩ old hratio (hbest old rfl)]
        refine ⟨rfl, fun b hb => ?_⟩
        split at hb
        · cases hb
          exact hratio
        · exact hbest b hb

/-- The leaving row is the same. -/
theorem IsGridded.leaving?_eq (h : t.IsGridded D) (htol : tol.IsFine D) :
    leaving? tol t c = leaving? .exact t c := by
  have hfold : ∀ (ps : List (TableauRow Rat w × Nat)) (best : Option (Bounding Rat w)),
      (∀ p ∈ ps, p.1 ∈ t) → (∀ b ∈ best, OnGrid D b.ratio) →
        ps.foldl (tighten tol c) best = ps.foldl (tighten .exact c) best := by
    intro ps
    induction ps with
    | nil => exact fun _ _ _ => rfl
    | cons p ps ih =>
        intro best hps hbest
        rcases List.forall_mem_cons.mp hps with ⟨hp, hrest⟩
        rcases tighten_eq htol hbest (h.coeff p.1 hp c) (h.rhs p.1 hp) with ⟨hsame, hgrid⟩
        rw [List.foldl_cons, List.foldl_cons, hsame]
        exact ih _ hrest hgrid
  refine hfold _ none (fun p hp => ?_) fun b hb => by cases hb
  exact List.mem_of_getElem? (List.mem_zipIdx_iff_getElem?.mp hp)

/-- Computed reduced costs are whole. -/
theorem IsGridded.reducedCosts (h : t.IsGridded D) (hcost : ∀ j, OnGrid 1 (cost.get j))
    (j : Fin w) : OnGrid 1 ((t.reducedCosts cost).get j) := by
  rw [get_reducedCosts]
  refine (hcost j).sub (.sum fun z hz => ?_)
  rcases List.mem_map.mp hz with ⟨row, hrow, rfl⟩
  exact (hcost row.basic).mul (.of_cases (h.coeff row hrow j))

theorem IsGridded.priceOut (h : t.IsGridded D) (hreduced : ∀ j, OnGrid 1 (reduced.get j))
    (hrow : row ∈ t) (hc : row.coeff c ≠ 0) (j : Fin w) :
    OnGrid 1 ((priceOut reduced (row.normalize c) c).get j) := by
  rw [get_priceOut (row.normalize_coeff_self c hc)]
  exact (hreduced j).sub ((hreduced c).mul (h.normalize_coeff hrow j))

end Tableau

namespace StandardForm

open Tableau

variable {s : StandardForm Rat} {t : Tableau Rat s.width} {cost reduced : Vector Rat s.width}
  (allowed : Fin s.width → Bool)

/-- The state of a run on a network: it could have been reached without tolerances, and
    everything is on a grid. -/
structure IsTracked (s : StandardForm Rat) (D : Nat) (cost : Vector Rat s.width)
    (t : Tableau Rat s.width) (reduced : Vector Rat s.width) : Prop extends s.IsReached t where
  priced : t.IsPriced cost reduced
  gridded : t.IsGridded D
  whole : ∀ j, OnGrid 1 (reduced.get j)

/-- A tableau that is reached is on a grid if its right-hand sides are. -/
theorem IsReached.isGridded (h : s.IsReached t) (hnetwork : s.tableau.IsNetwork)
    (hrhs : ∀ row ∈ t, OnGrid D row.rhs) : t.IsGridded D :=
  ⟨fun _ hrow j => h.coeff_cases hnetwork hrow j, hrhs⟩

/-- A run starts with computed reduced costs. -/
theorem isTracked_start (h : s.IsReached t) (hgridded : t.IsGridded D)
    (hcost : ∀ j, OnGrid 1 (cost.get j)) : s.IsTracked D cost t (t.reducedCosts cost) :=
  ⟨h, isPriced_reducedCosts h.solved cost, hgridded, hgridded.reducedCosts hcost⟩

theorem IsTracked.step (hnetwork : s.tableau.IsNetwork) (h : s.IsTracked D cost t reduced)
    {c : Fin s.width} {b : Bounding Rat s.width} {row : TableauRow Rat s.width}
    (hleave : leaving? .exact t c = some b) (hrow : t[b.position]? = some row) :
    s.IsTracked D cost (t.pivot .exact b.position c) (priceOut reduced (row.normalize c) c) := by
  rcases h.toIsReached.step h.priced hleave hrow with ⟨hne, hreached, hpriced⟩
  exact ⟨hreached, hpriced, hreached.isGridded hnetwork (h.gridded.pivot_rhs hrow),
    h.gridded.priceOut h.whole (List.mem_of_getElem? hrow) hne⟩

/-- A run with fine tolerances is one without. -/
theorem optimizeFrom_eq (hnetwork : s.tableau.IsNetwork) (htol : tol.IsFine D) (pivots : Nat)
    (h : s.IsTracked D cost t reduced) :
    optimizeFrom tol allowed pivots t reduced = optimizeFrom .exact allowed pivots t reduced := by
  induction pivots generalizing t reduced with
  | zero => rfl
  | succ pivots ih =>
      have henter : entering? tol allowed reduced = entering? .exact allowed reduced :=
        entering?_eq htol h.whole
      have hleave := fun c => h.gridded.leaving?_eq (c := c) htol
      cases hc : entering? .exact allowed reduced with
      | none => simp only [optimizeFrom, henter, hc]
      | some c =>
          cases hb : leaving? .exact t c with
          | none => simp only [optimizeFrom, henter, hc, hleave, hb]
          | some b =>
              rcases exists_row_of_leaving? hb with ⟨row, hrow, _⟩
              simp only [optimizeFrom, henter, hc, hleave, hb, h.gridded.pivot_eq htol hrow,
                getElem?_pivot_self .exact hrow]
              exact ih (h.step hnetwork hb hrow)

/-- Where a run stops, everything is still on the grid. -/
theorem gridded_of_optimize (hnetwork : s.tableau.IsNetwork) (h : s.IsReached t)
    (hgridded : t.IsGridded D) (hcost : ∀ j, OnGrid 1 (cost.get j)) (pivots : Nat) :
    match t.optimize .exact pivots cost allowed with
    | .optimal t' | .unbounded t' => s.IsReached t' ∧ t'.IsGridded D
    | .stalled => True := by
  have hrun := optimizeFrom_induction (P := s.IsTracked D cost)
    (fun t reduced c b row h (_ : entering? .exact allowed reduced = some c) hleave hrow =>
      h.step hnetwork hleave hrow) pivots (isTracked_start h hgridded hcost)
  rw [optimize]
  split at hrun
  · next heq =>
    rcases hrun with ⟨_, h, _⟩
    rw [heq]
    exact ⟨h.toIsReached, h.gridded⟩
  · next heq =>
    rcases hrun with ⟨_, _, h, _⟩
    rw [heq]
    exact ⟨h.toIsReached, h.gridded⟩
  · next heq =>
    rw [heq]
    trivial

/-- A phase with fine tolerances is one without. -/
theorem optimize_eq (hnetwork : s.tableau.IsNetwork) (htol : tol.IsFine D) (h : s.IsReached t)
    (hgridded : t.IsGridded D) (hcost : ∀ j, OnGrid 1 (cost.get j)) (pivots : Nat) :
    t.optimize tol pivots cost allowed = t.optimize .exact pivots cost allowed :=
  optimizeFrom_eq allowed hnetwork htol pivots (isTracked_start h hgridded hcost)

theorem phaseOneCost_whole (j : Fin s.width) : OnGrid 1 (s.phaseOneCost.get j) := by
  have hget : s.phaseOneCost.get j = if j.val < s.firstArtificial then 0 else 1 :=
    Vector.getElem_ofFn j.isLt
  rw [hget]
  split
  · exact .zero
  · exact .intCast 1

theorem residual_onGrid (hgridded : t.IsGridded D) : OnGrid D (s.residual t) := by
  rw [residual, Scalar.sum, ← List.sum_eq_foldl]
  refine .sum fun z hz => ?_
  rcases List.mem_map.mp hz with ⟨row, hrow, rfl⟩
  exact hgridded.rhs row (List.mem_of_mem_filter hrow)

/-- Exchanging an artificial column is the same with fine tolerances. -/
theorem expel_eq (htol : tol.IsFine D) (hgridded : t.IsGridded D) (i : Nat) :
    s.expel tol t i = s.expel .exact t i := by
  rw [expel, expel]
  cases hi : t[i]? with
  | none => rfl
  | some row =>
      dsimp only
      have hother : ∀ tol' : Tolerances Rat, tol'.IsFine D →
          (List.finRange s.width).find? (fun j => decide (j.val < s.firstArtificial) &&
              decide (tol'.pivot < Scalar.abs row.coeffs[j]))
            = (List.finRange s.width).find? fun j => decide (j.val < s.firstArtificial) &&
              decide (0 < |row.coeff j|) := by
        intro tol' h
        congr 1
        funext j
        have hgrid := OnGrid.of_cases (hgridded.coeff row (List.mem_of_getElem? hi) j)
        rw [Scalar.abs_rat]
        exact congrArg _ (decide_eq_decide.mpr (hgrid.abs.of_one.lt_iff h.pos h.pivot))
      rw [hother tol htol, hother .exact (Tolerances.exact_isFine htol.pos)]
      split
      · rfl
      · split
        · exact hgridded.pivot_eq htol hi
        · rfl

theorem expel_rhs (hgridded : t.IsGridded D) (i : Nat) :
    ∀ row ∈ s.expel .exact t i, OnGrid D row.rhs := by
  rw [expel]
  split
  · exact hgridded.rhs
  · next hi =>
    split
    · exact hgridded.rhs
    · dsimp only
      split
      · exact hgridded.pivot_rhs hi
      · exact hgridded.rhs

/-- All exchanges are the same, and stay on the grid. -/
theorem expelAll_eq (hnetwork : s.tableau.IsNetwork) (htol : tol.IsFine D) (h : s.IsReached t)
    (hgridded : t.IsGridded D)
    (hempty : ∀ row ∈ t, s.firstArtificial ≤ row.basic.val → row.rhs = 0) :
    s.expelAll tol t = s.expelAll .exact t ∧ (s.expelAll .exact t).IsGridded D := by
  have hfold : ∀ n, (List.range n).foldl (s.expel tol) t = (List.range n).foldl (s.expel .exact) t ∧
      ((List.range n).foldl (s.expel .exact) t).IsGridded D := by
    intro n
    induction n with
    | zero =>
        rw [List.range_zero, List.foldl_nil, List.foldl_nil]
        exact ⟨rfl, hgridded⟩
    | succ n ih =>
        have hreached := (isExpelled_foldl h hempty (n + 1)).toIsReached
        rw [foldl_expel_succ] at hreached
        rw [foldl_expel_succ, foldl_expel_succ, ih.1, expel_eq htol ih.2]
        exact ⟨rfl, hreached.isGridded hnetwork (expel_rhs ih.2 n)⟩
  exact hfold t.length

/-- A tableau that the first phase has reached is on a grid. -/
def PhaseOne.IsGridded (D : Nat) : s.PhaseOne → Prop
  | .reached t => t.IsGridded D
  | .infeasible | .stalled => True

/-- Where the first phase stops, the same is made of the tableau. -/
theorem finish_eq (hnetwork : s.tableau.IsNetwork) (htol : tol.IsFine D) (h : s.IsReached t)
    (hgridded : t.IsGridded D) :
    (if tol.residual < s.residual t then PhaseOne.infeasible (s := s)
      else .reached (s.expelAll tol t))
      = (if (Tolerances.exact : Tolerances Rat).residual < s.residual t then .infeasible
        else .reached (s.expelAll .exact t)) ∧
    PhaseOne.IsGridded D (if (Tolerances.exact : Tolerances Rat).residual < s.residual t
      then PhaseOne.infeasible (s := s) else .reached (s.expelAll .exact t)) := by
  have hexact := Tolerances.exact_isFine htol.pos
  have hlt := ((residual_onGrid hgridded).lt_iff htol.pos htol.residual).trans
    ((residual_onGrid hgridded).lt_iff htol.pos hexact.residual).symm
  by_cases hres : (Tolerances.exact : Tolerances Rat).residual < s.residual t
  · rw [if_pos (hlt.mpr hres), if_pos hres]
    exact ⟨rfl, trivial⟩
  · have hsame := expelAll_eq hnetwork htol h hgridded (rhs_eq_zero_of_residual h hres)
    rw [if_neg (mt hlt.mp hres), if_neg hres, hsame.1]
    exact ⟨rfl, hsame.2⟩

/-- The first phase with fine tolerances is one without, and stays on the grid. -/
theorem phaseOne_eq (hfit : s.IsFit) (hnetwork : s.tableau.IsNetwork) (htol : tol.IsFine D)
    (hrhs : ∀ row ∈ s.rows, OnGrid D row.rhs) (pivots : Nat) :
    s.phaseOne tol pivots = s.phaseOne .exact pivots ∧ (s.phaseOne .exact pivots).IsGridded D := by
  have hreached := tableau_isReached hfit
  have hgridded : s.tableau.IsGridded D := by
    refine hreached.isGridded hnetwork fun tableauRow h => ?_
    rcases List.mem_iff_getElem?.mp h with ⟨i, hi⟩
    rcases getElem?_tableau hfit hi with ⟨row, hrow, hrep⟩
    rw [hrep.rhs]
    exact hrhs row (List.mem_of_getElem? hrow)
  by_cases hnone : s.artificials = 0
  · rw [phaseOne, phaseOne, if_pos hnone, if_pos hnone]
    exact ⟨rfl, hgridded⟩
  · rw [phaseOne, phaseOne, if_neg hnone, if_neg hnone,
      optimize_eq (fun _ => true) hnetwork htol hreached hgridded phaseOneCost_whole]
    have hrun := gridded_of_optimize (fun _ => true) hnetwork hreached hgridded
      phaseOneCost_whole pivots
    cases hend : s.tableau.optimize .exact pivots s.phaseOneCost fun _ => true with
    | optimal t | unbounded t =>
        rw [hend] at hrun
        exact finish_eq hnetwork htol hrun.1 hrun.2
    | stalled => exact ⟨rfl, trivial⟩

end StandardForm

end CyclePlan
