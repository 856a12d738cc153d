import CyclePlan.Proofs.Simplex.Phases

/-!
# Difference Rows

Tableaus of rows that bound differences of two columns have no coefficients but
zero and plus or minus one.

A row bounds a difference if its left side is one column less another, or less
than that (`StandardRow.IsDifference`). The usual argument is about subdeterminants.
Here it is about points instead. A point that the rows do not see consists of
differences of potentials, one pair for each column, and it stays unseen when the
potentials are mapped by any function (`Tableau.IsNetwork`). Which points are
unseen does not change with pivots, so this holds of all tableaus that are reached
once it holds of the first one. In a solved tableau a coefficient is minus the value
of a basic column at an unseen point with a single other column off zero, which is
one. Mapping the potentials to zero and one leaves that column, and so it leaves the
point. Therefore the value is a difference of zeros and ones.

## Main definitions

* `Tableau.Annihilates`: The rows do not see a point.
* `Tableau.IsNetwork`: Unseen points are differences of potentials.
* `StandardRow.IsDifference`: The left side is a difference of two columns.

## Theorems

* `Tableau.IsNetwork.coeff_cases`: The coefficients of a solved network.
* `StandardForm.tableau_isNetwork`: The first tableau of difference rows is a network.
* `StandardForm.IsReached.coeff_cases`: The coefficients of all tableaus that are reached.
-/

namespace CyclePlan

variable {w : Nat}

namespace Tableau

variable {t t' : Tableau Rat w} {row : TableauRow Rat w} {x p : Fin w → Rat}

/-- The rows do not see a point. -/
def Annihilates (t : Tableau Rat w) (x : Fin w → Rat) : Prop := ∀ row ∈ t, row.lhs x = 0

/-- Points that the rows do not see are the differences of points that satisfy
    them. -/
theorem annihilates_iff (hp : t.Satisfies p) : t.Annihilates x ↔ t.Satisfies (p + x) := by
  have hlhs : ∀ row ∈ t, row.lhs (p + x) = row.rhs + row.lhs x := by
    intro row hrow
    have hdiff := row.lhs_sub (p + x) p
    rw [add_sub_cancel_left, hp row hrow] at hdiff
    rw [hdiff, add_sub_cancel]
  refine forall₂_congr fun row hrow => ?_
  rw [TableauRow.Holds, hlhs row hrow, add_eq_left]

/-- Every point that the rows do not see consists of differences of potentials,
    and mapping the potentials leaves it unseen. -/
def IsNetwork (t : Tableau Rat w) : Prop :=
  ∀ x, t.Annihilates x → ∃ a b : Fin w → Rat, (∀ j, x j = a j - b j) ∧
    ∀ f : Rat → Rat, t.Annihilates fun j => f (a j) - f (b j)

/-- Being a network is a matter of the points that satisfy the rows. -/
theorem IsNetwork.of_satisfies_iff (h : t.IsNetwork) (hsolved : t'.IsSolved)
    (hiff : ∀ x, t'.Satisfies x ↔ t.Satisfies x) : t'.IsNetwork := by
  have hpoint := hsolved.point_satisfies
  have hsame : ∀ x, t'.Annihilates x ↔ t.Annihilates x := fun x =>
    (annihilates_iff hpoint).trans ((hiff _).trans (annihilates_iff ((hiff _).mp hpoint)).symm)
  intro x hx
  rcases h x ((hsame x).mp hx) with ⟨a, b, hab, hmap⟩
  exact ⟨a, b, hab, fun f => (hsame _).mpr (hmap f)⟩

/-- How the point of a tableau changes when a column becomes one. -/
def direction (t : Tableau Rat w) (j : Fin w) : Fin w → Rat :=
  t.complete (Pi.single j 1) - t.point

theorem IsSolved.annihilates_direction (h : t.IsSolved) {j : Fin w} (hj : ¬ t.IsBasic j) :
    t.Annihilates (t.direction j) := by
  rw [annihilates_iff h.point_satisfies, direction, add_sub_cancel]
  exact h.complete_single hj 1

theorem IsSolved.direction_basic (h : t.IsSolved) (hrow : row ∈ t) (j : Fin w) :
    t.direction j row.basic = -row.coeff j := by
  rw [direction, Pi.sub_apply, h.complete_basic _ hrow, h.point_basic hrow, row.lhs_single]
  ring

theorem direction_of_not_isBasic {k : Fin w} (hk : ¬ t.IsBasic k) (j : Fin w) :
    t.direction j k = (Pi.single j 1 : Fin w → Rat) k := by
  rw [direction, Pi.sub_apply, complete_of_not_isBasic _ hk, point_of_not_isBasic hk, sub_zero]

/-- A direction of a network consists of differences of zeros and ones. -/
theorem IsNetwork.direction_eq (h : t.IsNetwork) (hsolved : t.IsSolved) {j : Fin w}
    (hj : ¬ t.IsBasic j) : ∃ p q : Fin w → Bool,
      t.direction j = fun k => (if p k then 1 else 0) - if q k then 1 else 0 := by
  have hx := hsolved.annihilates_direction hj
  rcases h _ hx with ⟨a, b, hab, hmap⟩
  refine ⟨fun k => decide (a k = a j), fun k => decide (b k = a j), ?_⟩
  simp only [decide_eq_true_iff]
  -- The one column off zero keeps its value when its first potential becomes one and all
  -- others zero.
  refine hsolved.eq_of_lhs_eq (fun row hrow => (hx row hrow).trans
    (hmap (fun z => if z = a j then 1 else 0) row hrow).symm) fun k hk => ?_
  have hvalue := direction_of_not_isBasic hk j
  by_cases hkj : k = j
  · subst hkj
    rw [Pi.single_eq_same] at hvalue
    have hne : b k ≠ a k := by
      intro heq
      rw [hab k, heq, sub_self] at hvalue
      exact zero_ne_one hvalue
    rw [hvalue, if_pos rfl, if_neg hne, sub_zero]
  · rw [Pi.single_eq_of_ne hkj] at hvalue
    have heq : a k = b k := sub_eq_zero.mp ((hab k).symm.trans hvalue)
    rw [hvalue, heq, sub_self]

/-- The coefficients of a solved network. -/
theorem IsNetwork.coeff_cases (h : t.IsNetwork) (hsolved : t.IsSolved) (hrow : row ∈ t)
    (j : Fin w) : row.coeff j = -1 ∨ row.coeff j = 0 ∨ row.coeff j = 1 := by
  by_cases hj : t.IsBasic j
  · rcases hj with ⟨other, hother, rfl⟩
    rcases List.mem_iff_getElem?.mp hrow with ⟨i, hi⟩
    rcases List.mem_iff_getElem?.mp hother with ⟨k, hk⟩
    rw [hsolved i k row other hi hk]
    split
    · exact .inr (.inr rfl)
    · exact .inr (.inl rfl)
  · rcases h.direction_eq hsolved hj with ⟨p, q, heq⟩
    rw [← neg_neg (row.coeff j), ← hsolved.direction_basic hrow, heq, neg_sub]
    split <;> split <;> norm_num

end Tableau

/-- The value of a column, zero where there is none. -/
def valueAt (y : Nat → Rat) (column : Option Nat) : Rat := column.elim 0 y

/-- The left side of a row is one column less another, where either may be
    missing. -/
def StandardRow.IsDifference (row : StandardRow Rat) (columns : Nat) : Prop :=
  ∃ u v : Option Nat, (∀ n ∈ u, n < columns) ∧ (∀ n ∈ v, n < columns) ∧
    ∀ y, row.sum y = valueAt y u - valueAt y v

namespace StandardForm

open Tableau

variable {s : StandardForm Rat} {t : Tableau Rat s.width}

/-- Where the step along a slack column or an artificial column starts, if rows lead
    from heads to tails. -/
def stepBase (s : StandardForm Rat) (head tail : StandardRow Rat → Rat) (n : Nat) : Rat :=
  if n < s.columns then 0
  else if n < s.firstArtificial then
    match (s.rows.filter (·.hasSlack))[n - s.columns]? with
    | some row => if row.relation = .le then head row else tail row
    | none => 0
  else
    match (s.rows.filter (·.hasArtificial))[n - s.firstArtificial]? with
    | some row => head row
    | none => 0

section StepBase

variable (head tail : StandardRow Rat → Rat) {i : Nat} {row : StandardRow Rat}

theorem stepBase_slackAt (hi : s.rows[i]? = some row) (hrow : row.hasSlack = true) :
    s.stepBase head tail (s.slackAt i) = if row.relation = .le then head row else tail row := by
  have hge : ¬ s.slackAt i < s.columns := not_lt.mpr (Nat.le_add_right _ _)
  have hget : (s.rows.filter (·.hasSlack))[s.slackAt i - s.columns]? = some row := by
    rw [slackAt, Nat.add_sub_cancel_left]
    exact getElem?_filter_countP hi hrow
  rw [stepBase, if_neg hge, if_pos (slackAt_lt hi hrow), hget]

theorem stepBase_artificialAt (hi : s.rows[i]? = some row) (hrow : row.hasArtificial = true) :
    s.stepBase head tail (s.artificialAt i) = head row := by
  have hge : ¬ s.artificialAt i < s.firstArtificial := not_lt.mpr (Nat.le_add_right _ _)
  have hge' : ¬ s.artificialAt i < s.columns := fun h =>
    hge (h.trans_le columns_le_firstArtificial)
  have hget : (s.rows.filter (·.hasArtificial))[s.artificialAt i - s.firstArtificial]?
      = some row := by
    rw [artificialAt, Nat.add_sub_cancel_left]
    exact getElem?_filter_countP hi hrow
  rw [stepBase, if_neg hge', if_neg hge, hget]

/-- A row whose ends are mapped still balances: its own columns lead from the head
    to the tail. -/
theorem balance_map {x : Nat → Rat} (hi : s.rows[i]? = some row)
    (hx : head row - tail row + row.relation.slackSign * x (s.slackAt i)
      + row.relation.artificialSign * x (s.artificialAt i) = 0)
    (f : Rat → Rat) (step : Nat → Rat)
    (hstep : ∀ n, step n = f (x n + s.stepBase head tail n) - f (s.stepBase head tail n)) :
    f (head row) - f (tail row) + row.relation.slackSign * step (s.slackAt i)
      + row.relation.artificialSign * step (s.artificialAt i) = 0 := by
  rw [hstep, hstep]
  cases hrel : row.relation with
  | le =>
      have hs := stepBase_slackAt head tail hi
        ((hasSlack_iff row).mpr (by rw [hrel]; decide))
      rw [hrel, if_pos rfl] at hs
      rw [hrel, Relation.slackSign, Relation.artificialSign] at hx
      have hfar : x (s.slackAt i) + head row = tail row := by linarith
      rw [hs, hfar, Relation.slackSign, Relation.artificialSign]
      ring
  | ge =>
      have hs := stepBase_slackAt head tail hi
        ((hasSlack_iff row).mpr (by rw [hrel]; decide))
      have ha := stepBase_artificialAt head tail hi
        ((hasArtificial_iff row).mpr (by rw [hrel]; decide))
      rw [hrel, if_neg (by decide)] at hs
      rw [hrel, Relation.slackSign, Relation.artificialSign] at hx
      have hfar : x (s.slackAt i) + tail row = x (s.artificialAt i) + head row := by linarith
      rw [hs, ha, hfar, Relation.slackSign, Relation.artificialSign]
      ring
  | eq =>
      have ha := stepBase_artificialAt head tail hi
        ((hasArtificial_iff row).mpr (by rw [hrel]; decide))
      rw [hrel, Relation.slackSign, Relation.artificialSign] at hx
      have hfar : x (s.artificialAt i) + head row = tail row := by linarith
      rw [ha, hfar, Relation.slackSign, Relation.artificialSign]
      ring

end StepBase

/-- The first tableau of difference rows is a network. The potential of a column is
    its value; a slack column and an artificial column lead from one end of their
    row to the other, or past it by what is in the other of the two. -/
theorem tableau_isNetwork (hfit : s.IsFit)
    (hdiff : ∀ row ∈ s.rows, row.IsDifference s.columns) : s.tableau.IsNetwork := by
  have hends : ∀ row : StandardRow Rat, ∃ u v : Option Nat, row ∈ s.rows →
      (∀ n ∈ u, n < s.columns) ∧ (∀ n ∈ v, n < s.columns) ∧
        ∀ y, row.sum y = valueAt y u - valueAt y v := by
    intro row
    by_cases hrow : row ∈ s.rows
    · rcases hdiff row hrow with ⟨u, v, h⟩
      exact ⟨u, v, fun _ => h⟩
    · exact ⟨none, none, fun h => absurd h hrow⟩
  choose u v hrows using hends
  intro x hx
  let base := s.stepBase (fun row => valueAt (spread x) (u row))
    (fun row => valueAt (spread x) (v row))
  refine ⟨fun j => x j + base j.val, fun j => base j.val, fun j => (add_sub_cancel_right _ _).symm,
    fun f => ?_⟩
  let step : Nat → Rat := fun n => f (spread x n + base n) - f (base n)
  -- The ends of a row are mapped like the columns, which start at zero.
  have hend : ∀ column : Option Nat, (∀ n ∈ column, n < s.columns) →
      valueAt step column = f (valueAt (spread x) column) - f 0 := by
    intro column hcolumn
    cases column with
    | none => exact (sub_self _).symm
    | some n =>
        have hbase : base n = 0 := if_pos (hcolumn n rfl)
        change f (spread x n + base n) - f (base n) = f (spread x n) - f 0
        rw [hbase, add_zero]
  have hseen := (forall_tableau_iff hfit (fun l _ => l = 0) (spread x)).mp
    (by rw [spread_comp]; exact hx)
  have hmapped := (forall_tableau_iff hfit (fun l _ => l = 0) step).mpr fun i row hi => by
    have hbalance := hseen i row hi
    rcases hrows row (List.mem_of_getElem? hi) with ⟨hu, hv, hsides⟩
    rw [hsides] at hbalance
    rw [hsides, hend _ hu, hend _ hv, sub_sub_sub_cancel_right]
    exact balance_map _ _ hi hbalance f step fun n => rfl
  simp only [step, spread_val] at hmapped
  exact hmapped

/-- The coefficients of all tableaus that are reached. -/
theorem IsReached.coeff_cases (h : s.IsReached t) (hnetwork : s.tableau.IsNetwork)
    {row : TableauRow Rat s.width} (hrow : row ∈ t) (j : Fin s.width) :
    row.coeff j = -1 ∨ row.coeff j = 0 ∨ row.coeff j = 1 :=
  (hnetwork.of_satisfies_iff h.solved h.satisfies_iff).coeff_cases h.solved hrow j

end StandardForm

end CyclePlan
