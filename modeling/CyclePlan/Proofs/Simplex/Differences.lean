import CyclePlan.Proofs.Simplex.Grid
import CyclePlan.Proofs.Simplex.Exactness

/-!
# Difference Models

Models whose constraints bound differences of variables, and why tolerances make no
difference to their relaxations.

If all bounds of variables are whole, every variable is a whole number plus one
column. The rows of such a model are difference rows then, and right-hand sides are on
a grid if those of the constraints are. So the tableaus are networks, and relaxations
with fine tolerances are exact ones, whose answers are on the grid, too
(`Model.IsDifferential.relax_eq`).

## Main definitions

* `Bounds.IsWhole`: A whole lower bound, and a whole upper one or none.
* `Constraint.IsDifference`, `Model.IsDifferential`: Models that bound differences.

## Theorems

* `Model.IsDifferential.rows`: The rows of a difference model.
* `Model.IsDifferential.relax_eq`: Relaxations with fine tolerances are exact.
-/

namespace CyclePlan

/-- A constraint bounds one variable less another, where either may be missing. -/
def Constraint.IsDifference (c : Constraint Rat) : Prop :=
  ∃ u v : Option Nat, ∀ x, Model.evaluate c.terms x = valueAt x u - valueAt x v

/-- There is a lower bound, and the bounds are whole. -/
structure Bounds.IsWhole (b : Bounds Rat) : Prop where
  lower : ∃ l, b.lower = some l ∧ OnGrid 1 l
  upper : ∀ u ∈ b.upper, OnGrid 1 u

/-- All variables have whole bounds, all constraints bound differences by numbers on a
    grid, and whole values have a whole objective. -/
structure Model.IsDifferential (m : Model Rat) (D : Nat) : Prop where
  bounds : ∀ v ∈ m.vars, Bounds.IsWhole ⟨v.lower, v.upper⟩
  difference : ∀ c ∈ m.constraints, c.2.IsDifference
  rhs : ∀ c ∈ m.constraints, OnGrid D c.2.rhs
  objective : ∀ x, (∀ i, OnGrid 1 (x i)) → OnGrid 1 (m.objectiveValue x)

variable {D : Nat} {tol : Tolerances Rat} {m : Model Rat} {box : Box Rat}

/-- Whether whole bounds are empty does not depend on fine tolerances. -/
theorem Bounds.IsWhole.isEmpty_eq {b : Bounds Rat} (h : b.IsWhole) (htol : tol.IsFine D) :
    b.isEmpty tol = b.isEmpty .exact := by
  rcases h.lower with ⟨l, hl, hlgrid⟩
  rw [isEmpty, isEmpty, hl]
  cases hu : b.upper with
  | none => rfl
  | some u =>
      have hlt : ∀ tol' : Tolerances Rat, tol'.IsFine D → (u + tol'.pivot < l ↔ u < l) :=
        fun tol' h' => lt_sub_iff_add_lt.symm.trans
          (hlgrid.of_one.lt_sub_iff (h.upper u hu).of_one h'.pos h'.pivot)
      exact decide_eq_decide.mpr
        ((hlt tol htol).trans (hlt .exact (Tolerances.exact_isFine htol.pos)).symm)

namespace StandardForm

/-- Within whole bounds a variable is a whole number plus a column. -/
theorem exists_of_isWhole (hbox : ∀ b ∈ box, b.IsWhole) {r : Reading Rat}
    (hr : r ∈ (ofModel m box).readings) :
    ∃ l k, r = ⟨l, [(k, 1)]⟩ ∧ OnGrid 1 l ∧ k < (ofModel m box).columns := by
  have hcolumns := fun p hp => mem_columns_ofModel (p := p) m hr hp
  rcases List.mem_map.mp hr with ⟨rb, hrb, rfl⟩
  rcases exists_reading hrb with ⟨hb, k, hk⟩
  rcases (hbox _ hb).lower with ⟨l, hl, hgrid⟩
  rw [Bounds.reading_of_lower hl] at hk
  rw [hk] at hcolumns ⊢
  exact ⟨l, k, rfl, hgrid, hcolumns (k, 1) (List.mem_singleton_self _)⟩

/-- The same for a variable that may be missing. -/
theorem exists_valueAt (m : Model Rat) (hbox : ∀ b ∈ box, b.IsWhole) (v : Option Nat) :
    ∃ o k, OnGrid 1 o ∧ (∀ n ∈ k, n < (ofModel m box).columns) ∧
      ∀ y, valueAt (fun i => ((ofModel m box).valuesAt y).getD i 0) v = o + valueAt y k := by
  -- What is missing is zero.
  have hnone : (∀ y, valueAt (fun i => ((ofModel m box).valuesAt y).getD i 0) v = 0) →
      ∃ o k, OnGrid 1 o ∧ (∀ n ∈ k, n < (ofModel m box).columns) ∧
        ∀ y, valueAt (fun i => ((ofModel m box).valuesAt y).getD i 0) v = o + valueAt y k :=
    fun h => ⟨0, none, .zero, fun n hn => (by cases hn), fun y => (h y).trans (add_zero 0).symm⟩
  cases v with
  | none => exact hnone fun y => rfl
  | some i =>
      have hvalue : ∀ y, valueAt (fun i => ((ofModel m box).valuesAt y).getD i 0) (some i)
          = ((ofModel m box).readings[i]?.getD ⟨0, []⟩).read y := by
        intro y
        rw [← List.getD_eq_getElem?_getD]
        exact getD_map_read _ y i
      cases hr : (ofModel m box).readings[i]? with
      | none =>
          rw [hr] at hvalue
          exact hnone fun y => (hvalue y).trans (add_zero 0)
      | some r =>
          rcases exists_of_isWhole hbox (List.mem_of_getElem? hr) with ⟨l, k, rfl, hgrid, hk⟩
          refine ⟨l, some k, hgrid, fun n hn => (by cases hn; exact hk), fun y => ?_⟩
          rw [hvalue, hr, Option.getD_some, Reading.read_cons, one_mul]
          rfl

/-- Values at a tableau on the grid are on the grid. -/
theorem valueOf_onGrid {t : Tableau Rat (ofModel m box).width} (ht : t.IsGridded D)
    (hbox : ∀ b ∈ box, b.IsWhole) {r : Reading Rat} (hr : r ∈ (ofModel m box).readings) :
    OnGrid D ((ofModel m box).valueOf t r) := by
  rcases exists_of_isWhole hbox hr with ⟨l, k, rfl, hgrid, _⟩
  have hcolumn : OnGrid D ((ofModel m box).columnValue t k) := by
    rw [columnValue]
    split
    · next row hrow => exact ht.rhs row (List.mem_of_find?_eq_some hrow)
    · exact .zero
  rw [valueOf, Scalar.sum, ← List.sum_eq_foldl, List.map_singleton, List.sum_singleton]
  dsimp only
  rw [one_mul]
  exact hgrid.of_one.add hcolumn

theorem isDifference_nonneg {row : StandardRow Rat} {columns : Nat}
    (h : row.IsDifference columns ∧ OnGrid D row.rhs) :
    row.nonneg.IsDifference columns ∧ OnGrid D row.nonneg.rhs := by
  rw [StandardRow.nonneg]
  split
  · rcases h with ⟨⟨u, v, hu, hv, hsum⟩, hrhs⟩
    refine ⟨⟨v, u, hv, hu, fun y => ?_⟩, hrhs.neg⟩
    rw [← neg_sub, ← hsum, StandardRow.sum, StandardRow.sum, List.sum_neg, List.map_map,
      List.map_map]
    congr 1
    exact List.map_congr_left fun t _ => neg_mul _ _
  · exact h

/-- The row of a difference constraint is a difference row. -/
theorem isDifference_ofConstraint (hbox : ∀ b ∈ box, b.IsWhole) {c : Constraint Rat}
    (hc : c.IsDifference) (hrhs : OnGrid D c.rhs) :
    (StandardRow.ofConstraint (ofModel m box).readings c).IsDifference (ofModel m box).columns ∧
      OnGrid D (StandardRow.ofConstraint (ofModel m box).readings c).rhs := by
  rcases hc with ⟨u, v, hterms⟩
  rcases exists_valueAt m hbox u with ⟨ou, ku, hou, hku, hu⟩
  rcases exists_valueAt m hbox v with ⟨ov, kv, hov, hkv, hv⟩
  have hsum : ∀ y, (StandardRow.ofConstraint (ofModel m box).readings c).sum y
      - (StandardRow.ofConstraint (ofModel m box).readings c).rhs
        = ou + valueAt y ku - (ov + valueAt y kv) - c.rhs := by
    intro y
    rw [sum_ofConstraint, hterms, ← hu, ← hv]
    rfl
  -- At zero the left side vanishes.
  have hzero : (StandardRow.ofConstraint (ofModel m box).readings c).sum 0 = 0 := by
    refine List.sum_eq_zero fun z hz => ?_
    rcases List.mem_map.mp hz with ⟨t, _, rfl⟩
    exact mul_zero _
  have hnone : ∀ k : Option Nat, valueAt 0 k = 0 := fun k => by cases k <;> rfl
  have hright := hsum 0
  rw [hzero, hnone, hnone] at hright
  have heq : (StandardRow.ofConstraint (ofModel m box).readings c).rhs = c.rhs - (ou - ov) := by
    linarith
  refine ⟨⟨ku, kv, hku, hkv, fun y => ?_⟩, ?_⟩
  · have hy := hsum y
    rw [heq] at hy
    linarith
  · rw [heq]
    exact hrhs.sub (hou.sub hov).of_one

end StandardForm

namespace Model.IsDifferential

open StandardForm

/-- The rows of a difference model are difference rows on the grid. -/
theorem rows (h : m.IsDifferential D) (hbox : ∀ b ∈ box, b.IsWhole) :
    ∀ row ∈ (ofModel m box).rows,
      row.IsDifference (ofModel m box).columns ∧ OnGrid D row.rhs := by
  intro row hrow
  rcases List.mem_map.mp (rows_ofModel m box ▸ hrow) with ⟨row', hrow', rfl⟩
  refine isDifference_nonneg ?_
  rcases List.mem_append.mp hrow' with hrange | hconstraint
  · rcases List.mem_filterMap.mp hrange with ⟨⟨r, b⟩, hrb, hrow⟩
    rcases Option.bind_eq_some_iff.mp hrow with ⟨p, hp, hrow⟩
    have hcolumn := (mem_readingsFrom hrb (List.mem_of_head? hp)).2
    have hb := hbox b (exists_reading hrb).1
    rw [Bounds.rangeRow?_eq] at hrow
    rcases Option.bind_eq_some_iff.mp hrow with ⟨l, hl, hrow⟩
    rcases Option.bind_eq_some_iff.mp hrow with ⟨u, hu, hrow⟩
    cases hrow
    refine ⟨⟨some p.1, none, fun n hn => (by cases hn; exact hcolumn), fun n hn => (by cases hn),
      fun y => ?_⟩, ?_⟩
    · rw [StandardRow.sum, List.map_singleton, List.sum_singleton, one_mul]
      exact (sub_zero _).symm
    · dsimp only
      split
      · exact .zero
      · rcases hb.lower with ⟨l', hl', hgrid⟩
        cases hl.symm.trans hl'
        exact ((hb.upper u hu).sub hgrid).of_one
  · rcases List.mem_map.mp hconstraint with ⟨c, hc, rfl⟩
    exact isDifference_ofConstraint hbox (h.difference c hc) (h.rhs c hc)

/-- Whole columns have whole costs, up to the constant that the offsets make. -/
theorem exists_cost (h : m.IsDifferential D) (hbox : ∀ b ∈ box, b.IsWhole) :
    ∃ k, ∀ x : Fin (ofModel m box).width → Rat, (∀ j, OnGrid 1 (x j)) →
      OnGrid 1 (costOf ((ofModel m box).phaseTwoCost m.objective) x - k) := by
  rcases exists_costOf_phaseTwoCost m box m.objective with ⟨k, hcost⟩
  refine ⟨k, fun x hx => ?_⟩
  have hsign : OnGrid 1 m.objective.direction.sign := by
    cases m.objective.direction with
    | minimize => exact .intCast 1
    | maximize => exact .intCast (-1)
  rw [hcost, add_sub_cancel_right]
  refine hsign.mul (h.objective _ fun i => ?_)
  rcases exists_valueAt m hbox (some i) with ⟨o, c, ho, _, hvalue⟩
  have hread : OnGrid 1 (o + valueAt (spread x) c) := by
    refine ho.add ?_
    cases c with
    | none => exact .zero
    | some c =>
        rw [valueAt, Option.elim_some, spread]
        split
        · exact hx _
        · exact .zero
  rw [← hvalue] at hread
  exact hread

/-- The costs of the second phase are whole. -/
theorem cost (h : m.IsDifferential D) (hbox : ∀ b ∈ box, b.IsWhole)
    (j : Fin (ofModel m box).width) :
    OnGrid 1 (((ofModel m box).phaseTwoCost m.objective).get j) := by
  rcases h.exists_cost hbox with ⟨k, hcost⟩
  -- A cost is what one unit of its column adds.
  have hone : OnGrid 1 (costOf ((ofModel m box).phaseTwoCost m.objective) (Pi.single j 1) - k) := by
    refine hcost _ fun i => ?_
    rw [Pi.single_apply]
    split
    · exact .intCast 1
    · exact .zero
  have hzero := hcost 0 fun _ => .zero
  have hget : costOf ((ofModel m box).phaseTwoCost m.objective) (Pi.single j 1)
      - costOf ((ofModel m box).phaseTwoCost m.objective) 0
        = ((ofModel m box).phaseTwoCost m.objective).get j := by
    simp [costOf, Pi.single_apply]
  rw [← hget, ← sub_sub_sub_cancel_right _ _ k]
  exact hone.sub hzero

/-- Relaxations with fine tolerances are exact, and what they answer is on the
    grid. -/
theorem relax_eq (h : m.IsDifferential D) (hbox : ∀ b ∈ box, b.IsWhole) (htol : tol.IsFine D)
    (pivots : Nat) :
    m.relax tol pivots box = m.relax .exact pivots box ∧
      ∀ values objective, m.relax .exact pivots box = .optimal values objective →
        ∀ x ∈ values, OnGrid D x := by
  have hfit := ofModel_isFit m box
  have hnetwork := tableau_isNetwork hfit fun row hrow => (h.rows hbox row hrow).1
  have hany : box.any (·.isEmpty tol) = box.any (·.isEmpty .exact) := by
    rw [Bool.eq_iff_iff, List.any_eq_true, List.any_eq_true]
    exact exists_congr fun b => and_congr_right fun hb => by rw [(hbox b hb).isEmpty_eq htol]
  rcases phaseOne_eq hfit hnetwork htol (fun row hrow => (h.rows hbox row hrow).2) pivots with
    ⟨hone, hgrid⟩
  have hready := phaseOne_cases hfit pivots
  rw [relax, relax, hany]
  by_cases hempty : box.any (·.isEmpty .exact) = true
  · rw [if_pos hempty, if_pos hempty]
    exact ⟨rfl, fun _ _ h => by cases h⟩
  · rw [if_neg hempty, if_neg hempty]
    dsimp only
    rw [hone]
    cases hphase : (ofModel m box).phaseOne .exact pivots with
    | stalled | infeasible => exact ⟨rfl, fun _ _ h => by cases h⟩
    | reached t =>
        rw [hphase] at hgrid hready
        have hrun := gridded_of_optimize (fun j => decide (j.val < (ofModel m box).firstArtificial))
          hnetwork hready.toIsReached hgrid (h.cost hbox) pivots
        dsimp only
        rw [optimize_eq _ hnetwork htol hready.toIsReached hgrid (h.cost hbox)]
        refine ⟨rfl, fun values objective hanswer x hx => ?_⟩
        split at hanswer
        · cases hanswer
        · cases hanswer
        · next t' hend =>
          rw [hend] at hrun
          cases hanswer
          rcases List.mem_map.mp hx with ⟨r, hr, rfl⟩
          exact valueOf_onGrid hrun.2 hbox hr

end Model.IsDifferential

end CyclePlan
