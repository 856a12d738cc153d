import CyclePlan.Proofs.Simplex.Expressions
import CyclePlan.Proofs.Simplex.Phases

/-!
# Relaxations Are Right

In exact arithmetic and without tolerances a relaxation gives the right answer to
every model and all bounds, unless the pivots run out.

What the answers mean is said of values, one for each variable, and mentions
neither columns nor tableaus. An answer with values gives a best point
(`Model.IsBestWithin`), a denial means that there is no point, and the objective
is called unbounded only if there are points that are better than anything
(`Model.IsUnboundedWithin`). `relax_isExact` puts the two phases together with
the expressions of the variables. Since the three kinds of answers exclude each
other, each of them is given exactly where it is right (`relax_decides`).

## Main definitions

* `Direction.Prefers`: One objective value is better than another.
* `Model.IsBestWithin`, `Model.IsUnboundedWithin`: What a relaxation is asked.
* `Relaxation.IsExact`: An answer is right.

## Theorems

* `Model.relax_isExact`: Relaxations are right.
* `Model.relax_decides`: Each answer is given exactly where it is right.
-/

namespace CyclePlan

/-- One objective value is better than another. -/
def Direction.Prefers (d : Direction) (a b : Rat) : Prop :=
  match d with
  | minimize => a < b
  | maximize => b < a

theorem Direction.prefers_iff (d : Direction) (a b : Rat) :
    d.Prefers a b ↔ d.sign * a < d.sign * b := by
  cases d with
  | minimize => rw [sign, one_mul, one_mul]; exact Iff.rfl
  | maximize => rw [sign, neg_one_mul, neg_one_mul, neg_lt_neg_iff]; exact Iff.rfl

namespace Model

variable (m : Model Rat) (box : Box Rat) {values : List Rat}

/-- The objective value at listed values. -/
def objectiveAt (values : List Rat) : Rat := m.objectiveValue fun v => values.getD v 0

/-- Values are a point, and no point has a better objective value. -/
structure IsBestWithin (values : List Rat) : Prop extends m.IsPointWithin box values where
  best : ∀ other, m.IsPointWithin box other →
    ¬ m.objective.direction.Prefers (m.objectiveAt other) (m.objectiveAt values)

/-- Some points have better objective values than any given number. -/
def IsUnboundedWithin : Prop :=
  ∀ K, ∃ values, m.IsPointWithin box values ∧ m.objective.direction.Prefers (m.objectiveAt values) K

end Model

/-- An answer is right. Nothing is said by the lack of one. -/
def Relaxation.IsExact (r : Relaxation Rat) (m : Model Rat) (box : Box Rat) : Prop :=
  match r with
  | optimal values objective => m.IsBestWithin box values ∧ objective = m.objectiveAt values
  | infeasible => ∀ values, ¬ m.IsPointWithin box values
  | unbounded => m.IsUnboundedWithin box
  | stalled => True

namespace StandardForm

variable {s : StandardForm Rat} {t : Tableau Rat s.width}

/-- The value of a column is that of the tableau's point. -/
theorem columnValue_eq (h : t.IsSolved) (j : Nat) : s.columnValue t j = spread t.point j := by
  rw [columnValue]
  cases hfind : t.find? fun row => row.basic.val == j with
  | some row =>
      have hbasic : row.basic.val = j := by
        have hsome := List.find?_some hfind
        exact beq_iff_eq.mp hsome
      rw [← hbasic, spread_val, h.point_basic (List.mem_of_find?_eq_some hfind)]
  | none =>
      dsimp only
      rw [spread]
      split
      · refine (Tableau.point_of_not_isBasic ?_).symm
        rintro ⟨row, hrow, hbasic⟩
        refine List.find?_eq_none.mp hfind row hrow ?_
        rw [hbasic]
        exact beq_self_eq_true j
      · rfl

/-- The value of a variable is read off the tableau's point. -/
theorem valueOf_eq (h : t.IsSolved) (r : Reading Rat) :
    s.valueOf t r = r.read (spread t.point) := by
  rw [valueOf, Reading.read, Scalar.sum, ← List.sum_eq_foldl]
  simp only [columnValue_eq h]

variable {m : Model Rat} {box : Box Rat} {values : List Rat}

/-- Points of the first tableau are points of the model. -/
theorem isPointWithin_of_isPoint (hbox : ∀ b ∈ box, b.isEmpty .exact = false)
    {x : Fin (ofModel m box).width → Rat} (hx : (ofModel m box).IsPoint (ofModel m box).tableau x) :
    m.IsPointWithin box ((ofModel m box).valuesAt (spread x)) :=
  (admits_ofModel_iff m hbox (spread_nonneg hx.nonneg)).mp
    (admits_of_satisfies (ofModel_isFit m box) hx)

/-- Every point of the model stems from one of the first tableau. -/
theorem exists_isPoint (hbox : ∀ b ∈ box, b.isEmpty .exact = false)
    (h : m.IsPointWithin box values) :
    ∃ x, (ofModel m box).IsPoint (ofModel m box).tableau x ∧
      (ofModel m box).valuesAt (spread x) = values := by
  rcases exists_admits m hbox h with ⟨y, hy, rfl⟩
  rcases exists_satisfies (ofModel_isFit m box) hy with ⟨x, hx, hsame⟩
  refine ⟨x, hx, List.map_congr_left fun r hr => Reading.read_congr fun p hp => ?_⟩
  have hlt := mem_columns_ofModel m hr hp
  have hwidth := hlt.trans_le (columns_le_firstArtificial.trans firstArtificial_le_width)
  rw [← hsame ⟨p.1, hwidth⟩ hlt]
  exact dif_pos hwidth

end StandardForm

namespace Model

open StandardForm

variable (m : Model Rat) (box : Box Rat)

/-- No value lies within bounds one of which are empty. -/
theorem not_isPointWithin_of_isEmpty (hany : box.any (·.isEmpty .exact) = true)
    (values : List Rat) : ¬ m.IsPointWithin box values := by
  intro h
  rcases List.any_eq_true.mp hany with ⟨b, hb, hempty⟩
  rcases List.mem_iff_get.mp hb with ⟨i, rfl⟩
  have hi : i.val < values.length := h.within.length_eq ▸ i.isLt
  exact Bounds.not_admits_of_isEmpty hempty (h.within.get i.isLt hi)

/-- Relaxations are right. -/
theorem relax_isExact (pivots : Nat) : (m.relax .exact pivots box).IsExact m box := by
  rw [relax]
  by_cases hany : box.any (·.isEmpty .exact) = true
  · rw [if_pos hany]
    exact m.not_isPointWithin_of_isEmpty box hany
  · rw [if_neg hany]
    have hbox : ∀ b ∈ box, b.isEmpty .exact = false := fun b hb =>
      Bool.eq_false_iff.mpr fun hempty => hany (List.any_eq_true.mpr ⟨b, hb, hempty⟩)
    rcases exists_costOf_phaseTwoCost m box m.objective with ⟨k, hcost⟩
    have hphase := phaseOne_cases (ofModel_isFit m box) pivots
    dsimp only
    split
    · exact trivial
    · next hone =>
      rw [hone] at hphase
      intro values hvalues
      rcases exists_isPoint hbox hvalues with ⟨x, hx, _⟩
      exact hphase x hx
    · next t hone =>
      rw [hone] at hphase
      have htwo := phaseTwo_cases hphase ((ofModel m box).phaseTwoCost m.objective) pivots
      split
      · exact trivial
      · next heq =>
        -- A cost below a bound that is moved along with the offsets.
        rw [heq] at htwo
        intro K
        rcases htwo (m.objective.direction.sign * K + k) with ⟨x, hx, hlt⟩
        refine ⟨_, isPointWithin_of_isPoint hbox hx, (Direction.prefers_iff _ _ _).mpr ?_⟩
        rw [hcost] at hlt
        exact lt_of_add_lt_add_right hlt
      · next t' heq =>
        rw [heq] at htwo
        rcases htwo with ⟨hready, hbest⟩
        have hvalues : (ofModel m box).readings.map ((ofModel m box).valueOf t')
            = (ofModel m box).valuesAt (spread t'.point) :=
          List.map_congr_left fun r _ => valueOf_eq hready.solved r
        rw [hvalues]
        refine ⟨⟨isPointWithin_of_isPoint hbox hready.isPoint, fun other hother => ?_⟩, rfl⟩
        rcases exists_isPoint hbox hother with ⟨x, hx, rfl⟩
        have hle := hbest x hx
        rw [hcost, hcost] at hle
        rw [Direction.prefers_iff]
        exact not_lt.mpr (le_of_add_le_add_right hle)

/-- Unless the pivots run out, each answer is given exactly where it is right. -/
theorem relax_decides (pivots : Nat) (hdone : m.relax .exact pivots box ≠ .stalled) :
    (m.relax .exact pivots box = .infeasible ↔ ¬ ∃ values, m.IsPointWithin box values) ∧
      (m.relax .exact pivots box = .unbounded ↔
        (∃ values, m.IsPointWithin box values) ∧ m.IsUnboundedWithin box) ∧
      ((∃ values, m.IsPointWithin box values) → ¬ m.IsUnboundedWithin box →
        ∃ values objective, m.relax .exact pivots box = .optimal values objective ∧
          m.IsBestWithin box values ∧ objective = m.objectiveAt values) := by
  have hexact := m.relax_isExact box pivots
  cases hanswer : m.relax .exact pivots box with
  | stalled => exact absurd hanswer hdone
  | infeasible =>
      rw [hanswer] at hexact
      have hnone : ¬ ∃ values, m.IsPointWithin box values := fun ⟨values, h⟩ => hexact values h
      exact ⟨⟨fun _ => hnone, fun _ => rfl⟩, ⟨fun h => (by cases h), fun h => absurd h.1 hnone⟩,
        fun h => absurd h hnone⟩
  | unbounded =>
      rw [hanswer] at hexact
      rcases hexact 0 with ⟨values, hvalues, _⟩
      exact ⟨⟨fun h => (by cases h), fun h => absurd ⟨values, hvalues⟩ h⟩,
        ⟨fun _ => ⟨⟨values, hvalues⟩, hexact⟩, fun _ => rfl⟩, fun _ h => absurd hexact h⟩
  | optimal values objective =>
      rw [hanswer] at hexact
      rcases hexact with ⟨hbest, hobjective⟩
      have hbounded : ¬ m.IsUnboundedWithin box := by
        intro h
        rcases h (m.objectiveAt values) with ⟨other, hother, hbetter⟩
        exact hbest.best other hother hbetter
      exact ⟨⟨fun h => (by cases h), fun h => absurd ⟨values, hbest.toIsPointWithin⟩ h⟩,
        ⟨fun h => (by cases h), fun h => absurd h.2 hbounded⟩,
        fun _ _ => ⟨values, objective, rfl, hbest, hobjective⟩⟩

/-- Two constraints that leave a bounded region of two variables. -/
def wedge : Model Rat where
  vars := [⟨"x", .continuous, some 0, none⟩, ⟨"y", .continuous, some 0, none⟩]
  distinct := by decide
  constraints := [(1, ⟨[(0, 1), (1, 2)], .le, 14⟩), (2, ⟨[(0, 3), (1, -1)], .ge, 0⟩)]
  objective := ⟨.maximize, [(0, 3), (1, 4)]⟩

/-- Bounds within which that region is cut off on the right. -/
def wedgeBox : Box Rat := [⟨some 0, some 5⟩, ⟨some 0, none⟩]

/-- The best point of the region is one of its corners. -/
theorem wedge_isBestWithin : wedge.relax .exact 10 wedgeBox ≠ .stalled ∧
    wedge.IsBestWithin wedgeBox [5, 9 / 2] := by
  have hanswer : wedge.relax .exact 10 wedgeBox = .optimal [5, 9 / 2] 33 := by decide +kernel
  have hdone : wedge.relax .exact 10 wedgeBox ≠ .stalled := by
    rw [hanswer]
    exact fun h => by cases h
  rcases relax_decides wedge wedgeBox 10 hdone with ⟨hinfeasible, hunbounded, hoptimal⟩
  rw [hanswer] at hinfeasible hunbounded
  have hpoint : ∃ values, wedge.IsPointWithin wedgeBox values := by
    by_contra h
    cases hinfeasible.mpr h
  have hbounded : ¬ wedge.IsUnboundedWithin wedgeBox := by
    intro h
    cases hunbounded.mpr ⟨hpoint, h⟩
  rcases hoptimal hpoint hbounded with ⟨values, objective, heq, hbest, _⟩
  cases hanswer.symm.trans heq
  exact ⟨hdone, hbest⟩

end Model

end CyclePlan
