import CyclePlan.Proofs.Lp.BranchAndBound
import CyclePlan.Proofs.Lp.Extension
import CyclePlan.Proofs.Lp.Oracle

/-!
# An Exact Solver to Run

A solver that is right about every model and answers some of them by computation.

The oracle is exact and cannot be run. Branch and bound with exact relaxations and no
tolerance can be run, but it may run out of nodes, its margin takes coefficients of the
goal that are nearly whole for whole, and it says nothing about models that mention
variables they do not have. `backedSolver` asks it first, where none of this can go wrong,
and asks the oracle if it finds no optimum. So it is exact and sound (`backedSolver_exact`,
`backedSolver_sound`), and whatever branch and bound decides is decided by evaluation.

## Main definitions

* `Model.IsDecided`: Branch and bound is right about the optimum it finds.
* `backedSolver`: The solver.

## Theorems

* `Model.IsNumbered.isOptimum_of_listed`: Optima among lists of values are optima.
* `backedSolver_exact`, `backedSolver_sound`: The solver is exact and sound.
-/

namespace CyclePlan

namespace Model

variable {m : Model Rat} {values : List Rat}

instance (m : Model Rat) : Decidable m.IsNumbered :=
  decidable_of_iff
    (m.constraints.Pairwise (fun c d => c.1 < d.1) ∧
      (∀ c ∈ m.constraints, c.1 < max m.nextConstraint 1) ∧
      ∀ c ∈ m.constraints, ∀ t ∈ c.2.terms, t.1 < m.vars.length)
    ⟨fun ⟨hascending, hgiven, hterms⟩ => ⟨hascending, hgiven, hterms⟩,
      fun h => ⟨h.ascending, h.given, h.terms⟩⟩

/-- Values that no list of values is better than are better than no assignment either, if
    the model mentions no variables that it does not have. -/
theorem IsNumbered.isOptimum_of_listed (hm : m.IsNumbered)
    (hgoal : ∀ t ∈ m.objective.terms, t.1 < m.vars.length) (hpoint : m.IsIntegralPoint values)
    (hbest : ∀ other, m.IsIntegralPoint other →
      ¬ m.objective.direction.Prefers (m.objectiveAt other) (m.objectiveAt values)) :
    m.IsOptimum fun v => values.getD v 0 := by
  refine ⟨hpoint.point, hpoint.integral, fun y hy hint => ?_⟩
  obtain ⟨listed, hlength, hagree⟩ : ∃ listed : List Rat, listed.length = m.vars.length ∧
      ∀ i < m.vars.length, listed.getD i 0 = y i := by
    refine ⟨(List.range m.vars.length).map y, by simp, fun i hi => ?_⟩
    rw [List.getD_eq_getElem?_getD, List.getElem?_map, List.getElem?_range hi]
    rfl
  have hlisted : m.IsIntegralPoint listed :=
    ⟨hlength, (hm.isPoint_congr hagree).mpr hy, (isIntegral_congr hagree).mpr hint⟩
  have hvalue : m.objectiveAt listed = m.objectiveValue y := by
    rw [objectiveAt, objectiveValue, objectiveValue]
    exact evaluate_congr fun t ht => hagree _ (hgoal t ht)
  have hnot := hbest listed hlisted
  rw [hvalue] at hnot
  cases hdirection : m.objective.direction with
  | minimize =>
      rw [hdirection] at hnot
      exact not_lt.mp hnot
  | maximize =>
      rw [hdirection] at hnot
      exact not_lt.mp hnot

/-- Branch and bound finds an optimum, and nothing is in the way of its being one. -/
def IsDecided (m : Model Rat) : Prop :=
  m.IsNumbered ∧ (∀ t ∈ m.objective.terms, t.1 < m.vars.length ∧ t.2.den = 1) ∧
    (BranchAndBound.solve (relax .exact 100) ⟨100, 0⟩ m).status = .optimal

instance (m : Model Rat) : Decidable m.IsDecided := by
  unfold IsDecided
  infer_instance

theorem IsDecided.exists_isOptimum (h : m.IsDecided) :
    ∃ x, (BranchAndBound.solve (relax .exact 100) ⟨100, 0⟩ m).Carries m x ∧ m.IsOptimum x := by
  rcases h with ⟨hm, hgoal, hstatus⟩
  have hcoeff : ∀ t ∈ m.objective.terms, ∀ n : Int, |t.2 - n| < 1e-12 → t.2 = n := by
    intro t ht n hnear
    rw [← Rat.coe_int_num_of_den_eq_one (hgoal t ht).2] at hnear ⊢
    exact BranchAndBound.eq_of_abs_sub_lt hnear
  have hrelax : BranchAndBound.IsRight (relax .exact 100) m := fun box _ => m.relax_isExact box 100
  rcases BranchAndBound.exists_best_of_optimal hrelax hcoeff hstatus with
    ⟨values, hcarries, hpoint, hbest⟩
  exact ⟨_, hcarries, hm.isOptimum_of_listed (fun t ht => (hgoal t ht).1) hpoint hbest⟩

end Model

/-- Branch and bound where it finds an optimum, and the oracle where it does not. -/
noncomputable def backedSolver : Solver Rat := fun asked m =>
  if m.IsDecided then BranchAndBound.solve (Model.relax .exact 100) ⟨100, 0⟩ m else oracle asked m

theorem backedSolver_exact : backedSolver.Exact := by
  constructor
  · intro asked m hopt
    rw [backedSolver]
    split
    · next h => exact ⟨h.2.2, h.exists_isOptimum⟩
    · exact oracle_exact.optimal asked m hopt
  · intro asked m
    rw [backedSolver]
    split
    · next h =>
      rcases h.exists_isOptimum with ⟨x, _, hx⟩
      rw [h.2.2]
      exact ⟨fun hstatus => (by cases hstatus),
        fun hnone => absurd ⟨x, hx.point, hx.integral⟩ hnone⟩
    · exact oracle_exact.infeasible_iff asked m

theorem backedSolver_sound : backedSolver.Sound := by
  intro asked m hstatus
  rw [backedSolver] at hstatus ⊢
  split at hstatus
  · next h =>
    rcases h.exists_isOptimum with ⟨x, hcarries, hx⟩
    rw [if_pos h]
    exact ⟨x, hcarries, hx.point, hx.integral⟩
  · next h =>
    rw [if_neg h]
    exact oracle_sound asked m hstatus

end CyclePlan
