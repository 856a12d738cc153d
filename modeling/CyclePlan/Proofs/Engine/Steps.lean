import CyclePlan.Engine.Basic
import CyclePlan.Proofs.Action

/-!
# The Steps of an Engine

When a call on an engine succeeds, and what it then changes.

Every call is a guard followed by a change. The equations of this module give
both at once, for any number type and any solver, and they are all that the
rest of the theory knows about the calls. What a step of the discipline does to
the model stays opaque here: the equation of a call says that the step was
performed on the engine's model and that the result was put back.

## Theorems

* `perform_load_ok_iff`, `perform_addDependencies_ok_iff`,
  `perform_contributeIntervals_ok_iff`, `perform_setObjective_ok_iff`,
  `perform_solve_ok_iff`, `perform_lend_ok_iff`: The calls.
* `perform_build_pipelined_ok_iff`, `perform_build_plain_ok_iff`: Building in one go.
-/

namespace CyclePlan

namespace Engine

variable {α β : Type} {e e' : Engine α}

@[simp] theorem perform_refuse (call : EngineCall) (e : Engine α) :
    perform (refuse call : EngineM α β) e = (.error (.precondition call (.phase e.phase)), e) := rfl

theorem refuse_ne_ok {call : EngineCall} {e : Engine α} (b : β) (t : Engine α) :
    perform (refuse call : EngineM α β) e ≠ (.ok b, t) := by
  rw [perform_refuse]
  intro h
  cases h

theorem perform_liftExcept_ok_iff {x : Except (SchedulingError α) β} {b : β} :
    perform (liftExcept x) e = (.ok b, e') ↔ x = .ok b ∧ e' = e := by
  cases x with
  | ok b' =>
      constructor
      · intro h
        cases h
        exact ⟨rfl, rfl⟩
      · rintro ⟨h, rfl⟩
        cases h
        rfl
  | error _ =>
      constructor
      · intro h
        cases h
      · rintro ⟨h, _⟩
        cases h

theorem perform_viewOrRefuse_ok_iff {call : EngineCall} {v : View α} :
    perform (viewOrRefuse call) e = (.ok v, e') ↔ e.view = some v ∧ e' = e := by
  rw [viewOrRefuse, perform_bind_of_ok (perform_get e)]
  cases e.view with
  | some w =>
      constructor
      · intro h
        cases h
        exact ⟨rfl, rfl⟩
      · rintro ⟨h, rfl⟩
        cases h
        rfl
  | none =>
      constructor
      · intro h
        cases h
      · rintro ⟨h, _⟩
        cases h

/-- A building step is performed on the model, and the result is put back. -/
theorem perform_onModel_ok_iff {act : BuildM α β} {b : β} :
    perform (onModel act) e = (.ok b, e') ↔
      ∃ m, perform act e.model = (.ok b, m) ∧ e' = { e with model := m } := by
  rw [onModel, perform_bind_of_ok (perform_get e)]
  change perform (set { e with model := (perform act e.model).2 } >>=
    fun _ => liftExcept (perform act e.model).1) e = _ ↔ _
  -- The model is put back first, and only then is a refusal passed on.
  rw [perform_bind_of_ok (perform_set _ _), perform_liftExcept_ok_iff]
  rcases perform act e.model with ⟨answer, m⟩
  constructor
  · rintro ⟨rfl, rfl⟩
    exact ⟨m, rfl, rfl⟩
  · rintro ⟨m', h, rfl⟩
    cases h
    exact ⟨rfl, rfl⟩

/-- A call that looks up the view, performs a building step and leaves a mark. -/
theorem perform_viewed_ok_iff {γ : Type} {call : EngineCall} {act : View α → BuildM α β}
    {mark : Engine α → Engine α} {answer : View α → β → γ} {c : γ} :
    perform (do
        let v ← viewOrRefuse call
        let b ← onModel (act v)
        modify mark
        return answer v b) e = (.ok c, e') ↔
      ∃ v b m, e.view = some v ∧ perform (act v) e.model = (.ok b, m) ∧ c = answer v b ∧
        e' = mark { e with model := m } := by
  constructor
  · intro h
    rcases perform_bind_ok_iff.mp h with ⟨v, _, hview, hrest⟩
    rcases perform_viewOrRefuse_ok_iff.mp hview with ⟨hview, rfl⟩
    rcases perform_bind_ok_iff.mp hrest with ⟨b, _, hmodel, hanswer⟩
    rcases perform_onModel_ok_iff.mp hmodel with ⟨m, hact, rfl⟩
    cases hanswer
    exact ⟨v, b, m, hview, hact, rfl, rfl⟩
  · rintro ⟨v, b, m, hview, hact, rfl, rfl⟩
    refine perform_bind_ok_iff.mpr ⟨v, e, perform_viewOrRefuse_ok_iff.mpr ⟨hview, rfl⟩, ?_⟩
    exact perform_bind_ok_iff.mpr
      ⟨b, { e with model := m }, perform_onModel_ok_iff.mpr ⟨m, hact, rfl⟩, rfl⟩

variable [Scalar α]

/-- A graph is taken by a blank engine if it has no defects, it has a view, and
    the timing variables can be allocated. -/
theorem perform_load_ok_iff {g : Graph α} :
    perform (load g) e = (.ok ⟨⟩, e') ↔
      e.phase = .blank ∧ g.defects = [] ∧ ∃ v m, View.ofGraph g = .ok v ∧
        allocate (g.name ++ "_" ++ e.discipline.name) v = .ok m ∧
        e' = { e with model := m, view := some v, phase := .allocated } := by
  rw [load, perform_bind_of_ok (perform_get e)]
  refine (perform_guard_ok_iff refuse_ne_ok).trans ?_
  rw [Decidable.not_not]
  refine and_congr_right fun _ => ?_
  refine (perform_guard_ok_iff (fun _ _ h => by cases h)).trans ?_
  rw [Bool.not_eq_true', Bool.not_eq_false, List.isEmpty_iff]
  refine and_congr_right fun _ => ?_
  constructor
  · intro h
    rcases perform_bind_ok_iff.mp h with ⟨v, _, hview, hrest⟩
    rcases perform_liftExcept_ok_iff.mp hview with ⟨hview, rfl⟩
    rcases perform_bind_ok_iff.mp hrest with ⟨m, _, hmodel, hset⟩
    rcases perform_liftExcept_ok_iff.mp hmodel with ⟨hmodel, rfl⟩
    cases hset
    cases hgraph : View.ofGraph g with
    | ok w =>
        rw [hgraph] at hview
        cases hview
        exact ⟨v, m, rfl, hmodel, rfl⟩
    | error _ =>
        rw [hgraph] at hview
        cases hview
  · rintro ⟨v, m, hview, hmodel, rfl⟩
    refine perform_bind_ok_iff.mpr ⟨v, e, perform_liftExcept_ok_iff.mpr ⟨?_, rfl⟩, ?_⟩
    · rw [hview]
      rfl
    · exact perform_bind_ok_iff.mpr ⟨m, e, perform_liftExcept_ok_iff.mpr ⟨hmodel, rfl⟩, rfl⟩

/-- The forward dependencies are added once, before the objective. -/
theorem perform_addDependencies_ok_iff {sameBlockOnly : Bool} {n : Nat} :
    perform (addDependencies sameBlockOnly) e = (.ok n, e') ↔
      (e.phase = .allocated ∨ e.phase = .constrained) ∧ e.hasDependencies = false ∧
      ∃ v b m, e.view = some v ∧
        perform ((v.forwardPairs.filter (isEmitted sameBlockOnly)).forM addDependency) e.model
          = (.ok b, m) ∧
        n = (v.forwardPairs.filter (isEmitted sameBlockOnly)).length ∧
        e' = { e with model := m, hasDependencies := true, phase := .constrained } := by
  rw [addDependencies, perform_bind_of_ok (perform_get e)]
  refine (perform_unless_ok_iff refuse_ne_ok).trans ?_
  refine and_congr_right fun _ => (perform_guard_ok_iff refuse_ne_ok).trans ?_
  rw [Bool.not_eq_true]
  exact and_congr_right fun _ => perform_viewed_ok_iff

/-- So are the interval constraints. -/
theorem perform_contributeIntervals_ok_iff {call : EngineCall} {n : Nat} :
    perform (contributeIntervals call) e = (.ok n, e') ↔
      (e.phase = .allocated ∨ e.phase = .constrained) ∧ e.hasIntervals = false ∧
      ∃ v b m, e.view = some v ∧ perform (e.discipline.addIntervals v) e.model = (.ok b, m) ∧
        n = b ∧ e' = { e with model := m, hasIntervals := true, phase := .constrained } := by
  rw [contributeIntervals, perform_bind_of_ok (perform_get e)]
  refine (perform_unless_ok_iff refuse_ne_ok).trans ?_
  refine and_congr_right fun _ => (perform_guard_ok_iff refuse_ne_ok).trans ?_
  rw [Bool.not_eq_true]
  exact and_congr_right fun _ => perform_viewed_ok_iff

/-- The objective comes after the constraints, for overlapping iterations after
    the interval constraints. -/
theorem perform_setObjective_ok_iff {u : Unit} :
    perform setObjective e = (.ok u, e') ↔
      e.phase = .constrained ∧ (e.discipline.isPipelined = true → e.hasIntervals = true) ∧
      ∃ v b m, e.view = some v ∧ perform (e.discipline.addObjective v) e.model = (.ok b, m) ∧
        u = ⟨⟩ ∧ e' = { e with model := m, phase := .aimed } := by
  rw [setObjective, perform_bind_of_ok (perform_get e)]
  refine (perform_guard_ok_iff refuse_ne_ok).trans ?_
  rw [Decidable.not_not]
  refine and_congr_right fun _ => (perform_guard_ok_iff refuse_ne_ok).trans ?_
  rw [not_and, Bool.not_eq_true', Bool.not_eq_false]
  exact and_congr_right fun _ => perform_viewed_ok_iff

/-- Adding the intervals that the engine asks for anyway is the step that both
    kinds of intervals share. -/
theorem perform_addInterval (interval : Int) (h : e.discipline = .pipelined (.fixed interval)) :
    perform (addInterval interval) e = perform (contributeIntervals .addInterval) e := by
  rw [addInterval, perform_bind_of_ok (perform_get e)]
  simp only [h]
  rw [perform_bind_of_ok (perform_modify _ _)]
  congr 1
  rw [← h]

theorem perform_addBlockIntervals (h : e.discipline = .pipelined .perBlock) :
    perform addBlockIntervals e = perform (contributeIntervals .addBlockIntervals) e := by
  rw [addBlockIntervals, perform_bind_of_ok (perform_get e)]
  simp only [h]

/-- Without overlap, building adds the dependencies and the objective. -/
theorem perform_build_plain_ok_iff (h : e.discipline.isPipelined = false) {u : Unit} :
    perform build e = (.ok u, e') ↔
      ∃ n e₁, perform (addDependencies e.sameBlockOnly) e = (.ok n, e₁) ∧
        perform setObjective e₁ = (.ok u, e') := by
  rw [build, perform_bind_of_ok (perform_get e)]
  cases hd : e.discipline with
  | pipelined target =>
      rw [hd] at h
      cases h
  | _ => exact perform_bind_ok_iff

theorem discipline_of_addDependencies {sameBlockOnly : Bool} {n : Nat}
    (h : perform (addDependencies sameBlockOnly) e = (.ok n, e')) :
    e'.discipline = e.discipline := by
  rcases perform_addDependencies_ok_iff.mp h with ⟨_, _, v, _, m, _, _, _, rfl⟩
  rfl

/-- With overlap, the interval constraints come in between. Which of the two
    calls adds them only matters for the wording of a refusal. -/
theorem perform_build_pipelined_ok_iff {target : IntervalTarget}
    (h : e.discipline = .pipelined target) (call : EngineCall) {u : Unit} :
    perform build e = (.ok u, e') ↔
      ∃ n e₁, perform (addDependencies e.sameBlockOnly) e = (.ok n, e₁) ∧
        ∃ k e₂, perform (contributeIntervals call) e₁ = (.ok k, e₂) ∧
          perform setObjective e₂ = (.ok u, e') := by
  -- A success does not mention the call.
  have hcall : ∀ (other : EngineCall) (d d' : Engine α) (k : Nat),
      perform (contributeIntervals other) d = (.ok k, d') ↔
        perform (contributeIntervals call) d = (.ok k, d') := by
    intro other d d' k
    rw [perform_contributeIntervals_ok_iff, perform_contributeIntervals_ok_iff]
  rw [build, perform_bind_of_ok (perform_get e)]
  simp only [h]
  refine perform_bind_ok_iff.trans (exists₂_congr fun n e₁ => and_congr_right fun hadd => ?_)
  have hd : e₁.discipline = .pipelined target := (discipline_of_addDependencies hadd).trans h
  cases target with
  | fixed interval =>
      refine perform_bind_ok_iff.trans (exists₂_congr fun k e₂ => and_congr_left fun _ => ?_)
      rw [perform_addInterval interval hd, hcall]
  | perBlock =>
      refine perform_bind_ok_iff.trans (exists₂_congr fun k e₂ => and_congr_left fun _ => ?_)
      rw [perform_addBlockIntervals hd, hcall]

omit [Scalar α] in
/-- A model with an objective can be solved, any number of times. -/
theorem perform_solve_ok_iff {outcome : Outcome} :
    perform solve e = (.ok outcome, e') ↔
      (e.phase = .aimed ∨ e.phase = .solved ∨ e.phase = .infeasible) ∧
      outcome = outcomeOf (e.solver e.asked e.model) ∧
      e' = { e with
        phase := phaseAfter outcome
        solution := some (e.solver e.asked e.model)
        outcome := some outcome
        asked := e.asked + 1 } := by
  rw [solve, perform_bind_of_ok (perform_get e)]
  refine (perform_unless_ok_iff refuse_ne_ok).trans ?_
  refine and_congr_right fun _ => ?_
  constructor
  · intro h
    cases h
    exact ⟨rfl, rfl⟩
  · rintro ⟨rfl, rfl⟩
    rfl

omit [Scalar α] in
/-- The model is lent once there are constraints, and the engine counts as
    unsolved afterwards. -/
theorem perform_lend_ok_iff {borrow : StateM (Handle α) β} {b : β} :
    perform (lend borrow) e = (.ok b, e') ↔
      ¬ (e.phase = .blank ∨ e.phase = .allocated) ∧
      ∃ v, e.view = some v ∧ b = (Id.run (borrow.run (e.handle v))).1 ∧
        e' = { e with
          phase := if e.phase = .constrained then .constrained else .aimed
          model := (Id.run (borrow.run (e.handle v))).2.model
          asked := (Id.run (borrow.run (e.handle v))).2.asked } := by
  rw [lend, perform_bind_of_ok (perform_get e)]
  refine (perform_guard_ok_iff refuse_ne_ok).trans ?_
  refine and_congr_right fun _ => ?_
  constructor
  · intro h
    rcases perform_bind_ok_iff.mp h with ⟨v, _, hview, hrest⟩
    rcases perform_viewOrRefuse_ok_iff.mp hview with ⟨hview, rfl⟩
    cases hrest
    exact ⟨v, hview, rfl, rfl⟩
  · rintro ⟨v, hview, rfl, rfl⟩
    exact perform_bind_ok_iff.mpr
      ⟨v, e, perform_viewOrRefuse_ok_iff.mpr ⟨hview, rfl⟩, rfl⟩

end Engine

end CyclePlan
