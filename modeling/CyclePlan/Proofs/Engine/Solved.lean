import CyclePlan.Proofs.Engine.Built
import CyclePlan.Proofs.Engine.Reading
import CyclePlan.Proofs.Engine.Runs

/-!
# Solved Engines

From a built engine to a schedule.

Between building and the last solve anything may happen to an engine, as long
as borrowers only add to its model. The last solution carries a point of the
larger model, which is a point of the model that was built, and the schedule is
read from it. `Realizes` is all that remains of this: a schedule gives every node
of the view the value of its timing variable, and nothing else.

The achieved interval is looked up under two names, and for intervals per block
the first of them is not a variable. A solver may still give it a value, so a
statement about the greatest interval has to exclude that.

## Main definitions

* `Schedule.Realizes`: The start cycles are the values of the timing variables.
* `solvedWith`: The solved engine of a graph whose view is known.

## Theorems

* `Continues.realizes`, `solved_realizes`: The schedule of a solved engine realizes the
  solution.
* `Continues.achievedInterval?`, `achievedInterval?_pipelined`, `achievedInterval?_plain`: The
  interval of a solved engine.
* `exists_solve_of_isOptimum`, `exists_solve_optimal`, `exists_solve_infeasible`,
  `exists_isOptimum_of_solve`: What an exact solver answers.
* `exists_solvedWith`: How the solved engine comes about.
-/

namespace CyclePlan

/-- The start cycles of a schedule are the values of the timing variables, for
    the nodes of a view and for no other name. -/
structure Schedule.Realizes (s : Schedule Rat) (v : View Rat) (y : String → Rat) : Prop where
  whole : ∀ n ∈ v.nodes, ∃ c : Int, y (startVar n.name) = c
  cycle_iff : ∀ name (c : Int),
    s.cycle? name = some c ↔ (∃ n ∈ v.nodes, n.name = name) ∧ y (startVar name) = c

theorem Schedule.Realizes.cycle? {s : Schedule Rat} {v : View Rat} {y : String → Rat}
    (h : s.Realizes v y) {n : View.Node Rat} (hn : n ∈ v.nodes) :
    ∃ c : Int, s.cycle? n.name = some c ∧ y (startVar n.name) = c := by
  rcases h.whole n hn with ⟨c, hc⟩
  exact ⟨c, (h.cycle_iff n.name c).mpr ⟨⟨n, hn, rfl⟩, hc⟩, hc⟩

namespace Engine

variable {t : Discipline} {solver : Solver Rat} {sameBlockOnly : Bool} {v : View Rat}
  {m : Model Rat} {e e' : Engine Rat} {outcome : Outcome} {x : Nat → Rat}

theorem builtWith_settled : (builtWith t solver sameBlockOnly v m).IsSettled := .inl rfl

/-- Calls after building continue what was built. -/
theorem Reaches.continues (hrun : Reaches Model.Adds (builtWith t solver sameBlockOnly v m) e) :
    Continues Model.Adds (builtWith t solver sameBlockOnly v m) e :=
  Reaches.settled Model.Adds.refl (fun _ _ _ => Model.Adds.trans) builtWith_settled rfl hrun

/-- What they leave as it was. -/
theorem continues_of_reaches
    (hrun : Reaches Model.Adds (builtWith t solver sameBlockOnly v m) e) :
    e.view = some v ∧ e.solver = solver ∧ m.Adds e.model :=
  ⟨hrun.continues.view, hrun.continues.solver, hrun.continues.model⟩

/-- A solution of a larger model is read by the names of the smaller one. -/
theorem reads_of_adds (hadds : m.Adds e.model) {s : Solution Rat}
    (hcarries : s.Carries e.model x) (hintegral : e.model.IsIntegral x) {w : Variable Rat}
    (hw : w ∈ m.vars) (hint : w.isIntegral = true) : s.Reads m x w.name :=
  (hadds.carries hcarries).reads (hadds.isIntegral hintegral) hw hint

/-- The schedule of a solved engine realizes the solution. -/
theorem Continues.realizes (hnames : (v.nodes.map (·.name)).Nodup)
    (hm : m.Renders (t.program v sameBlockOnly))
    (hcont : Continues Model.Adds (builtWith t solver sameBlockOnly v m) e)
    (hsolve : perform solve e = (.ok outcome, e')) (hassign : outcome.hasAssignment = true)
    (hcarries : (solver e.asked e.model).Carries e.model x)
    (hintegral : e.model.IsIntegral x) :
    ∃ s, e'.schedule = .ok s ∧ s.outcome = outcome ∧ s.interval = e'.achievedInterval? ∧
      s.Realizes v (m.valueOf x) := by
  have hview : e.view = some v := hcont.view
  have hsolver : e.solver = solver := hcont.solver
  rcases perform_solve_ok_iff.mp hsolve with ⟨_, _, rfl⟩
  have hschedule := schedule_solved (e := { e with
      phase := phaseAfter outcome, solution := some (e.solver e.asked e.model),
      outcome := some outcome, asked := e.asked + 1 })
    (phaseAfter_of_hasAssignment hassign) rfl hview rfl
  -- Timing variables are integral, so reading them loses nothing.
  have hreads : ∀ n ∈ v.nodes,
      (solver e.asked e.model).Reads m x (startVar n.name) := by
    intro n hn
    have hmem := Discipline.startVariable_mem_of_renders hm n hn
    exact reads_of_adds hcont.model hcarries hintegral hmem rfl
  refine ⟨_, hschedule, rfl, rfl, ?_, ?_⟩
  · intro n hn
    rcases hreads n hn with ⟨c, hc, _⟩
    exact ⟨c, hc⟩
  · intro name c
    rw [Schedule.cycle?, get?_startCycles_iff hnames, hsolver]
    constructor
    · rintro ⟨n, hn, rfl, hc⟩
      rcases hreads n hn with ⟨c', hc', hread⟩
      rw [hc] at hread
      cases hread
      exact ⟨⟨n, hn, rfl⟩, hc'⟩
    · rintro ⟨⟨n, hn, rfl⟩, hc⟩
      rcases hreads n hn with ⟨c', hc', hread⟩
      have heq : c' = c := Int.cast_injective (hc'.symm.trans hc)
      exact ⟨n, hn, rfl, heq ▸ hread⟩

/-- In particular, after any calls of borrowers that only add. -/
theorem solved_realizes (hnames : (v.nodes.map (·.name)).Nodup)
    (hm : m.Renders (t.program v sameBlockOnly))
    (hrun : Reaches Model.Adds (builtWith t solver sameBlockOnly v m) e)
    (hsolve : perform solve e = (.ok outcome, e')) (hassign : outcome.hasAssignment = true)
    (hcarries : (solver e.asked e.model).Carries e.model x)
    (hintegral : e.model.IsIntegral x) :
    ∃ s, e'.schedule = .ok s ∧ s.outcome = outcome ∧ s.interval = e'.achievedInterval? ∧
      s.Realizes v (m.valueOf x) :=
  hrun.continues.realizes hnames hm hsolve hassign hcarries hintegral

theorem phase_of_solve (hsolve : perform solve e = (.ok outcome, e'))
    (hassign : outcome.hasAssignment = true) : e'.phase = .solved := by
  rcases perform_solve_ok_iff.mp hsolve with ⟨_, _, rfl⟩
  exact phaseAfter_of_hasAssignment hassign

/-- The achieved interval is the value of the shared interval, if there is one,
    and otherwise the value of the greatest one. -/
theorem achievedInterval?_solve (hsolve : perform solve e = (.ok outcome, e'))
    (hassign : outcome.hasAssignment = true) :
    e'.achievedInterval? =
      ((e.solver e.asked e.model).int? intervalVar <|>
        (e.solver e.asked e.model).int? maxIntervalVar) := by
  rcases perform_solve_ok_iff.mp hsolve with ⟨_, _, rfl⟩
  exact achievedInterval?_solved (phaseAfter_of_hasAssignment hassign) rfl

/-- With overlap, the achieved interval is the value of the variable that it is
    reported from, as long as nothing else answers to the shared name. -/
theorem Continues.achievedInterval? {target : IntervalTarget}
    (hm : m.Renders (Discipline.program (.pipelined target) v sameBlockOnly))
    (hcont : Continues Model.Adds (builtWith (.pipelined target) solver sameBlockOnly v m) e)
    (hsolve : perform solve e = (.ok outcome, e')) (hassign : outcome.hasAssignment = true)
    (hcarries : (solver e.asked e.model).Carries e.model x)
    (hintegral : e.model.IsIntegral x)
    (hunread : target = .perBlock → (solver e.asked e.model).value? intervalVar = none) :
    ∃ interval : Int, e'.achievedInterval? = some interval ∧
      m.valueOf x target.reportedVar = interval := by
  have hsolver : e.solver = solver := hcont.solver
  have hmem : intervalVariable target.reportedVar ∈ m.vars := by
    rw [hm.vars]
    exact Discipline.reportedVar_mem
  rcases reads_of_adds hcont.model hcarries hintegral hmem rfl with ⟨interval, hvalue, hread⟩
  refine ⟨interval, ?_, hvalue⟩
  rw [achievedInterval?_solve hsolve hassign, hsolver]
  cases target with
  | fixed _ =>
      have hshared : (solver e.asked e.model).int? intervalVar = some interval := hread
      rw [hshared]
      rfl
  | perBlock =>
      have hgreatest : (solver e.asked e.model).int? maxIntervalVar = some interval := hread
      rw [hgreatest, Solution.int?, hunread rfl]
      rfl

/-- In particular, after any calls of borrowers that only add. -/
theorem achievedInterval?_pipelined {target : IntervalTarget}
    (hm : m.Renders (Discipline.program (.pipelined target) v sameBlockOnly))
    (hrun : Reaches Model.Adds (builtWith (.pipelined target) solver sameBlockOnly v m) e)
    (hsolve : perform solve e = (.ok outcome, e')) (hassign : outcome.hasAssignment = true)
    (hcarries : (solver e.asked e.model).Carries e.model x)
    (hintegral : e.model.IsIntegral x)
    (hunread : target = .perBlock → (solver e.asked e.model).value? intervalVar = none) :
    ∃ interval : Int, e'.achievedInterval? = some interval ∧
      m.valueOf x target.reportedVar = interval :=
  hrun.continues.achievedInterval? hm hsolve hassign hcarries hintegral hunread

/-- A solver that keeps to the variables has a value under the name of an
    interval only if the discipline has that interval. -/
theorem exists_intervalVariable (hkeeps : solver.KeepsToVariables)
    (hm : m.Renders (t.program v sameBlockOnly))
    (hrun : Reaches Model.Adds (builtWith t solver sameBlockOnly v m) e) {name : String}
    (hname : name = intervalVar ∨ name = maxIntervalVar)
    (hvalue : (solver e.asked e.model).value? name ≠ none) :
    ∃ w ∈ (t.program v sameBlockOnly).vars, w.name = name := by
  rcases continues_of_reaches hrun with ⟨_, _, hadds⟩
  rcases hkeeps e.asked e.model name (Option.isSome_iff_ne_none.mpr hvalue) with ⟨w, hw, rfl⟩
  have hmem := hadds.names w hw hname
  rw [hm.vars] at hmem
  exact ⟨w, hmem, rfl⟩

theorem shared_unread (hkeeps : solver.KeepsToVariables)
    (hm : m.Renders (t.program v sameBlockOnly))
    (hrun : Reaches Model.Adds (builtWith t solver sameBlockOnly v m) e)
    (ht : ∀ interval, t ≠ .pipelined (.fixed interval)) :
    (solver e.asked e.model).value? intervalVar = none := by
  by_contra hvalue
  rcases exists_intervalVariable hkeeps hm hrun (.inl rfl) hvalue with ⟨w, hw, hname⟩
  rcases Discipline.eq_fixed_of_name hw hname with ⟨interval, heq⟩
  exact ht interval heq

/-- Without overlap there is no interval, if the solver keeps to the
    variables. -/
theorem achievedInterval?_plain (ht : t.isPipelined = false) (hkeeps : solver.KeepsToVariables)
    (hm : m.Renders (t.program v sameBlockOnly))
    (hrun : Reaches Model.Adds (builtWith t solver sameBlockOnly v m) e)
    (hsolve : perform solve e = (.ok outcome, e')) (hassign : outcome.hasAssignment = true) :
    e'.achievedInterval? = none := by
  rcases continues_of_reaches hrun with ⟨_, hsolver, _⟩
  -- Without overlap, neither of the two names is that of a variable.
  have hshared := shared_unread hkeeps hm hrun (by rintro interval rfl; cases ht)
  have hgreatest : (solver e.asked e.model).value? maxIntervalVar = none := by
    by_contra hvalue
    rcases exists_intervalVariable hkeeps hm hrun (.inr rfl) hvalue with ⟨w, hw, hname⟩
    rw [Discipline.eq_perBlock_of_name hw hname] at ht
    cases ht
  rw [achievedInterval?_solve hsolve hassign, hsolver, Solution.int?, Solution.int?, hshared,
    hgreatest]
  rfl

/-- An exact solver finds an optimum of a finished model that has one. -/
theorem exists_solve_of_isOptimum (hexact : solver.Exact) (hsettled : e.IsSettled)
    (hsolver : e.solver = solver) (hsome : ∃ x, e.model.IsOptimum x) :
    ∃ e' x, perform solve e = (.ok .optimal, e') ∧
      (solver e.asked e.model).Carries e.model x ∧ e.model.IsOptimum x := by
  rcases hexact.optimal e.asked e.model hsome with ⟨hstatus, x, hcarries, hoptimum⟩
  refine ⟨_, x, perform_solve_ok_iff.mpr ⟨hsettled, ?_, rfl⟩, hcarries, hoptimum⟩
  rw [outcomeOf, hsolver, hstatus]

/-- What an exact solver finds in a model that has an optimum wherever it has points is
    one. -/
theorem exists_isOptimum_of_solve (hexact : solver.Exact) (hsolver : e.solver = solver)
    (hsome : (∃ x, e.model.IsPoint x ∧ e.model.IsIntegral x) → ∃ x, e.model.IsOptimum x)
    (hsolve : perform solve e = (.ok outcome, e')) (hassign : outcome.hasAssignment = true) :
    ∃ x, (solver e.asked e.model).Carries e.model x ∧ e.model.IsOptimum x := by
  -- An answer with an assignment does not deny points.
  have hstatus : (solver e.asked e.model).status ≠ .infeasible := by
    intro hdenied
    rcases perform_solve_ok_iff.mp hsolve with ⟨_, rfl, _⟩
    rw [hasAssignment_outcomeOf, hsolver, hdenied] at hassign
    cases hassign
  have hpoint := not_not.mp (mt (hexact.infeasible_iff e.asked e.model).mpr hstatus)
  exact (hexact.optimal e.asked e.model (hsome hpoint)).2

/-- It finds one of a program that has a best solution. -/
theorem exists_solve_optimal (hexact : solver.Exact)
    (hm : m.Renders (t.program v sameBlockOnly)) {y : String → Rat}
    (hbest : (t.program v sameBlockOnly).IsBest y) :
    ∃ e' x, perform solve (builtWith t solver sameBlockOnly v m) = (.ok .optimal, e') ∧
      (solver 0 m).Carries m x ∧ m.IsOptimum x :=
  exists_solve_of_isOptimum (e := builtWith t solver sameBlockOnly v m) hexact builtWith_settled
    rfl (hm.exists_isOptimum_iff.mpr ⟨y, hbest⟩)

/-- It denies points of a program that has no solution. -/
theorem exists_solve_infeasible (hexact : solver.Exact)
    (hm : m.Renders (t.program v sameBlockOnly))
    (hnone : ¬ ∃ y, (t.program v sameBlockOnly).IsSolution y) :
    ∃ e', perform solve (builtWith t solver sameBlockOnly v m) = (.ok .infeasible, e') := by
  have hstatus := (hexact.infeasible_iff 0 m).mpr (mt hm.feasible_iff.mp hnone)
  refine ⟨_, perform_solve_ok_iff.mpr ⟨builtWith_settled, ?_, rfl⟩⟩
  change Outcome.infeasible = outcomeOf (solver 0 m)
  rw [outcomeOf, hstatus]

/-! ### Runs that can be evaluated -/

/-- Where an engine ends up that takes a graph with a given view, builds its model and solves
    it. -/
def solvedWith (t : Discipline) (solver : Solver Rat) (sameBlockOnly : Bool) (name : String)
    (v : View Rat) : Engine Rat :=
  match allocate name v with
  | .ok m => (perform solve (perform build (loadedWith t solver sameBlockOnly v m)).2).2
  | .error _ => fresh t solver sameBlockOnly

theorem exists_solvedWith (solver : Solver Rat) (sameBlockOnly : Bool) (hdefects : g.defects = [])
    (hview : View.ofGraph g = .ok v) (ht : t.IsBuildable v) :
    ∃ e₁ e₂ outcome,
      perform (load g) (fresh t solver sameBlockOnly) = (.ok ⟨⟩, e₁) ∧
      perform build e₁ = (.ok ⟨⟩, e₂) ∧
      perform solve e₂
        = (.ok outcome, solvedWith t solver sameBlockOnly (g.name ++ "_" ++ t.name) v) ∧
      (solvedWith t solver sameBlockOnly (g.name ++ "_" ++ t.name) v).outcome = some outcome := by
  rcases exists_load t solver sameBlockOnly hdefects with ⟨e₁, hload⟩
  have hbuildable : ∀ w, View.ofGraph g = .ok w → t.IsBuildable w := by
    intro w hw
    cases hview.symm.trans hw
    exact ht
  rcases exists_build hload hbuildable with ⟨w, m, hw, _, hbuild⟩
  cases hview.symm.trans hw
  rcases load_ok_iff.mp hload with ⟨_, w, m', hw, hm, rfl⟩
  cases hview.symm.trans hw
  have hend : solvedWith t solver sameBlockOnly (g.name ++ "_" ++ t.name) v
      = (perform solve (builtWith t solver sameBlockOnly v m)).2 := by
    rw [solvedWith, hm]
    dsimp only
    rw [hbuild]
  have hsolve : perform solve (builtWith t solver sameBlockOnly v m) = (.ok _, _) :=
    perform_solve_ok_iff.mpr ⟨builtWith_settled, rfl, rfl⟩
  rw [hend, hsolve]
  exact ⟨_, _, _, hload, hbuild, hsolve, rfl⟩

end Engine

end CyclePlan
