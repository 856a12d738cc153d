import CyclePlan.Proofs.Lp.FurtherRows
import CyclePlan.Proofs.Pinning
import CyclePlan.Proofs.Recurrence
import CyclePlan.Proofs.Resource.InFlight
import CyclePlan.Proofs.Soundness

/-!
# Searching Within Limits

What an interval is worth that the search finds within limits.

Pinning is a heuristic. It may give up at an interval that would do, so the interval
that the search ends with need not be the least one. What can be relied on comes from
the last attempt alone: it ends with a solve and a check, and the model of that solve
is the one that was built, with further constraints (`Model.Tightens`). Its
solution is therefore one of the model without limits, so the interval is at least the
one that the search without limits finds, and at least the one that the units of every
class can keep up with.

Attempts in between leave nothing behind but a verdict, since every attempt has an
engine of its own (`runFrom_ok`).

The last solve and the check are there for safety. Where pinning succeeds, they have
nothing to object (`attemptWithin_of_pinned`).

## Main definitions

* `Model.Tightens`: Further constraints and nothing else.
* `IntervalSearch.trail`: Attempts at one interval after the other.
* `IntervalSearch.sharedSearch`: A search in which two additions share an adder.

## Theorems

* `IntervalSearch.run_ok`, `IntervalSearch.runFrom_le`: How far the search goes.
* `IntervalSearch.attempt_scheduled_iff`: What an attempt within limits consists of.
* `IntervalSearch.attemptWithin_of_pinned`: That pinning decides.
* `IntervalSearch.realizes_of_scheduled`: The schedule that comes out of it.
* `IntervalSearch.run_within_limits`: What the search finds.
-/

namespace CyclePlan

/-! ### Tighter models -/

/-- Constraints were added to a model, and nothing else was changed. -/
structure Model.Tightens (m m' : Model Rat) : Prop where
  vars : m'.vars = m.vars
  constraints : m.constraints ⊆ m'.constraints
  objective : m'.objective = m.objective

namespace Model

variable {m m' m'' : Model Rat}

theorem Tightens.refl (m : Model Rat) : m.Tightens m := ⟨rfl, List.Subset.refl _, rfl⟩

theorem Tightens.trans (h : m.Tightens m') (h' : m'.Tightens m'') : m.Tightens m'' :=
  ⟨h'.vars.trans h.vars, List.Subset.trans h.constraints h'.constraints,
    h'.objective.trans h.objective⟩

theorem Tightens.adds (h : m.Tightens m') : m.Adds m' := by
  refine ⟨?_, h.constraints, fun w hw _ => ?_⟩
  · rw [h.vars]
  · rwa [h.vars] at hw

theorem Tightens.objectiveValue (h : m.Tightens m') (x : Nat → Rat) :
    m'.objectiveValue x = m.objectiveValue x := by
  rw [Model.objectiveValue, h.objective]
  rfl

end Model

/-- A trial that declares no variables tightens the model. -/
theorem Trial.Grows.tightens {t t' : Trial Rat} (h : t.Grows (fun _ => False) t') :
    t.handle.model.Tightens t'.handle.model := by
  rcases h.vars with ⟨more, hvars, hnone⟩
  rcases h.constraints with ⟨cs, hconstraints, _⟩
  refine ⟨?_, ?_, h.objective⟩
  · rw [hvars, List.eq_nil_iff_forall_not_mem.mpr hnone, List.append_nil]
  · rw [hconstraints]
    exact List.subset_append_left _ _

/-- Pinning that succeeds tightens the model. -/
theorem pinToColumns_tightens {limits : Limits} {interval : Int} {budget : PinningBudget}
    {h h' : Handle Rat} {report : PinningReport}
    (hrun : perform (pinToColumns limits interval budget) h = (.ok report, h')) :
    h.model.Tightens h'.model := by
  rcases perform_pinToColumns_ok_iff.mp hrun with ⟨_, p, t, hplace, rfl, _⟩
  exact Trial.Grows.tightens ((placeAll_grows _ _ _ _ _).of_perform hplace)

/-- A schedule that starts operations where they were pinned passes the check. -/
theorem Pins.checkColumns_eq_nil {limits : Limits} {interval : Int} {h : Handle Rat}
    {placed : List String} {c : String → Int} {g : Graph Rat} {schedule : Schedule Rat}
    (hp : Pins limits interval h placed c) (hview : View.ofGraph g = .ok h.view)
    (hall : ∀ n ∈ h.view.nodes, (limits.capacityOf? n.kind).isSome = true → n.name ∈ placed)
    (hcycle : ∀ name ∈ placed, schedule.cycle? name = some (c name)) :
    schedule.checkColumns g limits interval = [] := by
  refine Schedule.checkColumns_eq_nil_iff.mpr fun unit capacity hcapacity column _ => ?_
  have hplaced : ∀ n ∈ h.view.nodes, n.kind.unit? = some unit → n.name ∈ placed :=
    fun n hn hunit => hall n hn (Limits.capacityOf?_isSome_of_unit? hunit hcapacity)
  have hstart : ∀ op ∈ g.ops, op.kind.unit? = some unit →
      schedule.cycle? op.name = some (c op.name) := by
    intro op hop hunit
    rcases View.exists_nodeOf_mem hview hop hunit with ⟨_, hn⟩
    exact hcycle op.name (hplaced _ hn hunit)
  -- What the table has in a column is what was placed there.
  rw [Schedule.occupancy_ofSchedule hstart, ← View.countP_nodes (p := fun n =>
    n.kind.unit? == some unit && columnAt interval (c n.name) == (column : Int)) hview
    (fun _ _ => rfl) fun op hop => ?_]
  · exact hp.countP_le (k := fun n => c n.name) (fun _ _ _ => rfl) hplaced hcapacity column
  · exact Opcode.not_isStripped_of_unit? (beq_iff_eq.mp (Bool.and_eq_true_iff.mp hop).1)

namespace Engine

variable {solver : Solver Rat} {sameBlockOnly : Bool} {v : View Rat} {m : Model Rat}
  {interval : Int} {limits : Limits} {budget : PinningBudget} {report : PinningReport}
  {e e' e'' : Engine Rat}

/-- An engine that was solved goes on from where it was. -/
theorem Continues.solved {May : Model Rat → Model Rat → Prop} {outcome : Outcome}
    (h : Continues May e e') (hsolve : perform solve e' = (.ok outcome, e'')) :
    Continues May e e'' := by
  rcases perform_solve_ok_iff.mp hsolve with ⟨_, _, rfl⟩
  exact ⟨phaseAfter_settled _, h.view, h.solver, h.model⟩

/-- A settled engine is pinned by pinning the handle that it lends. -/
theorem lend_pinned_iff (hsettled : e.IsSettled) (hview : e.view = some v) :
    perform (lend (pinToColumns limits interval budget).run) e = (.ok (.ok report), e') ↔
      ∃ h', perform (pinToColumns limits interval budget) (e.handle v) = (.ok report, h') ∧
        e' = { e with phase := .aimed, model := h'.model, asked := h'.asked } := by
  have hphase : ¬ (e.phase = .blank ∨ e.phase = .allocated) := fun h =>
    h.elim hsettled.ne_blank fun h => hsettled.not_building (.inl h)
  have haimed : (if e.phase = .constrained then .constrained else .aimed : Phase) = .aimed :=
    if_neg fun h => hsettled.not_building (.inr h)
  constructor
  · intro h
    rcases perform_lend_ok_iff.mp h with ⟨_, w, hw, hanswer, rfl⟩
    cases hview.symm.trans hw
    rw [haimed]
    exact ⟨_, Prod.ext hanswer.symm rfl, rfl⟩
  · rintro ⟨h', hpin, rfl⟩
    change Id.run ((pinToColumns limits interval budget).run.run (e.handle v)) = _ at hpin
    refine perform_lend_ok_iff.mpr ⟨hphase, v, hview, ?_, ?_⟩
    · rw [hpin]
    · rw [hpin, haimed]

/-- An engine whose model was pinned goes on from where it was, too. -/
theorem Continues.pinned (h : Continues Model.Tightens e e') (hview : e.view = some v)
    (hlend : perform (lend (pinToColumns limits interval budget).run) e'
      = (.ok (.ok report), e'')) : Continues Model.Tightens e e'' := by
  rcases (lend_pinned_iff h.settled (h.view.trans hview)).mp hlend with ⟨h', hpin, rfl⟩
  exact ⟨.inl rfl, h.view, h.solver, h.model.trans (pinToColumns_tightens hpin)⟩

theorem Continues.adds (h : Continues Model.Tightens e e') : Continues Model.Adds e e' :=
  ⟨h.settled, h.view, h.solver, h.model.adds⟩

/-- The handle that a solved engine lends has the solution. -/
theorem handle_holds {outcome : Outcome} {x : Nat → Rat}
    (hsolve : perform solve e = (.ok outcome, e')) (hassign : outcome.hasAssignment = true)
    (hcarries : (e.solver e.asked e.model).Carries e.model x) (hpoint : e.model.IsPoint x)
    (hintegral : e.model.IsIntegral x) (v : View Rat) : (e'.handle v).Holds x := by
  rcases perform_solve_ok_iff.mp hsolve with ⟨_, rfl, rfl⟩
  rw [hasAssignment_outcomeOf] at hassign
  exact ⟨_, rfl, hassign, hcarries, hpoint, hintegral⟩

/-- At a fixed interval, tighter models have an optimum wherever they have points. -/
theorem Continues.exists_isOptimum (hpos : 1 ≤ interval)
    (hm : m.Renders (Discipline.program (.pipelined (.fixed interval)) v sameBlockOnly))
    (h : Continues Model.Tightens
      (builtWith (.pipelined (.fixed interval)) solver sameBlockOnly v m) e)
    (hsome : ∃ x, e.model.IsPoint x ∧ e.model.IsIntegral x) : ∃ x, e.model.IsOptimum x := by
  have htight : m.Tightens e.model := h.model
  refine Model.exists_isOptimum_of_nat (htight.objective ▸ hm.direction) (fun x hx hint => ?_) hsome
  have hy := (hm.isSolution_iff x).mp
    ⟨htight.adds.isPoint hx, htight.adds.isIntegral hint⟩
  rw [htight.objectiveValue, hm.value]
  exact Discipline.fixed_exists_nat hpos hy

end Engine

namespace IntervalSearch

open Engine

variable {s : IntervalSearch Rat} {g : Graph Rat} {limits : Limits} {interval : Int}
  {e e' : Engine Rat} {found : FoundInterval Rat}

/-! ### Attempts in order -/

/-- Attempts at one interval after the other. -/
def trail : (first : Int) → List IntervalVerdict → List Attempt
  | _, [] => []
  | first, verdict :: verdicts => ⟨first, verdict⟩ :: trail (first + 1) verdicts

/-- A search that ends well has had verdicts on all intervals up to the last, and only
    the last one was scheduled. The engine is that of the last attempt. -/
theorem runFrom_ok {count : Nat} {first : Int} {attempts : List Attempt}
    (h : s.runFrom g count first attempts = .ok found) :
    ∃ verdicts, .scheduled ∉ verdicts ∧ verdicts.length < count ∧
      found.interval = first + verdicts.length ∧
      found.attempts = attempts ++ trail first (verdicts ++ [.scheduled]) ∧
      perform (s.attempt g found.interval) (s.engine found.interval)
        = (.ok .scheduled, found.engine) := by
  induction count generalizing first attempts with
  | zero => cases h
  | succ count ih =>
      rcases hattempt : perform (s.attempt g first) (s.engine first) with ⟨answer, e⟩
      cases answer with
      | error cause =>
          rw [runFrom_of_error hattempt] at h
          cases h
      | ok verdict =>
          rw [runFrom_succ hattempt] at h
          by_cases hverdict : verdict = .scheduled
          · rw [if_pos hverdict] at h
            cases h
            subst hverdict
            refine ⟨[], List.not_mem_nil, Nat.succ_pos _, ?_, rfl, hattempt⟩
            rw [List.length_nil, Nat.cast_zero, add_zero]
          · rw [if_neg hverdict] at h
            rcases ih h with ⟨verdicts, hnone, hlength, hinterval, hattempts, hlast⟩
            refine ⟨verdict :: verdicts, ?_, ?_, ?_, ?_, hlast⟩
            · exact List.not_mem_cons_of_ne_of_not_mem (Ne.symm hverdict) hnone
            · exact Nat.succ_lt_succ hlength
            · rw [hinterval, List.length_cons]
              push_cast
              omega
            · rw [hattempts, List.append_assoc]
              rfl

/-- The same of the search as a whole, which begins with the interval one. -/
theorem run_ok (h : s.run g = .ok found) :
    ∃ verdicts, .scheduled ∉ verdicts ∧ found.interval = verdicts.length + 1 ∧
      found.interval ≤ s.maxInterval ∧ found.attempts = trail 1 (verdicts ++ [.scheduled]) ∧
      perform (s.attempt g found.interval) (s.engine found.interval)
        = (.ok .scheduled, found.engine) := by
  have hmax : ¬ s.maxInterval < 1 := by
    intro hlt
    rw [run, if_pos hlt] at h
    cases h
  rw [run, if_neg hmax] at h
  rcases runFrom_ok h with ⟨verdicts, hnone, hlength, hinterval, hattempts, hlast⟩
  exact ⟨verdicts, hnone, by omega, by omega, hattempts, hlast⟩

/-- A search that gets an answer at every interval does not go past one that is
    scheduled. -/
theorem runFrom_le {count n : Nat} {first : Int} (attempts : List Attempt)
    (hanswered : ∀ k : Nat, k < n → ∃ verdict e',
      perform (s.attempt g (first + k)) (s.engine (first + k)) = (.ok verdict, e'))
    (hscheduled : perform (s.attempt g (first + n)) (s.engine (first + n)) = (.ok .scheduled, e))
    (hcount : n < count) :
    ∃ found, s.runFrom g count first attempts = .ok found ∧ found.interval ≤ first + n := by
  rcases Nat.exists_eq_add_of_lt hcount with ⟨rest, rfl⟩
  induction n generalizing first attempts with
  | zero =>
      rw [Nat.cast_zero, add_zero] at hscheduled ⊢
      exact ⟨_, (runFrom_succ hscheduled).trans (if_pos rfl), le_refl _⟩
  | succ n ih =>
      have hshift : ∀ k : Nat, first + ((k + 1 : Nat) : Int) = first + 1 + k := by
        intro k
        push_cast
        omega
      rcases hanswered 0 (Nat.succ_pos n) with ⟨verdict, e₁, hfirst⟩
      rw [Nat.cast_zero, add_zero] at hfirst
      have hcount : n + 1 + rest + 1 = n + rest + 1 + 1 := by omega
      rw [hcount, runFrom_succ hfirst, hshift]
      by_cases hverdict : verdict = .scheduled
      · -- The search may well end before that interval.
        rw [if_pos hverdict]
        exact ⟨_, rfl, by simp only []; omega⟩
      · rw [if_neg hverdict]
        rw [hshift] at hscheduled
        refine ih _ (fun k hk => ?_) hscheduled (by omega)
        rw [← hshift]
        exact hanswered (k + 1) (Nat.succ_lt_succ hk)

/-- Without limits and with an exact solver, the search ends at the latest with an
    interval that suffices. -/
theorem exists_run_le {v : View Rat} (hexact : s.solver.Exact) (hlimits : s.limits = none)
    (hdefects : g.defects = []) (hview : View.ofGraph g = .ok v) (hpos : 1 ≤ interval)
    (hmax : interval ≤ s.maxInterval) (hsuffices : v.Suffices s.sameBlockOnly interval) :
    ∃ found, s.run g = .ok found ∧ found.interval ≤ interval := by
  have hrun : s.run g = s.runFrom g s.maxInterval.toNat 1 [] := if_neg (by omega)
  have hlast : (1 : Int) + ((interval - 1).toNat : Int) = interval := by omega
  rcases attempt_scheduled hexact hlimits hdefects hview hpos hsuffices with ⟨e, hscheduled, _⟩
  rw [hrun, ← hlast]
  rw [← hlast] at hscheduled
  refine runFrom_le [] (fun k _ => ?_) hscheduled (by omega)
  -- Every interval is either scheduled or denied.
  by_cases hk : v.Suffices s.sameBlockOnly (1 + k)
  · rcases attempt_scheduled hexact hlimits hdefects hview (by omega) hk with ⟨e', hanswer, _⟩
    exact ⟨_, e', hanswer⟩
  · rcases attempt_denied hexact hlimits hdefects hview (by omega) hk with ⟨e', hanswer⟩
    exact ⟨_, e', hanswer⟩

/-- Without back-edges, every interval suffices, so that it ends with the first one. -/
theorem exists_run_of_forward (hexact : s.solver.Exact) (hlimits : s.limits = none)
    (hdefects : g.defects = []) (hforward : ∀ e ∈ g.edges, e.backEdge = false)
    (hmax : 1 ≤ s.maxInterval) : ∃ found, s.run g = .ok found ∧ found.interval = 1 := by
  have hfit := Graph.fit_of_defects hdefects
  rcases hfit.exists_view with ⟨v, hview⟩
  rcases exists_run_le hexact hlimits hdefects hview (le_refl 1) hmax
    (View.suffices_of_forward hfit hview hforward) with ⟨found, hfound, hle⟩
  rcases run_ok hfound with ⟨_, _, hinterval, _⟩
  exact ⟨found, hfound, by omega⟩

/-! ### One attempt -/

/-- What comes after a solve is reached exactly if the solve finds something. -/
theorem solve_scheduled_iff {rest : EngineM Rat IntervalVerdict} :
    perform (do
      match ← Engine.solve with
      | .infeasible => return .infeasible
      | .failed reason => return .solverFailed reason
      | _ => rest) e = (.ok .scheduled, e') ↔
      ∃ outcome e₁, perform solve e = (.ok outcome, e₁) ∧ outcome.hasAssignment = true ∧
        perform rest e₁ = (.ok .scheduled, e') := by
  rw [perform_bind_ok_iff]
  refine exists₂_congr fun outcome e₁ => and_congr_right fun _ => ?_
  cases outcome with
  | optimal => exact (and_iff_right rfl).symm
  | feasible => exact (and_iff_right rfl).symm
  | infeasible =>
      refine iff_of_false (fun h => ?_) fun h => Bool.false_ne_true h.1
      cases h
  | failed reason =>
      refine iff_of_false (fun h => ?_) fun h => Bool.false_ne_true h.1
      cases h

/-- The check at the end looks at the schedule and changes nothing. -/
theorem check_scheduled_iff :
    perform (do
      let schedule ← Engine.liftExcept (← get).schedule
      match schedule.checkColumns g limits interval with
      | violation :: _ => return .resourcesRejected violation.message
      | [] => return .scheduled : EngineM Rat IntervalVerdict) e = (.ok .scheduled, e') ↔
      e' = e ∧ ∃ schedule, e.schedule = .ok schedule ∧
        schedule.checkColumns g limits interval = [] := by
  rw [perform_bind_of_ok (perform_get e), perform_bind_ok_iff]
  constructor
  · rintro ⟨schedule, e₁, hread, hcheck⟩
    rcases perform_liftExcept_ok_iff.mp hread with ⟨hschedule, rfl⟩
    cases hnone : schedule.checkColumns g limits interval with
    | nil =>
        rw [hnone] at hcheck
        cases hcheck
        exact ⟨rfl, schedule, hschedule, hnone⟩
    | cons violation rest =>
        rw [hnone] at hcheck
        cases hcheck
  · rintro ⟨rfl, schedule, hschedule, hnone⟩
    refine ⟨schedule, e', perform_liftExcept_ok_iff.mpr ⟨hschedule, rfl⟩, ?_⟩
    rw [hnone]
    rfl

/-- An engine is brought within limits by pinning, a solve and a check. -/
theorem attemptWithin_scheduled_iff :
    perform (s.attemptWithin limits g interval) e = (.ok .scheduled, e') ↔
      ∃ report e₁ outcome, perform (lend (pinToColumns limits interval s.budget).run) e
          = (.ok (.ok report), e₁) ∧
        perform solve e₁ = (.ok outcome, e') ∧ outcome.hasAssignment = true ∧
        ∃ schedule, e'.schedule = .ok schedule ∧
          schedule.checkColumns g limits interval = [] := by
  rw [attemptWithin, perform_bind_ok_iff]
  constructor
  · rintro ⟨pinned, e₁, hlend, h⟩
    cases pinned with
    | error cause => cases cause <;> cases h
    | ok report =>
        rcases solve_scheduled_iff.mp h with ⟨outcome, e₂, hsolve, hassign, hcheck⟩
        rcases check_scheduled_iff.mp hcheck with ⟨rfl, hschedule⟩
        exact ⟨report, e₁, outcome, hlend, hsolve, hassign, hschedule⟩
  · rintro ⟨report, e₁, outcome, hlend, hsolve, hassign, hschedule⟩
    exact ⟨.ok report, e₁, hlend, solve_scheduled_iff.mpr
      ⟨outcome, e', hsolve, hassign, check_scheduled_iff.mpr ⟨rfl, hschedule⟩⟩⟩

/-- An attempt within limits builds and solves a model and brings it within limits. -/
theorem attempt_scheduled_iff (hlimits : s.limits = some limits) :
    perform (s.attempt g interval) (s.engine interval) = (.ok .scheduled, e) ↔
      ∃ e₁ e₂ e₃ outcome, perform (load g) (s.engine interval) = (.ok ⟨⟩, e₁) ∧
        perform build e₁ = (.ok ⟨⟩, e₂) ∧ perform solve e₂ = (.ok outcome, e₃) ∧
        outcome.hasAssignment = true ∧
        perform (s.attemptWithin limits g interval) e₃ = (.ok .scheduled, e) := by
  rw [attempt, hlimits]
  constructor
  · intro h
    rcases perform_bind_ok_iff.mp h with ⟨_, e₁, hload, h⟩
    rcases perform_bind_ok_iff.mp h with ⟨_, e₂, hbuild, h⟩
    rcases solve_scheduled_iff.mp h with ⟨outcome, e₃, hsolve, hassign, h⟩
    exact ⟨e₁, e₂, e₃, outcome, hload, hbuild, hsolve, hassign, h⟩
  · rintro ⟨e₁, e₂, e₃, outcome, hload, hbuild, hsolve, hassign, h⟩
    refine perform_bind_ok_iff.mpr ⟨_, e₁, hload, perform_bind_ok_iff.mpr ⟨_, e₂, hbuild, ?_⟩⟩
    exact solve_scheduled_iff.mpr ⟨outcome, e₃, hsolve, hassign, h⟩

/-- If the first solve finds something, then the attempt goes as what comes after it. -/
theorem perform_attempt_within {outcome : Outcome} {e₁ e₂ e₃ : Engine Rat}
    (hlimits : s.limits = some limits) (hload : perform (load g) (s.engine interval) = (.ok ⟨⟩, e₁))
    (hbuild : perform build e₁ = (.ok ⟨⟩, e₂)) (hsolve : perform solve e₂ = (.ok outcome, e₃))
    (hassign : outcome.hasAssignment = true) :
    perform (s.attempt g interval) (s.engine interval)
      = perform (s.attemptWithin limits g interval) e₃ := by
  rw [attempt, hlimits, perform_bind_of_ok hload, perform_bind_of_ok hbuild,
    perform_bind_of_ok hsolve]
  cases outcome with
  | optimal => rfl
  | feasible => rfl
  | infeasible => cases hassign
  | failed _ => cases hassign

/-- Once pinning has succeeded, the last solve and the check have nothing to object. -/
theorem attemptWithin_of_pinned {v : View Rat} {m : Model Rat} {h' : Handle Rat}
    {report : PinningReport} (hexact : s.solver.Exact) (hsound : s.solver.Sound)
    (hfit : g.Fit) (hview : View.ofGraph g = .ok v) (hpos : 1 ≤ interval)
    (hm : m.Renders (Discipline.program (.pipelined (.fixed interval)) v s.sameBlockOnly))
    (hcont : Continues Model.Tightens
      (builtWith (.pipelined (.fixed interval)) s.solver s.sameBlockOnly v m) e)
    (hsatisfied : (e.handle v).IsSatisfied)
    (hpin : perform (pinToColumns limits interval s.budget) (e.handle v) = (.ok report, h')) :
    ∃ e', perform (s.attemptWithin limits g interval) e = (.ok .scheduled, e') := by
  have hnames := hfit.node_names_nodup hview
  have hlend := (lend_pinned_iff hcont.settled hcont.view).mpr ⟨h', hpin, rfl⟩
  have hpinned := hcont.pinned rfl hlend
  have hsolver : e.solver = s.solver := hcont.solver
  have hstarts : ∀ n ∈ v.nodes, startVariable n ∈ e.model.vars := by
    intro n hn
    rw [hcont.model.vars]
    exact Discipline.startVariable_mem_of_renders hm n hn
  rcases Stage.of_pinToColumns (h := e.handle v) (by rw [← hsolver] at hsound; exact hsound) hview
    hnames hstarts hpin with ⟨t, p, hstage, rfl, _, hplaced⟩
  -- The solution that pinning ends with shows that there is an optimum.
  rcases hstage.satisfied hsatisfied with ⟨x₀, hx₀⟩
  rcases exists_solve_of_isOptimum hexact hpinned.settled hpinned.solver
    (hpinned.exists_isOptimum hpos hm ⟨x₀, hx₀.isPoint⟩) with ⟨e', x, hsolve, hcarries, hoptimum⟩
  rcases hpinned.adds.realizes hnames hm hsolve rfl hcarries hoptimum.integral with
    ⟨schedule, hschedule, _, _, hreal⟩
  rcases hstage.pins with ⟨c, hpins⟩
  -- Whatever was placed starts in the schedule where it was pinned.
  have hcycle : ∀ name ∈ p.placed, schedule.cycle? name = some (c name) := by
    intro name hname
    rcases (hplaced name).mp hname with ⟨n, hn, rfl, _⟩
    refine (hreal.cycle_iff n.name (c n.name)).mpr ⟨⟨n, hn, rfl⟩, ?_⟩
    rw [← (hpins.forced n.name hname).valueOf x hoptimum.point]
    exact (Model.valueOf_of_isPrefix hpinned.model.adds.vars
      (Discipline.knows_startVar_of_renders hm n hn) x).symm
  have hsame : t.handle.view = v := hstage.view
  have hnone := hpins.checkColumns_eq_nil (hsame ▸ hview)
    (fun n hn hlimited => (hplaced n.name).mpr ⟨n, hsame ▸ hn, rfl, hlimited⟩) hcycle
  exact ⟨e', attemptWithin_scheduled_iff.mpr
    ⟨report, _, .optimal, hlend, hsolve, rfl, schedule, hschedule, hnone⟩⟩

/-- So an interval is scheduled if pinning succeeds after the first solve. -/
theorem exists_attempt_of_pinned {v : View Rat} {outcome : Outcome} {e₁ e₂ e₃ : Engine Rat}
    {h' : Handle Rat} {report : PinningReport} (hexact : s.solver.Exact)
    (hsound : s.solver.Sound) (hlimits : s.limits = some limits) (hpos : 1 ≤ interval)
    (hview : View.ofGraph g = .ok v)
    (hload : perform (load g) (s.engine interval) = (.ok ⟨⟩, e₁))
    (hbuild : perform build e₁ = (.ok ⟨⟩, e₂)) (hsolve : perform solve e₂ = (.ok outcome, e₃))
    (hassign : outcome.hasAssignment = true)
    (hpin : perform (pinToColumns limits interval s.budget) (e₃.handle v) = (.ok report, h')) :
    ∃ e', perform (s.attempt g interval) (s.engine interval) = (.ok .scheduled, e') := by
  have hfit := Graph.fit_of_defects (load_ok_iff.mp hload).1
  rcases build_renders hload hbuild with ⟨w, m, hw, hm, rfl⟩
  cases hview.symm.trans hw
  have hcont := (Continues.refl Model.Tightens.refl builtWith_settled).solved hsolve
  have hstatus : (s.solver 0 m).status.hasAssignment = true := by
    rw [← hasAssignment_outcomeOf]
    exact (perform_solve_ok_iff.mp hsolve).2.1 ▸ hassign
  rcases hsound 0 m hstatus with ⟨x, hcarries, hpoint, hintegral⟩
  rcases attemptWithin_of_pinned hexact hsound hfit hview hpos hm hcont
    ⟨x, handle_holds hsolve hassign hcarries hpoint hintegral v⟩ hpin with ⟨e', hwithin⟩
  exact ⟨e', (perform_attempt_within hlimits hload hbuild hsolve hassign).trans hwithin⟩

/-- If an interval is scheduled by an exact solver, the last solution is one of the model
    without limits, and the schedule realizes it and passes the check. -/
theorem realizes_of_scheduled (hexact : s.solver.Exact) (hlimits : s.limits = some limits)
    (hpos : 1 ≤ interval)
    (h : perform (s.attempt g interval) (s.engine interval) = (.ok .scheduled, e)) :
    g.defects = [] ∧ ∃ v y schedule, View.ofGraph g = .ok v ∧
      (Discipline.program (.pipelined (.fixed interval)) v s.sameBlockOnly).IsSolution y ∧
      e.phase = .solved ∧ e.achievedInterval? = some interval ∧ e.schedule = .ok schedule ∧
      schedule.interval = some interval ∧ schedule.Realizes v y ∧
      schedule.checkColumns g limits interval = [] := by
  rcases (attempt_scheduled_iff hlimits).mp h with
    ⟨e₁, e₂, e₃, _, hload, hbuild, hfirst, _, hwithin⟩
  rcases attemptWithin_scheduled_iff.mp hwithin with
    ⟨report, e₄, outcome, hlend, hsolve, hassign, schedule, hschedule, hnone⟩
  have hdefects := (load_ok_iff.mp hload).1
  rcases build_renders hload hbuild with ⟨v, m, hview, hm, rfl⟩
  have hnames := (Graph.fit_of_defects hdefects).node_names_nodup hview
  -- From building to the last solve, the model only gets tighter.
  have hcont : Continues Model.Tightens
      (builtWith (.pipelined (.fixed interval)) s.solver s.sameBlockOnly v m) e₄ :=
    ((Continues.refl Model.Tightens.refl builtWith_settled).solved hfirst).pinned rfl hlend
  have hadds : m.Adds e₄.model := hcont.adds.model
  rcases exists_isOptimum_of_solve hexact hcont.solver (hcont.exists_isOptimum hpos hm) hsolve
    hassign with ⟨x, hcarries, hoptimum⟩
  have hy := (hm.isSolution_iff x).mp
    ⟨hadds.isPoint hoptimum.point, hadds.isIntegral hoptimum.integral⟩
  rcases hcont.adds.realizes hnames hm hsolve hassign hcarries hoptimum.integral with
    ⟨schedule', hsame, _, hinterval, hreal⟩
  cases hschedule.symm.trans hsame
  have hachieved := hcont.adds.achievesFixed hpos hm hsolve hassign hcarries hoptimum.point
    hoptimum.integral
  exact ⟨hdefects, v, _, schedule, hview, hy, phase_of_solve hsolve hassign, hachieved, hschedule,
    hinterval.trans hachieved, hreal, hnone⟩

/-- With an exact solver, whatever the search finds within limits it has found after
    verdicts on all smaller intervals, none of which was scheduled. The engine is solved
    and achieves the interval, and its schedule passes the checks of columns and, if no
    dependencies were left out, of dependencies. The units of every limited class can keep
    up with the interval, and the search without limits finds one that is no greater. -/
theorem run_within_limits (hexact : s.solver.Exact) (hlimits : s.limits = some limits)
    (hrun : s.run g = .ok found) :
    (∃ verdicts, found.attempts = trail 1 (verdicts ++ [.scheduled]) ∧
      .scheduled ∉ verdicts ∧ found.interval = verdicts.length + 1) ∧
    found.interval ≤ s.maxInterval ∧
    found.engine.phase = .solved ∧ found.engine.achievedInterval? = some found.interval ∧
    (∃ schedule, found.engine.schedule = .ok schedule ∧
      schedule.checkColumns g limits found.interval = [] ∧
      (s.sameBlockOnly = false → schedule.checkDependencies g = .ok [])) ∧
    (∀ unit capacity, limits.capacity? unit = some capacity →
      (g.ops.countP (fun op => op.kind.unit? == some unit) : Int) ≤ found.interval * capacity) ∧
    ∃ free, run { s with limits := none } g = .ok free ∧ free.interval ≤ found.interval := by
  rcases run_ok hrun with ⟨verdicts, hnone, hinterval, hmax, hattempts, hlast⟩
  have hpos : 1 ≤ found.interval := by omega
  rcases realizes_of_scheduled hexact hlimits hpos hlast with
    ⟨hdefects, v, y, schedule, hview, hy, hphase, hachieved, hschedule, hsame, hreal, hcolumns⟩
  have hfit := Graph.fit_of_defects hdefects
  have hholds := (Discipline.fixed_isSolution_iff hpos).mp hy
  refine ⟨⟨verdicts, hattempts, hnone, hinterval⟩, hmax, hphase, hachieved,
    ⟨schedule, hschedule, hcolumns, fun hall => ?_⟩, fun unit capacity hcapacity => ?_, ?_⟩
  · refine hreal.checkDependencies_eq_nil hfit hview (fun p hp => ?_) fun interval heq p hp => ?_
    · rw [← hall] at hp
      exact hy.meets _ (Discipline.dependency_mem hp)
    · cases hsame.symm.trans heq
      exact hholds.2.2 p hp
  · -- Every operation that needs a unit has a cycle.
    have hcycle : ∀ op ∈ g.ops, op.kind.unit? = some unit →
        schedule.cycle? op.name = some ((schedule.cycle? op.name).getD 0) := by
      intro op hop hunit
      rcases View.exists_nodeOf_mem hview hop hunit with ⟨_, hn⟩
      rcases hreal.cycle? hn with ⟨c, hc, _⟩
      change schedule.cycle? op.name = some c at hc
      rw [hc, Option.getD_some]
    have hle := Schedule.countP_le_of_checkColumns hcolumns hcycle hcapacity
    have hwidth : ((max found.interval 1).toNat : Int) = found.interval := by omega
    rw [← hwidth, mul_comm]
    exact_mod_cast hle
  · refine exists_run_le (s := { s with limits := none }) hexact rfl hdefects hview hpos
      (by simp only []; omega) ?_
    exact (Discipline.fixed_solvable_iff hfit hview hpos).mp ⟨y, hy⟩

/-- A search with all dependencies, one adder and one multiplier. -/
noncomputable def sharedSearch : IntervalSearch Rat where
  solver := backedSolver
  limits := some .oneEach
  budget := { maxLatency := 1 }
  sameBlockOnly := false

/-- The additions cannot share the adder in every cycle. -/
theorem sharedSearch_rejects :
    (solvedWith (.pipelined (.fixed 1)) backedSolver false "trailing_pipelined"
        View.trailing).outcome = some .optimal ∧
      (perform (sharedSearch.attemptWithin .oneEach Graph.trailing 1)
        (solvedWith (.pipelined (.fixed 1)) backedSolver false "trailing_pipelined"
          View.trailing)).1.toOption =
        some (.resourcesRejected (PinningFailure.latencyBoundExceeded "a2" 2 1).text) := by
  decide +kernel

/-- They can share it in every other cycle. -/
theorem sharedSearch_pins :
    (solvedWith (.pipelined (.fixed 2)) backedSolver false "trailing_pipelined"
        View.trailing).outcome = some .optimal ∧
      (perform (pinToColumns .oneEach 2 sharedSearch.budget)
        ((solvedWith (.pipelined (.fixed 2)) backedSolver false "trailing_pipelined"
          View.trailing).handle View.trailing)).1.toOption = some ⟨4, 3, 1, [7, 8, 9, 10]⟩ := by
  decide +kernel

/-- The search goes past the first interval and ends with the second. -/
theorem exists_run_sharedSearch :
    ∃ found, sharedSearch.run Graph.trailing = .ok found ∧ found.interval = 2 := by
  rcases sharedSearch_rejects with ⟨hfirst, hrejected⟩
  rcases sharedSearch_pins with ⟨hsecond, hpinned⟩
  rcases exists_solved_trailing (le_refl 1) hfirst with ⟨e₁, e₂, hload, hbuild, hsolve⟩
  rcases exists_perform_of_toOption hrejected with ⟨e, hwithin⟩
  have hone :=
    (perform_attempt_within (s := sharedSearch) rfl hload hbuild hsolve rfl).trans hwithin
  rcases exists_solved_trailing (by decide) hsecond with ⟨e₁', e₂', hload', hbuild', hsolve'⟩
  rcases exists_perform_of_toOption hpinned with ⟨h', hpin⟩
  rcases exists_attempt_of_pinned (s := sharedSearch) backedSolver_exact backedSolver_sound rfl
    (by decide) View.ofGraph_trailing hload' hbuild' hsolve' rfl hpin with ⟨e', htwo⟩
  have hrun : sharedSearch.run Graph.trailing = sharedSearch.runFrom Graph.trailing 40 1 [] :=
    if_neg (by decide)
  rw [runFrom_succ hone, if_neg (by decide)] at hrun
  exact ⟨_, hrun.trans ((runFrom_succ htwo).trans (if_pos rfl)), rfl⟩

/-- The limits rule out the interval that the search without limits finds. -/
theorem run_within_limits_trailing :
    backedSolver.Exact ∧ ∃ found, sharedSearch.run Graph.trailing = .ok found ∧
      found.interval = 2 ∧
      (∃ verdicts, found.attempts = trail 1 (verdicts ++ [.scheduled]) ∧
        .scheduled ∉ verdicts ∧ found.interval = verdicts.length + 1) ∧
      found.interval ≤ 40 ∧
      found.engine.phase = .solved ∧ found.engine.achievedInterval? = some found.interval ∧
      (∃ schedule, found.engine.schedule = .ok schedule ∧
        schedule.checkColumns Graph.trailing .oneEach found.interval = [] ∧
        schedule.checkDependencies Graph.trailing = .ok []) ∧
      (∀ unit capacity, Limits.oneEach.capacity? unit = some capacity →
        (Graph.trailing.ops.countP (fun op => op.kind.unit? == some unit) : Int)
          ≤ found.interval * capacity) ∧
      ∃ free, run { sharedSearch with limits := none } Graph.trailing = .ok free ∧
        free.interval = 1 := by
  rcases exists_run_sharedSearch with ⟨found, hfound, htwo⟩
  rcases run_within_limits backedSolver_exact rfl hfound with
    ⟨hverdicts, hmax, hphase, hachieved, ⟨schedule, hschedule, hcolumns, hdependencies⟩, hunits, _⟩
  rcases exists_run_of_forward (s := { sharedSearch with limits := none }) backedSolver_exact rfl
    Graph.trailing_defects (by decide) (by decide) with ⟨free, hfree, hone⟩
  exact ⟨backedSolver_exact, found, hfound, htwo, hverdicts, hmax, hphase, hachieved,
    ⟨schedule, hschedule, hcolumns, hdependencies rfl⟩, hunits, free, hfree, hone⟩

end IntervalSearch

end CyclePlan
