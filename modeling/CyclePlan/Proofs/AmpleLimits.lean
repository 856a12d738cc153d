import CyclePlan.Proofs.LimitedSearch
import CyclePlan.Proofs.PinningProgress
import CyclePlan.Proofs.Resource.Ample

/-!
# Limits That Do Not Bind

Searching within limits that are never in the way.

With ample limits every operation has room where the first solution starts it, so it is
pinned there and nothing is ever pushed. Pins of that sort take nothing away from the
solution (`Standing.IsUndisturbed`). At the end the model asks for more than before, but
its least solution is the one that it had, and since there is only one least solution, the
last solve finds it again.

So at every interval the attempt within limits ends like the attempt without limits, by a
longer way (`IntervalSearch.attempt_agrees`). A search does nothing but attempts, one after
the other, so two searches agree if their attempts do (`IntervalSearch.runFrom_agrees`).
Nothing has to be known about the graph for this. If it has defects, both searches refuse
it for the same reason.

## Main definitions

* `Standing.IsUndisturbed`: Pinning has only pinned.
* `Engine.SameCycles`: Two engines with the same start cycles.
* `AttemptsAgree`, `SearchesAgree`: The same answers, by engines that are related.

## Theorems

* `Standing.IsUndisturbed.pass`, `Standing.IsUndisturbed.stops`: What passes preserve, and
  where they stop.
* `Handle.IsEarliest.exists_pinned`: Pinning succeeds without a push.
* `Engine.exists_solve_again`: The earliest solution is found again.
* `Engine.attemptWithin_of_ample`: An attempt within ample limits.
* `AttemptsAgree.bind`: Attempts that begin with the same call.
* `IntervalSearch.attempt_agrees`, `IntervalSearch.runFrom_agrees`: Attempts and searches.
* `IntervalSearch.ample_limits_change_nothing`: The search with and without limits.
-/

namespace CyclePlan

open Discipline

variable {v : View Rat} {interval columns : Int} {sameBlockOnly : Bool} {rows : List Row}
  {limits : Limits} {budget : PinningBudget} {c c' : View.Node Rat → Int} {n : View.Node Rat}
  {g : Graph Rat} {h h' : Handle Rat} {s s' : Standing}

/-! ### Pinning -/

/-- The start cycles are what they were at the beginning, nothing was pushed, and there are
    passes left for all operations that wait. -/
structure Standing.IsUndisturbed (s : Standing) (v : View Rat) (limits : Limits)
    (interval : Int) (sameBlockOnly : Bool) (rows : List Row) (c : View.Node Rat → Int) :
    Prop where
  handle : s.trial.handle.IsEarliest v interval sameBlockOnly rows c
  view : s.trial.handle.view = v
  waiting : ∀ w ∈ s.classes, (w.unit, w.capacity) ∈ limits.toList ∧
    ∀ name ∈ w.queue, ∃ n ∈ v.nodes, n.name = name ∧ n.kind.unit? = some w.unit
  remaining : (s.classes.map (·.queue.length)).sum ≤ s.progress.remaining
  pushes : s.progress.pushes = 0

namespace Standing.IsUndisturbed

/-- The operation that is looked at next has room. -/
theorem fits_first {t : Trial Rat} {p : Progress} {unit node : String} {capacity : Nat}
    {queue : List String} {classes : List WaitingClass} (hample : limits.Ample g)
    (hview : View.ofGraph g = .ok v)
    (hs : IsUndisturbed ⟨t, p, ⟨unit, capacity, node :: queue⟩ :: classes⟩ v limits interval
      sameBlockOnly rows c) (columns : Int) (placed : List String) (cycle : Int) :
    fits t.handle columns unit capacity placed node cycle = true := by
  rcases hs.waiting _ List.mem_cons_self with ⟨hentry, hqueue⟩
  rcases hqueue node List.mem_cons_self with ⟨n, hn, rfl, hunit⟩
  have hsame : t.handle.view = v := hs.view
  exact hample.fits (hsame ▸ hview) (hsame ▸ hn) hunit hentry columns placed cycle

/-- A pass pins an operation where it is or goes on to the next class. -/
theorem pass (hample : limits.Ample g) (hview : View.ofGraph g = .ok v)
    (hs : s.IsUndisturbed v limits interval sameBlockOnly rows c)
    (h : Pass budget columns s s') :
    ∃ rows', s'.IsUndisturbed v limits interval sameBlockOnly rows' c := by
  have hleft := hs.remaining
  cases h with
  | @pin t remaining placed pushes unit capacity node queue classes cycle hcycle _ _ =>
      rcases hs.waiting _ List.mem_cons_self with ⟨hentry, hqueue⟩
      rcases hqueue node List.mem_cons_self with ⟨n, hn, rfl, _⟩
      have heq : c n = cycle := Option.some.inj ((hs.handle.shows n hn).symm.trans hcycle)
      subst heq
      refine ⟨_, hs.handle.pin hn, hs.view, fun w hw => ?_, ?_, hs.pushes⟩
      · rcases List.mem_cons.mp hw with rfl | hw
        · exact ⟨hentry, fun name hname => hqueue name (List.mem_cons_of_mem _ hname)⟩
        · exact hs.waiting w (List.mem_cons_of_mem _ hw)
      · simp only [List.map_cons, List.sum_cons, List.length_cons] at hleft ⊢
        omega
  | push _ hfull =>
      rw [hs.fits_first hample hview] at hfull
      cases hfull
  | next =>
      refine ⟨rows, hs.handle, hs.view, fun w hw => hs.waiting w (List.mem_cons_of_mem _ hw), ?_,
        hs.pushes⟩
      simp only [List.map_cons, List.sum_cons, List.length_nil, Nat.zero_add] at hleft
      exact hleft

theorem passes (hample : limits.Ample g) (hview : View.ofGraph g = .ok v)
    (hs : s.IsUndisturbed v limits interval sameBlockOnly rows c)
    (h : Passes budget columns s s') :
    ∃ rows', s'.IsUndisturbed v limits interval sameBlockOnly rows' c := by
  induction h with
  | refl => exact ⟨rows, hs⟩
  | tail _ hpass ih =>
      rcases ih with ⟨rows₁, hs₁⟩
      exact hs₁.pass hample hview hpass

/-- Pinning does not stop before it is done. -/
theorem stops (hample : limits.Ample g) (hview : View.ofGraph g = .ok v)
    (hs : s.IsUndisturbed v limits interval sameBlockOnly rows c)
    {answer : Except (SchedulingError Rat) Progress × Trial Rat}
    (h : Stops budget columns s answer) : answer = (.ok s.progress, s.trial) := by
  cases h with
  | done => rfl
  | exhausted =>
      -- There is a pass left for the operation that waits.
      have hleft := hs.remaining
      simp only [List.map_cons, List.sum_cons, List.length_cons] at hleft
      omega
  | unsolved hcycle =>
      rcases (hs.waiting _ List.mem_cons_self).2 _ List.mem_cons_self with ⟨n, hn, rfl, _⟩
      cases (hs.handle.shows n hn).symm.trans hcycle
  | unknown hunknown =>
      rcases (hs.waiting _ List.mem_cons_self).2 _ List.mem_cons_self with ⟨n, hn, rfl, _⟩
      exact absurd ⟨_, Handle.IsEarliest.start_mem hs.handle.renders hn, rfl⟩ hunknown
  | late _ hfull =>
      rw [hs.fits_first hample hview] at hfull
      cases hfull
  | infeasible _ hfull =>
      rw [hs.fits_first hample hview] at hfull
      cases hfull

/-- Nothing is disturbed at the beginning. -/
theorem start (hview : View.ofGraph g = .ok h.view)
    (he : h.IsEarliest h.view interval sameBlockOnly rows c)
    (hbudget : g.ops.countP (fun op => (limits.capacityOf? op.kind).isSome) ≤ budget.iterations) :
    (start limits budget h).IsUndisturbed h.view limits interval sameBlockOnly rows c := by
  refine ⟨he, rfl, fun w hw => ?_, ?_, rfl⟩
  · rcases List.mem_map.mp hw with ⟨e, hentry, rfl⟩
    refine ⟨hentry, fun name hname => ?_⟩
    exact (mem_unitQueue_iff hview).mp hname
  · have hqueues := View.sum_unitQueue_le hview limits
    rw [View.limitedCount_eq hview] at hqueues
    rw [Standing.start, List.map_map]
    exact hqueues.trans hbudget

end Standing.IsUndisturbed

namespace Handle.IsEarliest

/-- Pinning within ample limits succeeds without a push and leaves the solution the earliest
    one. -/
theorem exists_pinned (hample : limits.Ample g) (hview : View.ofGraph g = .ok h.view)
    (he : h.IsEarliest h.view interval sameBlockOnly rows c) (hassign : h.hasAssignment = true)
    (hbudget : g.ops.countP (fun op => (limits.capacityOf? op.kind).isSome) ≤ budget.iterations)
    (columns : Int) :
    ∃ report h' rows', perform (pinToColumns limits columns budget) h = (.ok report, h') ∧
      report.pushes = 0 ∧ h'.IsEarliest h.view interval sameBlockOnly rows' c := by
  have hstart := Standing.IsUndisturbed.start hview he hbudget
  rcases exists_stop budget columns (.start limits budget h) with ⟨s, hpasses, hstop⟩
  rcases hstart.passes hample hview hpasses with ⟨rows', hs⟩
  have hdone := hs.stops hample hview hstop
  rw [Standing.finish_start] at hdone
  exact ⟨_, _, rows', perform_pinToColumns_ok_iff.mpr ⟨hassign, _, _, hdone, rfl, rfl⟩, hs.pushes,
    hs.handle⟩

/-- There is only one earliest solution. -/
theorem eq_of_isEarliest (he : h.IsEarliest v interval sameBlockOnly rows c)
    (he' : h'.IsEarliest v interval sameBlockOnly rows c') (hn : n ∈ v.nodes) : c' n = c n := by
  rcases he.least with ⟨y, hy, hleast⟩
  rcases he'.least with ⟨z, hz, hleast'⟩
  have hle := hleast'.below y hleast.solution n hn
  have hge := hleast.below z hleast'.solution n hn
  rw [hy n hn, hz n hn] at hle hge
  exact_mod_cast le_antisymm hle hge

/-- The model of an earliest solution has an optimum. -/
theorem exists_isOptimum (he : h.IsEarliest v interval sameBlockOnly rows c) :
    ∃ x, h.model.IsOptimum x := by
  rcases he.least with ⟨y, _, hleast⟩
  exact exists_isOptimum_withRows he.renders (he.renders.feasible_iff.mpr ⟨y, hleast.solution⟩)

end Handle.IsEarliest

/-! ### One attempt -/

namespace Engine

variable {e e' e₁ e₂ e₃ : Engine Rat} {outcome : Outcome} {search : IntervalSearch Rat}

/-- Two engines have schedules with the same start cycles. -/
def SameCycles (e e' : Engine Rat) : Prop :=
  ∃ schedule schedule', e.schedule = .ok schedule ∧ e'.schedule = .ok schedule' ∧
    schedule'.cycles = schedule.cycles

/-- After a solve with an assignment, the handle has it. -/
theorem hasAssignment_of_solve (hsolve : perform solve e = (.ok outcome, e'))
    (hassign : outcome.hasAssignment = true) (v : View Rat) :
    (e'.handle v).hasAssignment = true := by
  rcases perform_solve_ok_iff.mp hsolve with ⟨_, rfl, rfl⟩
  rw [hasAssignment_outcomeOf] at hassign
  rw [Handle.hasAssignment, Handle.assignment?_of_hasAssignment rfl hassign, Option.isSome_some]

/-- The schedule of an engine lists the start cycles that its handle shows. -/
theorem exists_schedule_of_shows (hsolve : perform solve e = (.ok outcome, e'))
    (hassign : outcome.hasAssignment = true) (hview : e.view = some v)
    (hshows : (e'.handle v).Shows v c) :
    ∃ schedule, e'.schedule = .ok schedule ∧
      schedule.cycles = .ofList (v.nodes.map fun n => (n.name, c n)) := by
  rcases perform_solve_ok_iff.mp hsolve with ⟨_, rfl, rfl⟩
  refine ⟨_, schedule_solved (phaseAfter_of_hasAssignment hassign) rfl hview rfl, ?_⟩
  refine congrArg NameMap.ofList ?_
  rw [startCycles, ← List.filterMap_eq_map]
  refine List.filterMap_congr fun n hn => ?_
  have hread := hshows n hn
  rw [hasAssignment_outcomeOf] at hassign
  rw [Handle.cycle?, Handle.int?, Handle.assignment?_of_hasAssignment rfl hassign] at hread
  rw [show (e.solver e.asked e.model).int? (startVar n.name) = some (c n) from hread]
  rfl

/-- Solving a model again of which the earliest solution is known finds that solution. -/
theorem exists_solve_again (hexact : e.solver.Exact) (hsettled : e.IsSettled)
    (hnames : (v.nodes.map (·.name)).Nodup)
    (he : h.IsEarliest v interval sameBlockOnly rows c) (hmodel : h.model = e.model) :
    ∃ e', perform solve e = (.ok .optimal, e') ∧ (e'.handle v).Shows v c := by
  have hsome := he.exists_isOptimum
  have hrenders := he.renders
  rw [hmodel] at hsome hrenders
  rcases exists_solve_of_isOptimum hexact hsettled rfl hsome with ⟨e', _, hsolve, _, _⟩
  rcases exists_isEarliest_of_solve hexact hnames hrenders he.bounds hsolve rfl with ⟨c', hagain⟩
  refine ⟨e', hsolve, fun n hn => ?_⟩
  rw [hagain.shows n hn, he.eq_of_isEarliest hagain hn]

/-- An attempt within ample limits pins without a push and is scheduled, and the start cycles
    are those of the first solve. -/
theorem attemptWithin_of_ample (hexact : search.solver.Exact) (hample : limits.Ample g)
    (hbudget : g.ops.countP (fun op => (limits.capacityOf? op.kind).isSome) ≤
      search.budget.iterations)
    (hload : perform (load g) (search.engine interval) = (.ok ⟨⟩, e₁))
    (hbuild : perform build e₁ = (.ok ⟨⟩, e₂)) (hsolve : perform solve e₂ = (.ok outcome, e₃))
    (hassign : outcome.hasAssignment = true) :
    ∃ report e₄ e₅,
      perform (lend (pinToColumns limits interval search.budget).run) e₃ = (.ok (.ok report), e₄) ∧
      report.pushes = 0 ∧
      perform (search.attemptWithin limits g interval) e₃ = (.ok .scheduled, e₅) ∧
      SameCycles e₃ e₅ := by
  have hfit := Graph.fit_of_defects (load_ok_iff.mp hload).1
  rcases build_renders hload hbuild with ⟨v, m, hview, hm, rfl⟩
  have hnames := hfit.node_names_nodup hview
  have hcont := (Continues.refl Model.Tightens.refl builtWith_settled).solved hsolve
  have hrenders : m.Renders (fixedProgram interval v search.sameBlockOnly []) := by
    rw [fixedProgram, Program.withRows_nil]
    exact hm
  rcases exists_isEarliest_of_solve hexact hnames hrenders
    (fun _ hr => absurd hr List.not_mem_nil) hsolve hassign with ⟨c, hearliest⟩
  rcases hearliest.exists_pinned hample hview (hasAssignment_of_solve hsolve hassign v) hbudget
    interval with ⟨report, h', rows', hpin, hpushes, hpinned⟩
  have hlend := (lend_pinned_iff hcont.settled hcont.view).mpr ⟨h', hpin, rfl⟩
  have hafter := hcont.pinned rfl hlend
  -- The pinned model asks for more, but its earliest solution is still the first one.
  rcases exists_solve_again (hafter.solver.symm ▸ hexact) hafter.settled hnames hpinned rfl with
    ⟨e₅, hlast, hshows⟩
  rcases exists_schedule_of_shows hsolve hassign rfl hearliest.shows with
    ⟨schedule, hschedule, hcycles⟩
  rcases exists_schedule_of_shows hlast rfl hafter.view hshows with
    ⟨schedule', hschedule', hcycles'⟩
  have hwithin := IntervalSearch.attemptWithin_scheduled_iff.mpr ⟨report, _, .optimal, hlend,
    hlast, rfl, schedule', hschedule', hample.checkColumns schedule' interval⟩
  exact ⟨report, _, e₅, hlend, hpushes, hwithin, schedule, schedule', hschedule, hschedule',
    hcycles'.trans hcycles.symm⟩

end Engine

/-! ### Two searches -/

/-- Two attempts answer the same. They leave the same engine, or related ones if the interval
    is scheduled. -/
inductive AttemptsAgree (R : Engine Rat → Engine Rat → Prop) :
    Except (SchedulingError Rat) IntervalVerdict × Engine Rat →
    Except (SchedulingError Rat) IntervalVerdict × Engine Rat → Prop
  | scheduled {e e'} (h : R e e') : AttemptsAgree R (.ok .scheduled, e) (.ok .scheduled, e')
  | same {answer e} (h : answer ≠ .ok .scheduled) : AttemptsAgree R (answer, e) (answer, e)

theorem AttemptsAgree.of_error {R : Engine Rat → Engine Rat → Prop} (cause : SchedulingError Rat)
    (e : Engine Rat) : AttemptsAgree R (.error cause, e) (.error cause, e) := by
  refine .same fun h => ?_
  cases h

/-- Attempts that begin with the same call agree if they agree after it. -/
theorem AttemptsAgree.bind {β : Type} {R : Engine Rat → Engine Rat → Prop} {act : EngineM Rat β}
    {rest rest' : β → EngineM Rat IntervalVerdict} {e : Engine Rat}
    (h : ∀ b e₁, perform act e = (.ok b, e₁) →
      AttemptsAgree R (perform (rest b) e₁) (perform (rest' b) e₁)) :
    AttemptsAgree R (perform (act >>= rest) e) (perform (act >>= rest') e) := by
  rcases hact : perform act e with ⟨answer, e₁⟩
  cases answer with
  | error cause =>
      rw [perform_bind_of_error hact, perform_bind_of_error hact]
      exact .of_error cause e₁
  | ok b =>
      rw [perform_bind_of_ok hact, perform_bind_of_ok hact]
      exact h b e₁ hact

/-- Two searches are refused for the same reason, or they find the same interval after the
    same attempts, with related engines. -/
inductive SearchesAgree (R : Engine Rat → Engine Rat → Prop) :
    Except (SchedulingError Rat) (FoundInterval Rat) →
    Except (SchedulingError Rat) (FoundInterval Rat) → Prop
  | refused (cause) : SearchesAgree R (.error cause) (.error cause)
  | found {interval e e' attempts} (h : R e e') :
      SearchesAgree R (.ok ⟨interval, e, attempts⟩) (.ok ⟨interval, e', attempts⟩)

/-- What the first search finds, the second one finds, too. -/
theorem SearchesAgree.exists_found {R : Engine Rat → Engine Rat → Prop} {free : FoundInterval Rat}
    {answer : Except (SchedulingError Rat) (FoundInterval Rat)}
    (h : SearchesAgree R (.ok free) answer) :
    ∃ found, answer = .ok found ∧ found.interval = free.interval ∧
      found.attempts = free.attempts ∧ R free.engine found.engine := by
  cases h with
  | found hrelated => exact ⟨_, rfl, rfl, rfl, hrelated⟩

namespace IntervalSearch

open Engine

variable {R : Engine Rat → Engine Rat → Prop} {search search' : IntervalSearch Rat}

/-- Searches agree if their attempts agree at every interval. -/
theorem runFrom_agrees
    (hsame : ∀ interval,
      AttemptsAgree R (perform (search.attempt g interval) (search.engine interval))
        (perform (search'.attempt g interval) (search'.engine interval)))
    (hmax : search'.maxInterval = search.maxInterval) (count : Nat) (first : Int)
    (attempts : List Attempt) :
    SearchesAgree R (search.runFrom g count first attempts)
      (search'.runFrom g count first attempts) := by
  induction count generalizing first attempts with
  | zero =>
      rw [runFrom, runFrom, hmax]
      exact .refused _
  | succ count ih =>
      have hfirst := hsame first
      generalize hattempt : perform (search.attempt g first) (search.engine first) = a at hfirst
      generalize hattempt' : perform (search'.attempt g first) (search'.engine first) = a'
        at hfirst
      cases hfirst with
      | scheduled hrelated =>
          rw [runFrom_succ hattempt, runFrom_succ hattempt', if_pos rfl, if_pos rfl]
          exact .found hrelated
      | @same answer e hnot =>
          cases answer with
          | error cause =>
              rw [runFrom_of_error hattempt, runFrom_of_error hattempt']
              exact .refused cause
          | ok verdict =>
              have hverdict : verdict ≠ .scheduled := fun heq => hnot (congrArg _ heq)
              rw [runFrom_succ hattempt, runFrom_succ hattempt', if_neg hverdict,
                if_neg hverdict]
              exact ih (first + 1) _

/-- An attempt within ample limits ends like the attempt without limits. -/
theorem attempt_agrees (hexact : search.solver.Exact) (hlimits : search.limits = some limits)
    (hample : limits.Ample g)
    (hbudget : g.ops.countP (fun op => (limits.capacityOf? op.kind).isSome) ≤
      search.budget.iterations) (interval : Int) :
    AttemptsAgree SameCycles
      (perform (attempt { search with limits := none } g interval)
        (engine { search with limits := none } interval))
      (perform (search.attempt g interval) (search.engine interval)) := by
  have hengine : engine { search with limits := none } interval = search.engine interval := rfl
  rw [hengine, attempt, attempt, hlimits]
  refine .bind fun _ e₁ hload => .bind fun _ e₂ hbuild => .bind fun outcome e₃ hsolve => ?_
  -- Up to here the attempts do the same, and only an assignment makes a difference.
  have hwithin (hassign : outcome.hasAssignment = true) :
      AttemptsAgree SameCycles (.ok .scheduled, e₃)
        (perform (search.attemptWithin limits g interval) e₃) := by
    rcases attemptWithin_of_ample hexact hample hbudget hload hbuild hsolve hassign with
      ⟨_, _, e₅, _, _, hscheduled, hcycles⟩
    rw [hscheduled]
    exact .scheduled hcycles
  cases outcome with
  | optimal => exact hwithin rfl
  | feasible => exact hwithin rfl
  | infeasible =>
      refine .same fun h => ?_
      cases h
  | failed reason =>
      refine .same fun h => ?_
      cases h

/-- With an exact solver, limits change nothing if every limited class has a unit for each of
    its operations and there is a pass for each of them. The search is refused for the same
    reason as without limits, or it finds the same interval after the same attempts and with
    the same start cycles. Whenever an interval has an assignment, pinning succeeds without a
    push. -/
theorem ample_limits_change_nothing (hexact : search.solver.Exact)
    (hlimits : search.limits = some limits) (hample : limits.Ample g)
    (hbudget : g.ops.countP (fun op => (limits.capacityOf? op.kind).isSome) ≤
      search.budget.iterations) :
    SearchesAgree SameCycles (run { search with limits := none } g) (search.run g) ∧
    ∀ interval e₁ e₂ e₃ outcome, perform (load g) (search.engine interval) = (.ok ⟨⟩, e₁) →
      perform build e₁ = (.ok ⟨⟩, e₂) → perform solve e₂ = (.ok outcome, e₃) →
      outcome.hasAssignment = true →
      ∃ report e₄, perform (lend (pinToColumns limits interval search.budget).run) e₃
        = (.ok (.ok report), e₄) ∧ report.pushes = 0 := by
  constructor
  · by_cases hmax : search.maxInterval < 1
    · simp only [run, if_pos hmax]
      exact .refused _
    · simp only [run, if_neg hmax]
      exact runFrom_agrees (attempt_agrees hexact hlimits hample hbudget) rfl _ _ _
  · intro interval e₁ e₂ e₃ outcome hload hbuild hsolve hassign
    rcases attemptWithin_of_ample hexact hample hbudget hload hbuild hsolve hassign with
      ⟨report, e₄, _, hlend, hpushes, _⟩
    exact ⟨report, e₄, hlend, hpushes⟩

/-- With an adder for each of the two additions, the interval is still the first one. -/
theorem ample_limits_change_nothing_trailing :
    backedSolver.Exact ∧ Limits.twoAdders.Ample Graph.trailing ∧
    Graph.trailing.ops.countP (fun op => (Limits.twoAdders.capacityOf? op.kind).isSome) ≤ 1000 ∧
    ∃ free found, run { solver := backedSolver } Graph.trailing = .ok free ∧
      free.interval = 1 ∧
      run { solver := backedSolver, limits := some .twoAdders } Graph.trailing = .ok found ∧
      found.interval = free.interval ∧ found.attempts = free.attempts ∧
      SameCycles free.engine found.engine ∧
      ∀ interval e₁ e₂ e₃ outcome,
        perform (load Graph.trailing) (engine { solver := backedSolver } interval) = (.ok ⟨⟩, e₁) →
        perform build e₁ = (.ok ⟨⟩, e₂) → perform solve e₂ = (.ok outcome, e₃) →
        outcome.hasAssignment = true →
        ∃ report e₄, perform (lend (pinToColumns .twoAdders interval {}).run) e₃
          = (.ok (.ok report), e₄) ∧ report.pushes = 0 := by
  have hample : Limits.twoAdders.Ample Graph.trailing := by decide
  have hbudget : Graph.trailing.ops.countP
      (fun op => (Limits.twoAdders.capacityOf? op.kind).isSome) ≤ 1000 := by decide
  let search : IntervalSearch Rat := { solver := backedSolver, limits := some .twoAdders }
  have hexact : search.solver.Exact := backedSolver_exact
  rcases ample_limits_change_nothing hexact rfl hample hbudget with ⟨hagree, hpushes⟩
  rcases exists_run_of_forward (s := { search with limits := none }) hexact rfl
    Graph.trailing_defects (by decide) (by decide) with ⟨free, hfree, hone⟩
  rw [hfree] at hagree
  rcases hagree.exists_found with ⟨found, hfound, hinterval, hattempts, hcycles⟩
  exact ⟨backedSolver_exact, hample, hbudget, free, found, hfree, hone, hfound, hinterval,
    hattempts, hcycles, hpushes⟩

end IntervalSearch

end CyclePlan
