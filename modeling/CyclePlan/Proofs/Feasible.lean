import CyclePlan.Proofs.Engine.Potentials
import CyclePlan.Proofs.Engine.Calls
import CyclePlan.Proofs.Engine.Solved
import CyclePlan.Proofs.Lp.Oracle

/-!
# Feasible Schedules

Whether a schedule that counts as feasible has start cycles.

A schedule counts as feasible by the outcome of the last solve, and its start cycles
are read from the last solution. The two belong together as long as the engine is
solved: then the solution is an answer to the model that the engine has, and the
answer covers every node whose timing variable is still there. Borrowers that keep
the variables leave all of them there.

A loan ends that. The engine counts as unsolved afterwards, but the outcome stays
what it was, so the schedule that is read then is feasible and empty
(`schedule_after_lend`). That is the only way to such a schedule, and solving again
is the way out of it (`exists_lend_of_isStale`).

## Main definitions

* `Solver.Answers`: A solver that gives a value to every variable.
* `Schedule.Covers`: Every node has a start cycle.
* `Engine.IsAnswered`: Solution and outcome are answers to the model.
* `Engine.IsStale`: A feasible outcome without its solution.

## Theorems

* `afterAll_answered`, `afterAll_hasStarts`: The invariants of any calls.
* `exists_lend_of_isStale`: How an engine gets stale.
* `feasible_schedule_covers`: What a feasible schedule covers.
* `exists_stale_schedule`: It need not cover anything.
-/

namespace CyclePlan

/-- An answer with an assignment has a value for every variable. -/
def Solver.Answers {α : Type} (solver : Solver α) : Prop :=
  ∀ asked m, (solver asked m).status.hasAssignment = true →
    ∀ w ∈ m.vars, ((solver asked m).value? w.name).isSome = true

theorem Solver.Sound.answers {solver : Solver Rat} (h : solver.Sound) : solver.Answers := by
  intro asked m hstatus w hw
  rcases h asked m hstatus with ⟨x, hcarries, _⟩
  rcases List.mem_iff_getElem?.mp hw with ⟨i, hi⟩
  rw [hcarries i w hi]
  rfl

/-- Every node of a view has a start cycle. -/
def Schedule.Covers {α : Type} (s : Schedule α) (v : View α) : Prop :=
  ∀ n ∈ v.nodes, (s.cycle? n.name).isSome = true

namespace Engine

variable {α : Type} [Scalar α] {e e' : Engine α} {rs : List (Request α)} {r : Request α}
  {t : Discipline} {solver : Solver α} {sameBlockOnly : Bool}

/-! ### Timing variables -/

/-- Every node of the view has a variable under the name of its start. -/
def HasStarts (e : Engine α) : Prop :=
  ∀ v, e.view = some v → ∀ n ∈ v.nodes, ∃ w ∈ e.model.vars, w.name = startVar n.name

theorem addStart_edits (n : View.Node α) : Moves Model.Edits (addStart n) :=
  Moves.bind Model.Edits.trans (Model.addVariable_edits _ _ _ _)
    fun _ => Moves.pure Model.Edits.refl _

theorem knows_of_addStart {n : View.Node α} {m m' : Model α}
    (h : perform (addStart n) m = (.ok ⟨⟩, m')) : m'.Knows (startVar n.name) := by
  rcases perform_bind_ok_iff.mp h with ⟨id, t, hadd, hrest⟩
  cases hrest
  exact Model.knows_of_addVariable hadd

/-- The model that a graph starts with. -/
theorem allocate_edits {name : String} {v : View α} {m : Model α}
    (h : allocate name v = .ok m) :
    (Model.named name).Edits m ∧ ∀ n ∈ v.nodes, m.Knows (startVar n.name) := by
  rw [allocate] at h
  split at h
  · next hrun =>
    cases h
    have hmore := Moves.forM Model.Edits.refl Model.Edits.trans addStart_edits v.nodes
    have hkeeps : ∀ n : View.Node α, Moves Model.Keeps (addStart n) := fun n =>
      (addStart_edits n).mono fun _ _ h => h.keeps
    exact ⟨hmore.of_perform hrun,
      Model.knows_of_forM hkeeps (fun _ _ _ => knows_of_addStart) hrun⟩
  · cases h

omit [Scalar α] in
theorem HasStarts.of_extends (h : e.HasStarts) (hmore : Extends Model.Keeps e e') :
    e'.HasStarts := by
  intro v hv n hn
  rcases h v (hmore.view.symm.trans hv) n hn with ⟨w, hw, hname⟩
  exact ⟨w, hmore.model.subset hw, hname⟩

theorem load_hasStarts {g : Graph α} (h : perform (load g) e = (.ok ⟨⟩, e')) : e'.HasStarts := by
  rcases perform_load_ok_iff.mp h with ⟨_, _, v, m, _, hm, rfl⟩
  intro v' hv
  cases hv
  exact (allocate_edits hm).2

/-- Borrowers that keep the variables leave those of the nodes. -/
theorem afterAll_hasStarts (h : e.HasStarts) (hrs : ∀ r ∈ rs, r.IsPermitted Model.Keeps) :
    (e.afterAll rs).HasStarts := by
  induction rs generalizing e with
  | nil => exact h
  | cons r rs ih =>
      rw [List.forall_mem_cons] at hrs
      have hfirst := r.after_invariant Model.Keeps.allows (fun _ => load_hasStarts)
        HasStarts.of_extends hrs.1 h
      exact ih hfirst hrs.2

/-! ### Answers -/

/-- What solution and outcome have to do with the model. -/
structure IsAnswered (solver : Solver α) (e : Engine α) : Prop where
  solver_eq : e.solver = solver
  /-- A solved engine has an answer to its model. -/
  solved : e.phase = .solved → ∃ asked,
    e.solution = some (solver asked e.model) ∧ e.outcome = some (outcomeOf (solver asked e.model))
  /-- What has been solved has had an objective ever since. -/
  settled : ∀ o, e.outcome = some o → e.IsSettled

omit [Scalar α] in
theorem IsAnswered.effect (h : e.IsAnswered solver) (heffect : Effect e r e') :
    e'.IsAnswered solver := by
  cases heffect with
  | refused t m ht hm =>
      refine ⟨h.solver_eq, fun hp => ?_, h.settled⟩
      have hsame := hm (.inr (.inl hp))
      subst hsame
      exact h.solved hp
  -- While the model is still being built, nothing has been solved.
  | load v m hphase =>
      exact ⟨h.solver_eq, nofun, fun o ho => absurd hphase (h.settled o ho).ne_blank⟩
  | dependencies m hphase =>
      exact ⟨h.solver_eq, nofun, fun o ho => absurd hphase (h.settled o ho).not_building⟩
  | interval interval m _ hphase =>
      exact ⟨h.solver_eq, nofun, fun o ho => absurd hphase (h.settled o ho).not_building⟩
  | blockIntervals m _ hphase =>
      exact ⟨h.solver_eq, nofun, fun o ho => absurd hphase (h.settled o ho).not_building⟩
  | objective m hphase _ =>
      exact ⟨h.solver_eq, nofun, fun o ho => absurd (.inr hphase) (h.settled o ho).not_building⟩
  | solve hsettled =>
      have hsolver := h.solver_eq
      subst hsolver
      exact ⟨rfl, fun _ => ⟨e.asked, rfl, rfl⟩, fun _ _ => phaseAfter_settled _⟩
  | lend m asked hphase =>
      refine ⟨h.solver_eq, fun hp => ?_, fun o ho => .inl (if_neg ?_)⟩
      · by_cases hc : e.phase = .constrained <;> simp [hc] at hp
      · exact fun hp => (h.settled o ho).not_building (.inr hp)

theorem afterAll_answered (t : Discipline) (solver : Solver α) (sameBlockOnly : Bool)
    (rs : List (Request α)) : ((fresh t solver sameBlockOnly).afterAll rs).IsAnswered solver := by
  have hfresh : (fresh t solver sameBlockOnly).IsAnswered solver := ⟨rfl, nofun, nofun⟩
  exact afterAll_preserves IsAnswered.effect hfresh rs

/-- The outcome has an assignment, but the engine does not count as solved. -/
def IsStale (e : Engine α) : Prop :=
  (∃ o, e.outcome = some o ∧ o.hasAssignment = true) ∧ e.phase ≠ .solved

omit [Scalar α] in
theorem IsStale.settled (hstale : e.IsStale) (h : e.IsAnswered solver) : e.IsSettled := by
  rcases hstale with ⟨⟨o, ho, _⟩, _⟩
  exact h.settled o ho

omit [Scalar α] in
/-- An outcome that was just found is that of a solved engine. -/
theorem not_isStale_of_phaseAfter {o : Outcome} (ho : e.outcome = some o)
    (hphase : e.phase = phaseAfter o) : ¬ e.IsStale := by
  rintro ⟨⟨o', ho', hassign⟩, hunsolved⟩
  cases ho.symm.trans ho'
  exact hunsolved (hphase.trans (phaseAfter_of_hasAssignment hassign))

omit [Scalar α] in
/-- Only a loan makes an engine stale. -/
theorem Effect.not_isStale (heffect : Effect e r e') (hr : ∀ borrow, r ≠ .lend borrow)
    (h : e.IsAnswered solver) (hnot : ¬ e.IsStale) : ¬ e'.IsStale := by
  have hafter := h.effect heffect
  intro hstale
  have hsettled := hstale.settled hafter
  cases heffect with
  | refused t m ht hm => exact hnot hstale
  | solve _ => exact not_isStale_of_phaseAfter rfl rfl hstale
  | lend m asked hphase => exact hr _ rfl
  | objective m hphase _ =>
      -- There was no objective before, so nothing had been solved.
      rcases hstale with ⟨⟨o, ho, _⟩, _⟩
      exact (h.settled o ho).not_building (.inr hphase)
  | _ => exact absurd hsettled (by simp [IsSettled])

theorem Request.not_isStale (hr : ∀ borrow, r ≠ .lend borrow) (h : e.IsAnswered solver)
    (hnot : ¬ e.IsStale) : ¬ (r.after e).IsStale := by
  by_cases hbuild : r = .build
  · subst hbuild
    -- Building in one go makes no loans.
    have hboth : (Request.build.after e).IsAnswered solver ∧ ¬ (Request.build.after e).IsStale := by
      refine Request.build_preserves (P := fun e => e.IsAnswered solver ∧ ¬ e.IsStale)
        (fun {r e e'} hr hboth heffect => ?_) ⟨h, hnot⟩
      refine ⟨hboth.1.effect heffect, heffect.not_isStale ?_ hboth.1 hboth.2⟩
      rintro borrow rfl
      exact hr
    exact hboth.2
  · exact (r.effect hbuild e).not_isStale hr h hnot

/-- A loan makes only solved engines stale. -/
theorem solved_of_lend_isStale {borrow : StateM (Handle α) Unit}
    (hstale : ((Request.lend borrow).after e).IsStale) (hnot : ¬ e.IsStale) :
    e.phase = .solved := by
  by_contra hphase
  rcases hresult : perform (lend borrow) e with ⟨answer, e'⟩
  rw [Request.after, hresult] at hstale
  cases answer with
  | ok u =>
      rcases perform_lend_ok_iff.mp hresult with ⟨_, v, _, _, rfl⟩
      exact hnot ⟨hstale.1, hphase⟩
  | error cause =>
      rw [lend_of_error hresult] at hstale
      exact hnot hstale

/-- Solving leaves no engine stale. -/
theorem solve_not_isStale (h : e.IsAnswered solver) : ¬ (Request.solve.after e).IsStale := by
  by_cases hsettled : e.IsSettled
  · rw [Request.after, perform_solve_ok_iff.mpr ⟨hsettled, rfl, rfl⟩]
    exact not_isStale_of_phaseAfter rfl rfl
  · rw [Request.after, solve_refused hsettled]
    exact fun hstale => hsettled (hstale.settled h)

/-- An engine is stale because a solved one has been lent, and it has not been solved
    since. -/
theorem exists_lend_of_isStale
    (hstale : ((fresh t solver sameBlockOnly).afterAll rs).IsStale) :
    ∃ before borrow later, rs = before ++ .lend borrow :: later ∧
      ((fresh t solver sameBlockOnly).afterAll before).phase = .solved ∧
      Request.solve ∉ later := by
  have hfresh : ¬ (fresh t solver sameBlockOnly).IsStale := by
    rintro ⟨⟨o, ho, _⟩, _⟩
    cases ho
  rcases exists_last_turn hfresh hstale with ⟨before, r, later, rfl, hnot, hsince⟩
  have hturn := hsince [] List.nil_prefix
  by_cases hr : ∃ borrow, r = .lend borrow
  · rcases hr with ⟨borrow, rfl⟩
    refine ⟨before, borrow, later, rfl, solved_of_lend_isStale hturn hnot, fun hsolve => ?_⟩
    -- After solving once more it would not be stale.
    rcases List.append_of_mem hsolve with ⟨first, rest, rfl⟩
    have hlater := hsince (first ++ [.solve]) ⟨rest, by simp⟩
    have hbefore := afterAll_answered t solver sameBlockOnly (before ++ .lend borrow :: first)
    rw [afterAll_append] at hbefore
    rw [afterAll_concat] at hlater
    exact solve_not_isStale hbefore hlater
  · have hbefore := afterAll_answered t solver sameBlockOnly before
    exact absurd hturn (Request.not_isStale (not_exists.mp hr) hbefore hnot)

/-! ### Schedules -/

variable {s : Schedule α} {v : View α}

/-- A node whose variable has a value has a start cycle. -/
theorem isSome_startCycles {solution : Solution α} {n : View.Node α} (hn : n ∈ v.nodes)
    (hvalue : (solution.value? (startVar n.name)).isSome = true) :
    ((NameMap.ofList (startCycles solution v)).get? n.name).isSome = true := by
  refine NameMap.isSome_get?_foldl_insert _ _ (.inl (List.mem_map.mpr ?_))
  rcases Option.isSome_iff_exists.mp hvalue with ⟨x, hx⟩
  refine ⟨(n.name, Scalar.roundInt x), List.mem_filterMap.mpr ⟨n, hn, ?_⟩, rfl⟩
  rw [Solution.int?, hx]
  rfl

/-- The oracle solves every graph without defects as soon as possible. -/
theorem exists_solved_asap (sameBlockOnly : Bool) {g : Graph Rat} (hdefects : g.defects = []) :
    ∃ e v o, (fresh .asap oracle sameBlockOnly).afterAll [.load g, .build, .solve] = e ∧
      View.ofGraph g = .ok v ∧ e.phase = .solved ∧ e.view = some v ∧
      e.solution = some (oracle 0 e.model) ∧ e.outcome = some o ∧ o.hasAssignment = true := by
  rcases exists_load .asap oracle sameBlockOnly hdefects with ⟨e₁, hload⟩
  rcases exists_build_asap hload with ⟨e₂, hbuild⟩
  rcases build_renders hload hbuild with ⟨v, m, hview, hm, rfl⟩
  have hsolution := Discipline.asap_exists_solution sameBlockOnly
    (Graph.fit_of_defects hdefects) hview
  have hassign : (outcomeOf (oracle 0 m)).hasAssignment = true :=
    (hasAssignment_outcomeOf _).trans (oracle_hasAssignment (hm.feasible_iff.mpr hsolution) 0)
  have hend : (fresh .asap oracle sameBlockOnly).afterAll [.load g, .build, .solve]
      = (perform solve (builtWith .asap oracle sameBlockOnly v m)).2 := by
    simp only [afterAll, List.foldl_cons, List.foldl_nil, Request.after, hload, hbuild]
  refine ⟨_, v, outcomeOf (oracle 0 m), rfl, hview, ?_⟩
  rw [hend, perform_solve_ok_iff.mpr ⟨builtWith_settled, rfl, rfl⟩]
  exact ⟨phaseAfter_of_hasAssignment hassign, rfl, rfl, rfl, hassign⟩

/-- A schedule that counts as feasible is that of a solved engine, and then it covers
    every node whose variable is still there. Or it is that of an engine that was
    solved, has been lent and has not been solved again, and then it is empty. -/
theorem feasible_schedule_covers (hanswers : solver.Answers)
    (hrun : (fresh t solver sameBlockOnly).afterAll rs = e) (hschedule : e.schedule = .ok s)
    (hfeasible : s.isFeasible = true) :
    (e.phase = .solved ∧ ∃ v, e.view = some v ∧
      (∀ n ∈ v.nodes, (∃ w ∈ e.model.vars, w.name = startVar n.name) →
        (s.cycle? n.name).isSome = true) ∧
      ((∀ r ∈ rs, r.IsPermitted Model.Keeps) → s.Covers v)) ∨
    (e.phase ≠ .solved ∧ s.cycles = .empty ∧ ∃ before borrow later,
      rs = before ++ .lend borrow :: later ∧
      ((fresh t solver sameBlockOnly).afterAll before).phase = .solved ∧
      Request.solve ∉ later) := by
  have hanswered := afterAll_answered t solver sameBlockOnly rs
  rw [hrun] at hanswered
  rcases schedule_ok_iff.mp hschedule with
    ⟨o, hout, ⟨hphase, rfl⟩ | ⟨hphase, answer, v, hanswer, hview, rfl⟩⟩
  · right
    refine ⟨hphase, rfl, exists_lend_of_isStale ?_⟩
    rw [hrun]
    exact ⟨⟨o, hout, hfeasible⟩, hphase⟩
  · left
    rcases hanswered.solved hphase with ⟨asked, hsolution, houtcome⟩
    cases hsolution.symm.trans hanswer
    cases houtcome.symm.trans hout
    have hassign : (solver asked e.model).status.hasAssignment = true :=
      (hasAssignment_outcomeOf _).symm.trans hfeasible
    -- The schedule is read from an answer to the model that the engine has.
    have hcover : ∀ n ∈ v.nodes, (∃ w ∈ e.model.vars, w.name = startVar n.name) →
        ((NameMap.ofList (startCycles (solver asked e.model) v)).get? n.name).isSome = true := by
      rintro n hn ⟨w, hw, hname⟩
      refine isSome_startCycles hn ?_
      rw [← hname]
      exact hanswers asked e.model hassign w hw
    refine ⟨hphase, v, hview, hcover, fun hkeeps n hn => hcover n hn ?_⟩
    have hstarts : (fresh t solver sameBlockOnly).HasStarts := nofun
    have hends := afterAll_hasStarts hstarts hkeeps
    rw [hrun] at hends
    exact hends v hview n hn

/-- The schedule of the loop that counts covers its nodes. -/
theorem feasible_schedule_covers_countingLoop :
    oracle.Answers ∧ ∃ e s,
      (fresh .asap oracle true).afterAll [.load Graph.countingLoop, .build, .solve] = e ∧
      e.schedule = .ok s ∧ s.isFeasible = true ∧
      ((e.phase = .solved ∧ ∃ v, e.view = some v ∧
        (∀ n ∈ v.nodes, (∃ w ∈ e.model.vars, w.name = startVar n.name) →
          (s.cycle? n.name).isSome = true) ∧
        ((∀ r ∈ [Request.load Graph.countingLoop, .build, .solve],
          r.IsPermitted Model.Keeps) → s.Covers v)) ∨
      (e.phase ≠ .solved ∧ s.cycles = .empty ∧ ∃ before borrow later,
        [Request.load Graph.countingLoop, .build, .solve] = before ++ .lend borrow :: later ∧
        ((fresh .asap oracle true).afterAll before).phase = .solved ∧
        Request.solve ∉ later)) := by
  rcases exists_solved_asap true Graph.countingLoop_defects with
    ⟨e, v, o, hrun, _, hphase, hview, hsolution, hout, hassign⟩
  have hschedule := schedule_solved hphase hsolution hview hout
  exact ⟨oracle_sound.answers, e, _, hrun, hschedule, hassign,
    feasible_schedule_covers oracle_sound.answers hrun hschedule hassign⟩

/-! ### Stale schedules -/

/-- A loan of a solved engine leaves everything but the phase and the model. -/
theorem after_lend_solved (hphase : e.phase = .solved) (hview : e.view = some v)
    (borrow : StateM (Handle α) Unit) :
    (Request.lend borrow).after e = { e with
      phase := .aimed
      model := (Id.run (borrow.run (e.handle v))).2.model
      asked := (Id.run (borrow.run (e.handle v))).2.asked } := by
  have hunlent : ¬ (e.phase = .blank ∨ e.phase = .allocated) := by simp [hphase]
  rw [Request.after, perform_lend_ok_iff.mpr ⟨hunlent, v, hview, rfl, rfl⟩]
  simp [hphase]

/-- A loan takes the start cycles of a solved engine and leaves the outcome. -/
theorem schedule_after_lend {o : Outcome} (hphase : e.phase = .solved) (hview : e.view = some v)
    (hout : e.outcome = some o) (borrow : StateM (Handle α) Unit) :
    ((Request.lend borrow).after e).schedule = .ok { outcome := o } := by
  rw [after_lend_solved hphase hview]
  exact schedule_ok_iff.mpr ⟨o, hout, .inl ⟨by simp, rfl⟩⟩

omit [Scalar α] in
/-- Without start cycles in the schedule, a graph that takes it over has none. -/
theorem withCycles_of_empty (g : Graph α) (h : s.cycles = .empty) :
    ∀ op ∈ (g.withCycles s).ops, op.cycle = none := by
  intro op hop
  rcases List.mem_map.mp hop with ⟨op', _, rfl⟩
  change s.cycles.get? op'.name = none
  rw [h]
  rfl

/-- Any loan after solving leaves a feasible schedule without start cycles. -/
theorem exists_stale_schedule (sameBlockOnly : Bool) {g : Graph Rat} (hdefects : g.defects = [])
    (borrow : StateM (Handle Rat) Unit) :
    ∃ v s, View.ofGraph g = .ok v ∧
      ((fresh .asap oracle sameBlockOnly).afterAll
        [.load g, .build, .solve, .lend borrow]).schedule = .ok s ∧
      s.isFeasible = true ∧ s.cycles = .empty := by
  rcases exists_solved_asap sameBlockOnly hdefects with
    ⟨e, v, o, hrun, hview, hphase, hv, _, hout, hassign⟩
  have hsplit : [Request.load g, .build, .solve, .lend borrow]
      = [.load g, .build, .solve] ++ [.lend borrow] := rfl
  refine ⟨v, { outcome := o }, hview, ?_, hassign, rfl⟩
  rw [hsplit, afterAll_concat, hrun]
  exact schedule_after_lend hphase hv hout borrow

/-- The loop that counts is solved and lent to a borrower that does nothing. -/
theorem exists_stale_schedule_countingLoop :
    oracle.Answers ∧ ∃ v s, View.ofGraph Graph.countingLoop = .ok v ∧
      ((fresh .asap oracle true).afterAll
        [.load Graph.countingLoop, .build, .solve, .lend (pure ())]).schedule = .ok s ∧
      s.isFeasible = true ∧ (∃ n ∈ v.nodes, s.cycle? n.name = none) ∧
      ∀ op ∈ (Graph.countingLoop.withCycles s).ops, op.cycle = none := by
  rcases exists_stale_schedule true Graph.countingLoop_defects (pure ()) with
    ⟨v, s, hview, hschedule, hfeasible, hempty⟩
  have hsum : View.nodeOf 2 _ ∈ v.nodes := View.nodeOf_mem_nodes hview rfl rfl
  refine ⟨oracle_sound.answers, v, s, hview, hschedule, hfeasible, ⟨_, hsum, ?_⟩,
    withCycles_of_empty _ hempty⟩
  rw [Schedule.cycle?, hempty]
  rfl

end Engine

end CyclePlan
