import CyclePlan.Proofs.Feasible
import CyclePlan.Proofs.Resource.Trial

/-!
# The Last Solve

What the last solution of an engine says about the model that it has now.

An engine keeps the solution of its last solve until it is solved again. While it
counts as solved, nothing has been lent since, and every call that could have
changed the model is refused. Its solution is then the answer to the model that
it has, and the readers, which look at the phase first, never mix the start
cycles of one model with the rows of another (`results_never_stale`).

A handle is made from the solution without a look at the phase. It carries what
the last solve answered, and the model may have changed since in the hands of
earlier borrowers. That the copy satisfies the model that comes with it is
therefore a matter of what those borrowers did: it does if they added nothing
(`handle_satisfies_last_solved`), and one further constraint is enough for a handle
that has an assignment for a model that has none (`exists_unsatisfied_handle`).

## Main definitions

* `Engine.IsTimely`: Phase, view and solution belong together.
* `Model.AddsNothing`: A borrower that at most takes constraints away.

## Theorems

* `exists_last_solve`: Where the solution comes from.
* `results_never_stale`: A solved engine has the answer to its model.
* `handle_satisfies_last_solved`: What a handle with an assignment satisfies.
* `exists_unsatisfied_handle`: It need not be its own model.
-/

namespace CyclePlan

namespace Engine

variable {α : Type} [Scalar α] {e e' : Engine α} {r : Request α} {rs : List (Request α)}
  {t : Discipline} {solver : Solver α} {sameBlockOnly : Bool}

/-! ### Between two solves -/

omit [Scalar α] in
theorem Effect.solution (heffect : Effect e r e') (hr : r ≠ .solve) :
    e'.solution = e.solution := by
  cases heffect with
  | solve _ => exact absurd rfl hr
  | _ => rfl

/-- Only solving gives an engine another solution. -/
theorem Request.after_solution (hr : r ≠ .solve) : (r.after e).solution = e.solution := by
  by_cases hbuild : r = .build
  · subst hbuild
    refine Request.build_preserves (P := fun d => d.solution = e.solution)
      (fun {d r d'} hr hd heffect => ?_) rfl
    refine (heffect.solution ?_).trans hd
    rintro rfl
    exact hr
  · exact (r.effect hbuild e).solution hr

omit [Scalar α] in
/-- Phase, view and solution belong together. -/
structure IsTimely (e : Engine α) : Prop where
  /-- What has been solved has an objective. -/
  settled : e.solution ≠ none → e.IsSettled
  /-- What has been solved has a view. -/
  viewed : e.phase ≠ .blank → ∃ v, e.view = some v
  /-- What counts as solved has an assignment. -/
  solved : e.phase = .solved → ∃ s, e.solution = some s ∧ s.status.hasAssignment = true

omit [Scalar α] in
theorem IsTimely.effect (h : e.IsTimely) (heffect : Effect e r e') : e'.IsTimely := by
  cases heffect with
  | refused t m _ _ => exact ⟨h.settled, h.viewed, h.solved⟩
  -- While the model is still being built, there is no solution.
  | load v m hphase =>
      exact ⟨fun hs => absurd hphase (h.settled hs).ne_blank, fun _ => ⟨v, rfl⟩, nofun⟩
  | dependencies m hphase =>
      refine ⟨fun hs => absurd hphase (h.settled hs).not_building, fun _ => h.viewed ?_, nofun⟩
      rcases hphase with hphase | hphase <;> simp [hphase]
  | interval interval m _ hphase =>
      refine ⟨fun hs => absurd hphase (h.settled hs).not_building, fun _ => h.viewed ?_, nofun⟩
      rcases hphase with hphase | hphase <;> simp [hphase]
  | blockIntervals m _ hphase =>
      refine ⟨fun hs => absurd hphase (h.settled hs).not_building, fun _ => h.viewed ?_, nofun⟩
      rcases hphase with hphase | hphase <;> simp [hphase]
  | objective m hphase _ =>
      refine ⟨fun hs => absurd (.inr hphase) (h.settled hs).not_building,
        fun _ => h.viewed ?_, nofun⟩
      simp [hphase]
  | solve hsettled =>
      refine ⟨fun _ => phaseAfter_settled _, fun _ => h.viewed hsettled.ne_blank, fun hp => ?_⟩
      exact ⟨_, rfl, (hasAssignment_outcomeOf _).symm.trans (hasAssignment_of_phaseAfter hp)⟩
  | lend m asked hphase =>
      refine ⟨fun hs => .inl (if_neg ?_), fun _ => h.viewed ?_, fun hp => ?_⟩
      · exact fun hp => (h.settled hs).not_building (.inr hp)
      · exact fun hp => hphase (.inl hp)
      · by_cases hc : e.phase = .constrained <;> simp [hc] at hp

theorem afterAll_timely (t : Discipline) (solver : Solver α) (sameBlockOnly : Bool)
    (rs : List (Request α)) : ((fresh t solver sameBlockOnly).afterAll rs).IsTimely := by
  have hfresh : (fresh t solver sameBlockOnly).IsTimely :=
    ⟨fun h => absurd rfl h, fun h => absurd rfl h, nofun⟩
  exact afterAll_preserves IsTimely.effect hfresh rs

omit [Scalar α] in
theorem solve_ok (h : e.IsSettled) :
    perform solve e = (.ok (outcomeOf (e.solver e.asked e.model)), { e with
      phase := phaseAfter (outcomeOf (e.solver e.asked e.model))
      solution := some (e.solver e.asked e.model)
      outcome := some (outcomeOf (e.solver e.asked e.model))
      asked := e.asked + 1 }) := perform_solve_ok_iff.mpr ⟨h, rfl, rfl⟩

/-- The solution comes from the last solve, and it answers the model of that time. -/
theorem exists_last_solve {s : Solution α}
    (h : ((fresh t solver sameBlockOnly).afterAll rs).solution = some s) :
    ∃ before later, rs = before ++ .solve :: later ∧ Request.solve ∉ later ∧
      ((fresh t solver sameBlockOnly).afterAll before).IsSettled ∧
      ∃ asked, s = solver asked ((fresh t solver sameBlockOnly).afterAll before).model := by
  induction rs using List.reverseRecOn with
  | nil => cases h
  | append_singleton rs r ih =>
      rw [afterAll_concat] at h
      by_cases hr : r = .solve
      · subst hr
        have htimely := afterAll_timely t solver sameBlockOnly rs
        have hsolver := (afterAll_answered t solver sameBlockOnly rs).solver_eq
        by_cases hsettled : ((fresh t solver sameBlockOnly).afterAll rs).IsSettled
        · rw [Request.after, solve_ok hsettled, hsolver] at h
          exact ⟨rs, [], rfl, List.not_mem_nil, hsettled, _, (Option.some.inj h).symm⟩
        · -- A solve that is refused finds no solution of an earlier one.
          rw [Request.after, solve_refused hsettled] at h
          refine absurd (htimely.settled fun hnone => ?_) hsettled
          cases h.symm.trans hnone
      · rw [Request.after_solution hr] at h
        rcases ih h with ⟨before, later, rfl, hlater, hrest⟩
        refine ⟨before, later ++ [r], by simp, ?_, hrest⟩
        simp [hlater, Ne.symm hr]

/-! ### Solved engines -/

omit [Scalar α] in
theorem Effect.eq_solve (heffect : Effect e r e') (hbefore : e.phase ≠ .solved)
    (hafter : e'.phase = .solved) : r = .solve := by
  cases heffect with
  | refused t m _ _ => exact absurd hafter hbefore
  | solve _ => rfl
  | lend m asked _ => by_cases hc : e.phase = .constrained <;> simp [hc] at hafter
  | _ => cases hafter

/-- Only solving makes an engine solved. -/
theorem Request.eq_solve (hbefore : e.phase ≠ .solved) (hafter : (r.after e).phase = .solved) :
    r = .solve := by
  by_cases hbuild : r = .build
  · subst hbuild
    refine absurd hafter (Request.build_preserves (P := fun d => d.phase ≠ .solved)
      (fun {d r d'} hr hd heffect hsolved => ?_) hbefore)
    rw [heffect.eq_solve hd hsolved] at hr
    exact hr
  · exact (r.effect hbuild e).eq_solve hbefore hafter

/-- Lending does not leave an engine solved. -/
theorem phase_after_lend (h : e.IsTimely) (borrow : StateM (Handle α) Unit) :
    ((Request.lend borrow).after e).phase ≠ .solved := by
  by_cases hphase : e.phase = .solved
  · rcases h.viewed (by simp [hphase]) with ⟨v, hview⟩
    simp [after_lend_solved hphase hview]
  · intro hsolved
    cases Request.eq_solve hphase hsolved

/-- An engine is solved because of a solve, and nothing was lent since. -/
theorem exists_solve_of_solved (t : Discipline) (solver : Solver α) (sameBlockOnly : Bool)
    (rs : List (Request α)) (h : ((fresh t solver sameBlockOnly).afterAll rs).phase = .solved) :
    ∃ before later, rs = before ++ .solve :: later ∧ ∀ borrow, Request.lend borrow ∉ later := by
  have hfresh : (fresh t solver sameBlockOnly).phase ≠ .solved := nofun
  rcases exists_last_turn (P := fun e => e.phase = .solved) hfresh h with
    ⟨before, r, later, rfl, hnot, hsince⟩
  cases Request.eq_solve hnot (hsince [] List.nil_prefix)
  refine ⟨before, later, rfl, fun borrow hlend => ?_⟩
  -- Right after the loan it would not be solved.
  rcases List.append_of_mem hlend with ⟨first, rest, rfl⟩
  have hlent := hsince (first ++ [.lend borrow]) ⟨rest, by simp⟩
  have htimely := afterAll_timely t solver sameBlockOnly (before ++ .solve :: first)
  rw [afterAll_append] at htimely
  rw [afterAll_concat] at hlent
  exact phase_after_lend htimely borrow hlent

omit [Scalar α] in
/-- A solved engine lends a handle that has an assignment. -/
theorem hasAssignment_handle (h : e.IsTimely) (hphase : e.phase = .solved) (v : View α) :
    (e.handle v).hasAssignment = true := by
  rcases h.solved hphase with ⟨s, hs, hstatus⟩
  have hkept : (e.handle v).assignment? = some s := by
    change e.solution.filter _ = some s
    rw [hs]
    exact Option.filter_some_pos hstatus
  rw [Handle.hasAssignment, hkept, Option.isSome_some]

/-- What can be read from an engine that does not count as solved. -/
theorem unread_of_not_solved (h : e.phase ≠ .solved) :
    (∀ cycles, e.endCycles ≠ .ok cycles) ∧ e.achievedInterval? = none ∧
      ∀ s, e.schedule = .ok s → s.cycles = .empty := by
  refine ⟨fun cycles hread => ?_, ?_, fun s hread => ?_⟩
  · have hsolved : ∀ call, e.solved call = .error (.precondition call (.phase e.phase)) := by
      intro call
      unfold solved
      split
      · next hphase _ _ => exact absurd hphase h
      · rfl
    rw [endCycles, hsolved] at hread
    cases hread
  · rw [achievedInterval?]
    cases e.solution with
    | none => rfl
    | some s => simp [h]
  · rcases schedule_ok_iff.mp hread with ⟨o, _, ⟨_, rfl⟩ | ⟨hphase, _⟩⟩
    · rfl
    · exact absurd hphase h

/-- Results are those of the model. A solver that goes by the model alone has answered
    the model of a solved engine, as it is now, with an assignment. Start cycles and
    intervals can be read of solved engines only, and such an engine has not been lent
    since it was solved last. -/
theorem results_never_stale (answer : Model α → Solution α)
    (hrun : (fresh t (fun _ => answer) sameBlockOnly).afterAll rs = e) :
    (e.phase = .solved →
      e.solution = some (answer e.model) ∧ (answer e.model).status.hasAssignment = true ∧
      ∃ before later, rs = before ++ .solve :: later ∧ ∀ borrow, Request.lend borrow ∉ later) ∧
    ((∃ cycles, e.endCycles = .ok cycles) → e.phase = .solved) ∧
    (e.achievedInterval?.isSome = true → e.phase = .solved) ∧
    ((∃ s, e.schedule = .ok s ∧ s.cycles ≠ .empty) → e.phase = .solved) := by
  have hanswered := afterAll_answered t (fun _ => answer) sameBlockOnly rs
  have htimely := afterAll_timely t (fun _ => answer) sameBlockOnly rs
  have hsplit := exists_solve_of_solved t (fun _ => answer) sameBlockOnly rs
  rw [hrun] at hanswered htimely hsplit
  refine ⟨fun hphase => ?_, ?_⟩
  · rcases hanswered.solved hphase with ⟨_, hsolution, _⟩
    rcases htimely.solved hphase with ⟨s, hs, hassign⟩
    cases hsolution.symm.trans hs
    exact ⟨hsolution, hassign, hsplit hphase⟩
  · by_cases hphase : e.phase = .solved
    · exact ⟨fun _ => hphase, fun _ => hphase, fun _ => hphase⟩
    · rcases unread_of_not_solved hphase with ⟨hends, hinterval, hcycles⟩
      refine ⟨?_, ?_, ?_⟩
      · rintro ⟨cycles, hread⟩
        exact absurd hread (hends cycles)
      · simp [hinterval]
      · rintro ⟨s, hread, hsome⟩
        exact absurd (hcycles s hread) hsome

/-- The loop that counts is solved once, and its solution answers its model. -/
theorem results_never_stale_countingLoop :
    ∃ e, (fresh .asap (fun _ => oracle 0) true).afterAll
        [.load Graph.countingLoop, .build, .solve] = e ∧ e.phase = .solved ∧
      e.solution = some (oracle 0 e.model) ∧ (oracle 0 e.model).status.hasAssignment = true ∧
      (∃ before later, [Request.load Graph.countingLoop, .build, .solve]
        = before ++ .solve :: later ∧ ∀ borrow, Request.lend borrow ∉ later) ∧
      ∃ s, e.schedule = .ok s ∧ s.isFeasible = true := by
  rcases exists_solved_asap true Graph.countingLoop_defects with
    ⟨e, v, o, hrun, _, hphase, hview, hsolution, hout, hassign⟩
  -- The oracle goes by the model alone.
  have hrun' : (fresh .asap (fun _ => oracle 0) true).afterAll
    [.load Graph.countingLoop, .build, .solve] = e := hrun
  rcases (results_never_stale (oracle 0) hrun').1 hphase with ⟨hanswer, hstatus, hsplit⟩
  exact ⟨e, hrun', hphase, hanswer, hstatus, hsplit, _,
    schedule_solved hphase hsolution hview hout, hassign⟩

end Engine

/-! ### Handles -/

namespace Model

variable {α : Type}

/-- A borrower that at most takes constraints away. -/
structure AddsNothing (m m' : Model α) : Prop where
  vars : m'.vars = m.vars
  constraints : m'.constraints ⊆ m.constraints

theorem AddsNothing.refl (m : Model α) : m.AddsNothing m := ⟨rfl, List.Subset.refl _⟩

theorem AddsNothing.trans (m m' m'' : Model α) (h : m.AddsNothing m')
    (h' : m'.AddsNothing m'') : m.AddsNothing m'' :=
  ⟨h'.vars.trans h.vars, List.Subset.trans h'.constraints h.constraints⟩

end Model

namespace Handle

variable {h : Handle Rat} {x : Nat → Rat}

theorem exists_of_hasAssignment {α : Type} {h : Handle α} (hassign : h.hasAssignment = true) :
    ∃ s, h.solution = some s ∧ s.status.hasAssignment = true := by
  rw [hasAssignment, assignment?] at hassign
  rcases Option.isSome_iff_exists.mp hassign with ⟨s, hs⟩
  rcases Option.filter_eq_some_iff.mp hs with ⟨hsolution, hstatus⟩
  exact ⟨s, hsolution, hstatus⟩

/-- What satisfies a model satisfies it with fewer constraints. -/
theorem Holds.of_addsNothing {m : Model Rat} (hx : { h with model := m }.Holds x)
    (hmodel : m.AddsNothing h.model) : h.Holds x := by
  rcases hx with ⟨s, hs, hstatus, hcarries, hpoint, hintegral⟩
  refine ⟨s, hs, hstatus, fun i w hw => ?_, ⟨fun i w hw => ?_, fun c hc => ?_⟩, fun i w hw => ?_⟩
  · exact hcarries i w (hmodel.vars ▸ hw)
  · exact hpoint.admits i w (hmodel.vars ▸ hw)
  · exact hpoint.meets c (hmodel.constraints hc)
  · exact hintegral i w (hmodel.vars ▸ hw)

end Handle

namespace Engine

variable {t : Discipline} {solver : Solver Rat} {sameBlockOnly : Bool} {e e' : Engine Rat}
  {rs : List (Request Rat)} {h : Handle Rat}

/-- A finished model is lent together with the view and the last solution. -/
theorem exists_lend_get (hsettled : e.IsSettled) {v : View Rat} (hview : e.view = some v) :
    ∃ e', perform (lend get) e = (.ok (e.handle v), e') := by
  have hunlent : ¬ (e.phase = .blank ∨ e.phase = .allocated) := by
    rintro (hphase | hphase)
    · exact hsettled.ne_blank hphase
    · exact hsettled.not_building (.inl hphase)
  have hlend : perform (lend (get : StateM (Handle Rat) (Handle Rat))) e = (.ok (e.handle v), _) :=
    perform_lend_ok_iff.mpr ⟨hunlent, v, hview, rfl, rfl⟩
  exact ⟨_, hlend⟩

/-- So it is after a solve. -/
theorem exists_lend_of_solve {g : Graph Rat} {v : View Rat} {e₁ e₂ e₃ : Engine Rat}
    {outcome : Outcome} (hview : View.ofGraph g = .ok v)
    (hload : perform (load g) (fresh t solver sameBlockOnly) = (.ok ⟨⟩, e₁))
    (hbuild : perform build e₁ = (.ok ⟨⟩, e₂)) (hsolve : perform solve e₂ = (.ok outcome, e₃)) :
    ∃ e₄, perform (lend get) e₃ = (.ok (e₃.handle v), e₄) := by
  rcases build_renders hload hbuild with ⟨w, m, hw, _, rfl⟩
  cases hview.symm.trans hw
  rcases perform_solve_ok_iff.mp hsolve with ⟨_, _, rfl⟩
  refine exists_lend_get ?_ rfl
  exact phaseAfter_settled _

/-- A handle that an engine lends, if it has an assignment, carries the last answer to
    the engine. That answer satisfies the model that was solved then, and it satisfies
    the model of the handle if no borrower has added anything since, or if the engine
    still counted as solved. -/
theorem handle_satisfies_last_solved (hsound : solver.Sound)
    (hrun : (fresh t solver sameBlockOnly).afterAll rs = e)
    (hlend : perform (lend get) e = (.ok h, e')) (hassign : h.hasAssignment = true) :
    (∃ before later x, rs = before ++ .solve :: later ∧ Request.solve ∉ later ∧
      { h with model := ((fresh t solver sameBlockOnly).afterAll before).model }.Holds x ∧
      ((∀ r ∈ later, r.IsPermitted Model.AddsNothing) → h.Holds x)) ∧
    (e.phase = .solved → h.IsSatisfied) := by
  rcases perform_lend_ok_iff.mp hlend with ⟨_, v, hview, rfl, _⟩
  change (e.handle v).hasAssignment = true at hassign
  rcases Handle.exists_of_hasAssignment hassign with ⟨s, hs, hstatus⟩
  have hs : e.solution = some s := hs
  constructor
  · rcases exists_last_solve (hrun ▸ hs) with ⟨before, later, rfl, hlater, hsettled, asked, rfl⟩
    rcases hsound asked _ hstatus with ⟨x, hx⟩
    have hholds : { e.handle v with
        model := ((fresh t solver sameBlockOnly).afterAll before).model }.Holds x :=
      ⟨_, hs, hstatus, hx⟩
    refine ⟨before, later, x, rfl, hlater, hholds, fun hpermitted => ?_⟩
    -- From the last solve on, the model changed by loans only.
    rcases (afterAll_timely t solver sameBlockOnly before).viewed hsettled.ne_blank with ⟨w, hw⟩
    have hreach : Reaches Model.AddsNothing ((fresh t solver sameBlockOnly).afterAll before) e :=
      reaches_iff_exists_afterAll.mpr ⟨.solve :: later,
        List.forall_mem_cons.mpr ⟨trivial, hpermitted⟩, (afterAll_append _ _ _).symm.trans hrun⟩
    have hsince := hreach.settled Model.AddsNothing.refl Model.AddsNothing.trans hsettled hw
    exact hholds.of_addsNothing hsince.model
  · intro hphase
    have hanswered := afterAll_answered t solver sameBlockOnly rs
    rw [hrun] at hanswered
    rcases hanswered.solved hphase with ⟨asked, hanswer, _⟩
    cases hs.symm.trans hanswer
    rcases hsound asked e.model hstatus with ⟨x, hx⟩
    exact ⟨x, _, hanswer, hstatus, hx⟩

/-- The solved loop that counts lends a handle that is satisfied. -/
theorem handle_satisfies_last_solved_countingLoop :
    oracle.Sound ∧ ∃ e h e', (fresh .asap oracle true).afterAll
        [.load Graph.countingLoop, .build, .solve] = e ∧
      perform (lend get) e = (.ok h, e') ∧ h.hasAssignment = true ∧ e.phase = .solved ∧
      h.IsSatisfied ∧
      ∃ before later x, [Request.load Graph.countingLoop, .build, .solve]
          = before ++ .solve :: later ∧ Request.solve ∉ later ∧
        { h with model := ((fresh .asap oracle true).afterAll before).model }.Holds x ∧
        ((∀ r ∈ later, r.IsPermitted Model.AddsNothing) → h.Holds x) := by
  rcases exists_solved_asap true Graph.countingLoop_defects with
    ⟨e, v, o, hrun, _, hphase, hview, _⟩
  have htimely := afterAll_timely .asap oracle true [.load Graph.countingLoop, .build, .solve]
  rw [hrun] at htimely
  rcases exists_lend_get (.inr (.inl hphase)) hview with ⟨e', hlend⟩
  have hassign := hasAssignment_handle htimely hphase v
  have hlast := handle_satisfies_last_solved oracle_sound hrun hlend hassign
  exact ⟨oracle_sound, e, _, _, hrun, hlend, hassign, hphase, hlast.2 hphase, hlast.1⟩

/-! ### A borrower that asks too much -/

/-- A row that wants a start before the first cycle. -/
def tooEarly (node : String) : Row := ⟨[(startVar node, 1)], .le, -1⟩

/-- A borrower that adds this row. -/
def demandEarly (node : String) : StateM (Handle Rat) Unit :=
  modify fun h => { h with
    model := (perform (Model.addConstraint (tooEarly node).terms (tooEarly node).relation
      (tooEarly node).rhs) h.model).2 }

theorem demandEarly_adds (node : String) :
    (Request.lend (demandEarly node)).IsPermitted Model.Adds := by
  intro h
  change h.model.Adds (perform (Model.addConstraint (tooEarly node).terms
    (tooEarly node).relation (tooEarly node).rhs) h.model).2
  rcases hadd : perform (Model.addConstraint (tooEarly node).terms (tooEarly node).relation
    (tooEarly node).rhs) h.model with ⟨answer, m⟩
  cases answer with
  | ok id =>
      rcases Model.perform_addConstraint_ok_iff.mp hadd with ⟨_, _, rfl⟩
      exact ⟨List.prefix_rfl, List.subset_append_left _ _, fun _ hw _ => hw⟩
  | error cause =>
      rw [(Model.perform_addConstraint_error hadd).1]
      exact Model.Adds.refl _

/-- No start is below the first cycle. -/
theorem not_isPoint_tooEarly {m : Model Rat} {n : View.Node Rat} (hn : startVariable n ∈ m.vars)
    (x : Nat → Rat) : ¬ (m.withRow (tooEarly n.name)).IsPoint x := by
  intro hx
  rcases Model.isPoint_withRow_iff.mp hx with ⟨hpoint, hrow⟩
  have hlow : 0 ≤ m.valueOf x (startVar n.name) := Discipline.admits_lower_iff.mp
    ((m.forall_admits_iff x).mp hpoint.admits _ hn)
  simp only [Row.Holds, tooEarly, Relation.Holds, Row.sum, List.map_cons, List.map_nil,
    List.sum_cons, List.sum_nil, one_mul, add_zero] at hrow
  linarith

/-- After such a borrower, a handle has an assignment and its model has no point. -/
theorem exists_unsatisfied_handle (sameBlockOnly : Bool) {g : Graph Rat} (id : Nat)
    {op : Operation Rat} (hdefects : g.defects = []) (hop : g.ops[id]? = some op)
    (hkept : op.kind.isStripped = false) :
    ∃ e h e', (fresh .asap oracle sameBlockOnly).afterAll
        [.load g, .build, .solve, .lend (demandEarly op.name)] = e ∧
      perform (lend get) e = (.ok h, e') ∧ h.hasAssignment = true ∧
      ∀ x, ¬ h.model.IsPoint x := by
  rcases exists_solved_asap sameBlockOnly hdefects with ⟨e, v, _, hrun, hgraph, hphase, hview, _⟩
  have htimely := afterAll_timely .asap oracle sameBlockOnly [.load g, .build, .solve]
  rw [hrun] at htimely
  -- The engine has a variable for the start that the borrower asks for.
  have hreach : Reaches Model.Keeps (fresh .asap oracle sameBlockOnly) e :=
    reaches_iff_exists_afterAll.mpr ⟨_, by simp [Request.IsPermitted], hrun⟩
  have hstart := (hreach.grounded.2 v hview).starts _ (View.nodeOf_mem_nodes hgraph hop hkept)
  have hknown : (tooEarly op.name).IsKnown e.model :=
    List.forall_mem_singleton.mpr ⟨_, hstart, rfl⟩
  have hadd : (perform (Model.addConstraint (tooEarly op.name).terms (tooEarly op.name).relation
      (tooEarly op.name).rhs) e.model).2 = e.model.withRow (tooEarly op.name) :=
    congrArg Prod.snd (Model.perform_addConstraint_ok_iff.mpr ⟨hknown, rfl, rfl⟩)
  have hlent := after_lend_solved hphase hview (demandEarly op.name)
  have hend : (fresh .asap oracle sameBlockOnly).afterAll
      [.load g, .build, .solve, .lend (demandEarly op.name)]
        = (Request.lend (demandEarly op.name)).after e := by
    rw [← hrun, ← afterAll_concat]
    rfl
  rw [hlent] at hend
  rcases exists_lend_get (e := { e with phase := .aimed, model := _, asked := _ }) (.inl rfl) hview
    with ⟨e', hlend⟩
  -- The copy is still that of the solve, and the model is the new one.
  refine ⟨_, _, e', hend, hlend, hasAssignment_handle htimely hphase v, ?_⟩
  change ∀ x, ¬ Model.IsPoint (perform (Model.addConstraint (tooEarly op.name).terms
    (tooEarly op.name).relation (tooEarly op.name).rhs) e.model).2 x
  rw [hadd]
  exact not_isPoint_tooEarly hstart

/-- The loop that counts, lent to a borrower that wants its counter before the first
    cycle, and lent again. -/
theorem unsatisfied_handle_countingLoop :
    oracle.Sound ∧ (Request.lend (demandEarly "i")).IsPermitted Model.Adds ∧
    ∃ e h e', (fresh .asap oracle true).afterAll
        [.load Graph.countingLoop, .build, .solve, .lend (demandEarly "i")] = e ∧
      perform (lend get) e = (.ok h, e') ∧ h.hasAssignment = true ∧ ¬ h.IsSatisfied := by
  rcases exists_unsatisfied_handle true 1 Graph.countingLoop_defects rfl rfl with
    ⟨e, h, e', hrun, hlend, hassign, hnone⟩
  refine ⟨oracle_sound, demandEarly_adds "i", e, h, e', hrun, hlend, hassign, ?_⟩
  rintro ⟨x, hx⟩
  exact hnone x hx.isPoint.1

end Engine

end CyclePlan
