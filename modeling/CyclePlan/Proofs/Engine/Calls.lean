import CyclePlan.Proofs.Engine.Refused

/-!
# The Effects of Calls

What one call can do to an engine, whether it is refused or not.

A call that succeeds does one of seven things, and its equation says which. A
call that is refused may have changed the model on the way, and the value of a
given interval is taken over before anything is looked at. Nothing else is
touched, and a finished model is not touched either. `Effect` is the list of all
this, with one constructor for each way a call can end, and whatever is shown of
single calls is shown by going through the list.

Building in one go is three calls in a row, up to the first that is refused
(`after_build_cases`). It has no effect of its own.

## Main definitions

* `Effect`: The ways a call can end.
* `afterAll`: The engine after several calls.

## Theorems

* `Request.effect`: The effect of every call but building in one go.
* `after_build_cases`: Building is made of other calls.
* `reaches_iff_exists_afterAll`: Runs as sequences of calls.
* `afterAll_preserves`: What every effect preserves holds after any calls.
* `exists_last_turn`: The call that brought about what holds at the end.
-/

namespace CyclePlan

namespace Engine

variable {α : Type} {e e' : Engine α}

/-! ### Effects -/

/-- The ways a call can end. -/
inductive Effect (e : Engine α) : Request α → Engine α → Prop
  | refused {r : Request α} (t : Discipline) (m : Model α)
    (ht : t.isPipelined = e.discipline.isPipelined) (hm : e.IsSettled → m = e.model) :
    Effect e r { e with discipline := t, model := m }
  | load {g : Graph α} (v : View α) (m : Model α) (hphase : e.phase = .blank) :
    Effect e (.load g) { e with model := m, view := some v, phase := .allocated }
  | dependencies {sameBlockOnly : Bool} (m : Model α)
    (hphase : e.phase = .allocated ∨ e.phase = .constrained) :
    Effect e (.addDependencies sameBlockOnly)
      { e with model := m, hasDependencies := true, phase := .constrained }
  | interval (interval : Int) (m : Model α) (hpipelined : e.discipline.isPipelined = true)
    (hphase : e.phase = .allocated ∨ e.phase = .constrained) :
    Effect e (.addInterval interval)
      { e with
        discipline := .pipelined (.fixed interval)
        model := m
        hasIntervals := true
        phase := .constrained }
  | blockIntervals (m : Model α) (hpipelined : e.discipline.isPipelined = true)
    (hphase : e.phase = .allocated ∨ e.phase = .constrained) :
    Effect e .addBlockIntervals { e with model := m, hasIntervals := true, phase := .constrained }
  | objective (m : Model α) (hphase : e.phase = .constrained)
    (hintervals : e.discipline.isPipelined = true → e.hasIntervals = true) :
    Effect e .setObjective { e with model := m, phase := .aimed }
  | solve (hsettled : e.IsSettled) :
    Effect e .solve
      { e with
        phase := phaseAfter (outcomeOf (e.solver e.asked e.model))
        solution := some (e.solver e.asked e.model)
        outcome := some (outcomeOf (e.solver e.asked e.model))
        asked := e.asked + 1 }
  | lend {borrow : StateM (Handle α) Unit} (m : Model α) (asked : Nat)
    (hphase : ¬ (e.phase = .blank ∨ e.phase = .allocated)) :
    Effect e (.lend borrow)
      { e with
        phase := if e.phase = .constrained then .constrained else .aimed
        model := m
        asked }

theorem effect_self (r : Request α) (e : Engine α) : Effect e r e :=
  .refused e.discipline e.model rfl fun _ => rfl

variable [Scalar α]

/-- The effect of a call that is refused, and leaves a finished model alone. -/
theorem effect_of_refused {cause : SchedulingError α} {r : Request α} (hr : r ≠ .build)
    (hrefused : r.IsRefused e cause) (hsettled : e.IsSettled → (r.after e).model = e.model) :
    Effect e r (r.after e) := by
  rcases r.exists_leaves hr hrefused with ⟨m, hafter, _, _⟩
  rw [hafter] at hsettled ⊢
  exact .refused _ m (r.takenOver_isPipelined _) hsettled

theorem addInterval_effect (interval : Int) (e : Engine α) :
    Effect e (.addInterval interval) ((Request.addInterval interval).after e) := by
  rcases hresult : perform (addInterval interval) e with ⟨answer, e'⟩
  cases answer with
  | ok n =>
      rw [Request.after, hresult]
      by_cases h : ∃ given, e.discipline = .pipelined (.fixed given)
      · rcases h with ⟨given, hgiven⟩
        rw [perform_addInterval_fixed hgiven] at hresult
        rcases perform_contributeIntervals_ok_iff.mp hresult with ⟨hphase, _, _, _, m, _, _, _, rfl⟩
        refine .interval interval m ?_ hphase
        rw [hgiven]
        rfl
      · rw [perform_addInterval_other (not_exists.mp h)] at hresult
        cases hresult
  | error cause =>
      refine effect_of_refused (fun h => by cases h) (congrArg Prod.fst hresult) fun h => ?_
      exact (addInterval_settled (fun m => rfl : ∀ m : Model α, m = m) h interval).model.symm

theorem addBlockIntervals_effect (e : Engine α) :
    Effect e .addBlockIntervals (Request.addBlockIntervals.after e) := by
  rcases hresult : perform addBlockIntervals e with ⟨answer, e'⟩
  cases answer with
  | ok n =>
      rw [Request.after, hresult]
      by_cases h : e.discipline = .pipelined .perBlock
      · rw [perform_addBlockIntervals h] at hresult
        rcases perform_contributeIntervals_ok_iff.mp hresult with ⟨hphase, _, _, _, m, _, _, _, rfl⟩
        refine .blockIntervals m ?_ hphase
        rw [h]
        rfl
      · rw [perform_addBlockIntervals_other h] at hresult
        cases hresult
  | error cause =>
      refine effect_of_refused (fun h => by cases h) (congrArg Prod.fst hresult) fun h => ?_
      rw [Request.after, addBlockIntervals_settled h]

/-- Every call but building in one go has one of the effects. -/
theorem Request.effect (r : Request α) (hr : r ≠ .build) (e : Engine α) :
    Effect e r (r.after e) := by
  cases r with
  | load g =>
      rcases hresult : perform (Engine.load g) e with ⟨answer, e'⟩
      rw [after, hresult]
      cases answer with
      | ok u =>
          rcases perform_load_ok_iff.mp hresult with ⟨hphase, _, v, m, _, _, rfl⟩
          exact .load v m hphase
      | error cause =>
          rw [load_of_error hresult]
          exact effect_self _ _
  | addDependencies sameBlockOnly =>
      rcases hresult : perform (Engine.addDependencies sameBlockOnly) e with ⟨answer, e'⟩
      cases answer with
      | ok n =>
          rw [after, hresult]
          rcases perform_addDependencies_ok_iff.mp hresult with ⟨hphase, _, _, _, m, _, _, _, rfl⟩
          exact .dependencies m hphase
      | error cause =>
          refine effect_of_refused hr (congrArg Prod.fst hresult) fun h => ?_
          rw [after, addDependencies_settled h]
  | addInterval interval => exact addInterval_effect interval e
  | addBlockIntervals => exact addBlockIntervals_effect e
  | setObjective =>
      rcases hresult : perform Engine.setObjective e with ⟨answer, e'⟩
      cases answer with
      | ok u =>
          rw [after, hresult]
          rcases perform_setObjective_ok_iff.mp hresult with ⟨hphase, hint, _, _, m, _, _, _, rfl⟩
          exact .objective m hphase hint
      | error cause =>
          refine effect_of_refused hr (congrArg Prod.fst hresult) fun h => ?_
          rw [after, setObjective_settled h]
  | build => exact absurd rfl hr
  | solve =>
      by_cases h : e.IsSettled
      · rw [after, perform_solve_ok_iff.mpr ⟨h, rfl, rfl⟩]
        exact .solve h
      · rw [after, solve_refused h]
        exact effect_self _ _
  | lend borrow =>
      rcases hresult : perform (Engine.lend borrow) e with ⟨answer, e'⟩
      rw [after, hresult]
      cases answer with
      | ok u =>
          rcases perform_lend_ok_iff.mp hresult with ⟨hphase, v, _, _, rfl⟩
          exact .lend _ _ hphase
      | error cause =>
          rw [lend_of_error hresult]
          exact effect_self _ _

/-! ### Building in one go -/

/-- The call that adds the intervals that a discipline asks for, if it does. -/
def intervalRequest? : Discipline → Option (Request α)
  | .pipelined (.fixed interval) => some (.addInterval interval)
  | .pipelined .perBlock => some .addBlockIntervals
  | _ => none

/-- A call that adds intervals and is not refused. -/
def Request.AddsIntervals (e : Engine α) : Request α → Prop
  | .addInterval interval => ∃ n e', perform (Engine.addInterval interval) e = (.ok n, e')
  | .addBlockIntervals => ∃ n e', perform Engine.addBlockIntervals e = (.ok n, e')
  | _ => False

/-- A call that adds the dependencies and is not refused, at least not before it has
    done that. -/
def Request.AddsDependencies (e : Engine α) : Request α → Prop
  | .addDependencies sameBlockOnly =>
    ∃ n e', perform (Engine.addDependencies sameBlockOnly) e = (.ok n, e')
  | .build => ∃ n e', perform (Engine.addDependencies e.sameBlockOnly) e = (.ok n, e')
  | _ => False

theorem after_then_objective {act : EngineM α Nat} {r : Request α}
    (hr : (perform act e).2 = r.after e)
    (hadds : ∀ n e', perform act e = (.ok n, e') → r.AddsIntervals e) :
    (perform (act >>= fun _ => setObjective) e).2 = r.after e ∨
      r.AddsIntervals e ∧
        (perform (act >>= fun _ => setObjective) e).2 = Request.setObjective.after (r.after e) := by
  rcases hact : perform act e with ⟨answer, e'⟩
  rw [hact] at hr
  subst hr
  cases answer with
  | ok n =>
      rw [perform_bind_of_ok hact]
      exact .inr ⟨hadds n _ hact, rfl⟩
  | error cause =>
      rw [perform_bind_of_error hact]
      exact .inl rfl

/-- Building in one go ends with the dependencies if those are refused. Otherwise it
    goes on with the intervals, if there are any, and with the objective if those
    are not refused. -/
theorem after_build_cases (e : Engine α) :
    (∃ cause, perform (addDependencies e.sameBlockOnly) e
      = (.error cause, Request.build.after e)) ∨
    ∃ n e₁, perform (addDependencies e.sameBlockOnly) e = (.ok n, e₁) ∧
      (Request.build.after e = Request.setObjective.after e₁ ∨
        ∃ r, intervalRequest? e.discipline = some r ∧
          (Request.build.after e = r.after e₁ ∨ r.AddsIntervals e₁ ∧
            Request.build.after e = Request.setObjective.after (r.after e₁))) := by
  rcases hdeps : perform (addDependencies e.sameBlockOnly) e with ⟨answer, e₁⟩
  cases answer with
  | error cause =>
      refine .inl ⟨cause, ?_⟩
      rw [Request.after, build, perform_bind_of_ok (perform_get e), perform_bind_of_error hdeps]
  | ok n =>
      refine .inr ⟨n, e₁, rfl, ?_⟩
      -- What comes after the dependencies depends on the discipline.
      unfold Request.after build
      rw [perform_bind_of_ok (perform_get e), perform_bind_of_ok hdeps]
      cases e.discipline with
      | pipelined target =>
          cases target with
          | fixed interval =>
              exact .inr ⟨.addInterval interval, rfl,
                after_then_objective (r := .addInterval interval) rfl fun n e' h => ⟨n, e', h⟩⟩
          | perBlock =>
              exact .inr ⟨.addBlockIntervals, rfl,
                after_then_objective (r := .addBlockIntervals) rfl fun n e' h => ⟨n, e', h⟩⟩
      | _ => exact .inl rfl

/-- The calls that building in one go is made of. -/
def Request.IsBuilding : Request α → Prop
  | .addDependencies _ | .addInterval _ | .addBlockIntervals | .setObjective => True
  | _ => False

omit [Scalar α] in
theorem Request.IsBuilding.ne_build {r : Request α} (h : r.IsBuilding) : r ≠ .build := by
  rintro rfl
  exact h

omit [Scalar α] in
theorem isBuilding_of_intervalRequest? {t : Discipline} {r : Request α}
    (h : intervalRequest? t = some r) : r.IsBuilding := by
  cases t with
  | pipelined target =>
      cases target <;> cases h <;> trivial
  | _ => cases h

/-- What the effects of the single calls preserve is preserved by building in one go. -/
theorem Request.build_preserves {P : Engine α → Prop}
    (hstep : ∀ {e r e'}, r.IsBuilding → P e → Effect e r e' → P e') (h : P e) :
    P (Request.build.after e) := by
  have hsingle : ∀ {r : Request α} {e}, r.IsBuilding → P e → P (r.after e) :=
    fun {r e} hr he => hstep hr he (r.effect hr.ne_build e)
  have hdeps := hsingle (r := .addDependencies e.sameBlockOnly) trivial h
  rw [after] at hdeps
  rcases after_build_cases e with ⟨cause, hrefused⟩ | ⟨n, e₁, hok, hrest⟩
  · rwa [hrefused] at hdeps
  · rw [hok] at hdeps
    rcases hrest with hgoal | ⟨r, hr, hstop | ⟨_, hgoal⟩⟩
    · rw [hgoal]
      exact hsingle trivial hdeps
    · rw [hstop]
      exact hsingle (isBuilding_of_intervalRequest? hr) hdeps
    · rw [hgoal]
      exact hsingle trivial (hsingle (isBuilding_of_intervalRequest? hr) hdeps)

/-- What every effect preserves is preserved by every call. -/
theorem Request.after_preserves {P : Engine α → Prop}
    (hstep : ∀ {e r e'}, P e → Effect e r e' → P e') (r : Request α) (h : P e) :
    P (r.after e) := by
  by_cases hr : r = .build
  · subst hr
    exact build_preserves (fun _ => hstep) h
  · exact hstep h (r.effect hr e)

/-! ### Sequences of calls -/

/-- The engine after several calls. -/
def afterAll (e : Engine α) (rs : List (Request α)) : Engine α := rs.foldl Request.after e

theorem afterAll_append (e : Engine α) (rs more : List (Request α)) :
    e.afterAll (rs ++ more) = (e.afterAll rs).afterAll more := List.foldl_append

theorem afterAll_concat (e : Engine α) (rs : List (Request α)) (r : Request α) :
    e.afterAll (rs ++ [r]) = r.after (e.afterAll rs) := afterAll_append e rs [r]

/-- Runs are sequences of permitted calls, written out. -/
theorem reaches_iff_exists_afterAll {May : Model α → Model α → Prop} :
    Reaches May e e' ↔ ∃ rs, (∀ r ∈ rs, r.IsPermitted May) ∧ e.afterAll rs = e' := by
  constructor
  · intro h
    induction h with
    | start => exact ⟨[], fun r hr => absurd hr List.not_mem_nil, rfl⟩
    | call _ r hr ih =>
        rcases ih with ⟨rs, hrs, rfl⟩
        refine ⟨rs ++ [r], fun r' hr' => ?_, afterAll_concat e rs r⟩
        rcases List.mem_append.mp hr' with hr' | hr'
        · exact hrs r' hr'
        · rw [List.mem_singleton.mp hr']
          exact hr
  · rintro ⟨rs, hrs, rfl⟩
    -- The last call of the sequence is the last step of the run.
    induction rs using List.reverseRecOn with
    | nil => exact .start
    | append_singleton rs r ih =>
        rw [afterAll_concat]
        have hbefore := ih fun r' hr' => hrs r' (List.mem_append_left _ hr')
        exact .call hbefore r (hrs r (List.mem_append_right _ List.mem_cons_self))

/-- What every effect preserves is preserved by every sequence of calls. -/
theorem afterAll_preserves {P : Engine α → Prop}
    (hstep : ∀ {e r e'}, P e → Effect e r e' → P e') (h : P e) (rs : List (Request α)) :
    P (e.afterAll rs) := by
  induction rs generalizing e with
  | nil => exact h
  | cons r rs ih => exact ih (r.after_preserves hstep h)

/-- What holds at the end and not at the start was brought about by some call, and
    has held ever since. -/
theorem exists_last_turn {P : Engine α → Prop} {rs : List (Request α)} (hstart : ¬ P e)
    (hend : P (e.afterAll rs)) :
    ∃ before r later, rs = before ++ r :: later ∧ ¬ P (e.afterAll before) ∧
      ∀ since, since <+: later → P ((r.after (e.afterAll before)).afterAll since) := by
  induction rs using List.reverseRecOn with
  | nil => exact absurd hend hstart
  | append_singleton rs r ih =>
      by_cases hbefore : P (e.afterAll rs)
      · rcases ih hbefore with ⟨before, r', later, rfl, hnot, hsince⟩
        refine ⟨before, r', later ++ [r], by simp, hnot, fun since hprefix => ?_⟩
        rcases List.prefix_concat_iff.mp hprefix with rfl | hprefix
        · rw [List.append_assoc, afterAll_append] at hend
          exact hend
        · exact hsince since hprefix
      · refine ⟨rs, r, [], rfl, hbefore, fun since hprefix => ?_⟩
        rw [List.prefix_nil.mp hprefix]
        rw [afterAll_concat] at hend
        exact hend

end Engine

end CyclePlan
