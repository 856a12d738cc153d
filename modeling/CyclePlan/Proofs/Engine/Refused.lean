import CyclePlan.Proofs.Engine.Leftovers

/-!
# Refused Calls

What a call on an engine leaves when it is refused.

A call is refused by a guard, which changes nothing, or by the building step behind
it, which may have changed the model (`Discipline.Leaves`). One call changes the
engine before its guards: a value that is given for the interval is taken over
first. So the discipline after a refusal does not depend on why the call was
refused (`Request.takenOver`), and whatever else differs is in the model.

Building in one go is left out. It is made of other calls, and those before the one
that is refused have succeeded.

## Main definitions

* `LeavesModel`: What a refused building step of an engine leaves.
* `Request.IsRefused`: A call is refused.
* `Request.takenOver`: The discipline after a refused call.
* `Request.StopsHalfway`: Why a building step is refused in the middle.
* `Request.Leaves`: What a refused call leaves.

## Theorems

* `addDependencies_leaves`, `contributeIntervals_leaves`, `setObjective_leaves`:
  The calls that build.
* `Request.exists_leaves`: Every call.
-/

namespace CyclePlan

/-- The discipline with another value for a shared interval that is given. -/
def Discipline.withInterval (interval : Int) : Discipline → Discipline
  | .pipelined (.fixed _) => .pipelined (.fixed interval)
  | t => t

theorem Discipline.withInterval_other {t : Discipline}
    (h : ∀ given, t ≠ .pipelined (.fixed given)) (interval : Int) :
    t.withInterval interval = t := by
  unfold withInterval
  split
  · next given => exact absurd rfl (h given)
  · rfl

namespace Engine

variable {α β γ : Type} {e e' : Engine α} {cause : SchedulingError α}

/-! ### Guards and building steps -/

/-- A call that is refused behind a guard was stopped there or behind it. -/
theorem error_of_guarded {c : Prop} [Decidable c] {call : EngineCall} {act : EngineM α β}
    (h : perform (if c then (refuse call : EngineM α PUnit) >>= fun _ => act else act) e
      = (.error cause, e')) : e' = e ∨ perform act e = (.error cause, e') := by
  by_cases hc : c
  · rw [if_pos hc, perform_bind_of_error (perform_refuse call e)] at h
    cases h
    exact .inl rfl
  · rw [if_neg hc] at h
    exact .inr h

theorem error_of_unless {c : Prop} [Decidable c] {call : EngineCall} {act : EngineM α β}
    (h : perform (if c then act else (refuse call : EngineM α PUnit) >>= fun _ => act) e
      = (.error cause, e')) : e' = e ∨ perform act e = (.error cause, e') := by
  rw [← ite_not] at h
  exact error_of_guarded h

theorem perform_onModel_error_iff {act : BuildM α β} :
    perform (onModel act) e = (.error cause, e') ↔
      ∃ m, perform act e.model = (.error cause, m) ∧ e' = { e with model := m } := by
  rw [onModel, perform_bind_of_ok (perform_get e)]
  change perform (set { e with model := (perform act e.model).2 } >>=
    fun _ => liftExcept (perform act e.model).1) e = _ ↔ _
  rw [perform_bind_of_ok (perform_set _ _)]
  rcases perform act e.model with ⟨answer, m⟩
  constructor
  · intro h
    cases answer with
    | ok b => cases h
    | error _ =>
        cases h
        exact ⟨m, rfl, rfl⟩
  · rintro ⟨m', h, rfl⟩
    cases h
    rfl

/-- A building step that is refused puts back what it has made of the model. -/
theorem perform_viewed_of_error {call : EngineCall} {v : View α} {act : View α → BuildM α β}
    {mark : Engine α → Engine α} {answer : View α → β → γ} {m : Model α}
    (hview : e.view = some v) (h : perform (act v) e.model = (.error cause, m)) :
    perform (do
      let v ← viewOrRefuse call
      let b ← onModel (act v)
      modify mark
      return answer v b) e = (.error cause, { e with model := m }) := by
  rw [perform_bind_of_ok (perform_viewOrRefuse_ok_iff.mpr ⟨hview, rfl⟩)]
  exact perform_bind_of_error (perform_onModel_error_iff.mpr ⟨m, h, rfl⟩) _

variable [Scalar α]

/-- A refused building step changes the model and nothing else, and the model as the
    step says. -/
def LeavesModel (Expected : View α → SchedulingError α → Prop) (e : Engine α)
    (cause : SchedulingError α) (e' : Engine α) : Prop :=
  ∃ m, e' = { e with model := m } ∧
    (m = e.model ∨ ∃ v, e.view = some v ∧ Discipline.Leaves v (Expected v) e.model cause m)

variable {Expected : View α → SchedulingError α → Prop}

theorem leavesModel_self (Expected : View α → SchedulingError α → Prop) (e : Engine α)
    (cause : SchedulingError α) : LeavesModel Expected e cause e := ⟨e.model, rfl, .inl rfl⟩

/-- The same the other way round. -/
theorem viewed_leaves {call : EngineCall} {act : View α → BuildM α β} {mark : Engine α → Engine α}
    {answer : View α → β → γ}
    (hact : ∀ v m m', perform (act v) m = (.error cause, m') →
      Discipline.Leaves v (Expected v) m cause m')
    (h : perform (do
      let v ← viewOrRefuse call
      let b ← onModel (act v)
      modify mark
      return answer v b) e = (.error cause, e')) : LeavesModel Expected e cause e' := by
  rcases perform_bind_error_iff.mp h with hview | ⟨v, t, hview, hstep⟩
  · unfold viewOrRefuse at hview
    rw [perform_bind_of_ok (perform_get e)] at hview
    split at hview <;> cases hview
    exact leavesModel_self _ _ _
  · rcases perform_viewOrRefuse_ok_iff.mp hview with ⟨hview, rfl⟩
    rcases perform_bind_error_iff.mp hstep with hmodel | ⟨_, _, _, hmark⟩
    · rcases perform_onModel_error_iff.mp hmodel with ⟨m, hm, rfl⟩
      exact ⟨m, rfl, .inr ⟨v, hview, hact v _ _ hm⟩⟩
    · -- The mark is left only after the step has succeeded.
      cases hmark

theorem addDependencies_leaves {sameBlockOnly : Bool}
    (h : perform (addDependencies sameBlockOnly) e = (.error cause, e')) :
    LeavesModel (fun _ _ => False) e cause e' := by
  rw [addDependencies, perform_bind_of_ok (perform_get e)] at h
  rcases error_of_unless h with rfl | h
  · exact leavesModel_self _ _ _
  rcases error_of_guarded h with rfl | h
  · exact leavesModel_self _ _ _
  exact viewed_leaves (fun v _ _ hrows =>
    Discipline.addDependencies_leaves (fun p hp => (List.mem_filter.mp hp).1) hrows) h

theorem contributeIntervals_leaves {call : EngineCall} {target : IntervalTarget}
    (htarget : e.discipline = .pipelined target)
    (h : perform (contributeIntervals call) e = (.error cause, e')) :
    LeavesModel (Discipline.TakenInterval target) e cause e' := by
  rw [contributeIntervals, perform_bind_of_ok (perform_get e)] at h
  rcases error_of_unless h with rfl | h
  · exact leavesModel_self _ _ _
  rcases error_of_guarded h with rfl | h
  · exact leavesModel_self _ _ _
  rw [htarget] at h
  exact viewed_leaves (fun v _ _ hrows => Discipline.addIntervals_leaves hrows) h

theorem setObjective_leaves (h : perform setObjective e = (.error cause, e')) :
    LeavesModel (Discipline.Unbounded e.discipline) e cause e' := by
  rw [setObjective, perform_bind_of_ok (perform_get e)] at h
  rcases error_of_guarded h with rfl | h
  · exact leavesModel_self _ _ _
  rcases error_of_guarded h with rfl | h
  · exact leavesModel_self _ _ _
  exact viewed_leaves (fun v _ _ hgoal => Discipline.addObjective_leaves hgoal) h

/-! ### Single calls -/

/-- Giving an interval takes it over and then adds it. -/
theorem perform_addInterval_fixed {given : Int} (h : e.discipline = .pipelined (.fixed given))
    (interval : Int) :
    perform (addInterval interval) e = perform (contributeIntervals .addInterval)
      { e with discipline := .pipelined (.fixed interval) } := by
  rw [addInterval, perform_bind_of_ok (perform_get e)]
  simp only [h]
  rw [perform_bind_of_ok (perform_modify _ _)]

theorem perform_addInterval_other (h : ∀ given, e.discipline ≠ .pipelined (.fixed given))
    (interval : Int) :
    perform (addInterval interval) e
      = (.error (.precondition .addInterval (.phase e.phase)), e) := by
  rw [addInterval, perform_bind_of_ok (perform_get e)]
  split
  · next given hgiven => exact absurd hgiven (h given)
  · rfl

theorem perform_addBlockIntervals_other (h : e.discipline ≠ .pipelined .perBlock) :
    perform addBlockIntervals e
      = (.error (.precondition .addBlockIntervals (.phase e.phase)), e) := by
  rw [addBlockIntervals, perform_bind_of_ok (perform_get e)]
  split
  · next hgiven => exact absurd hgiven h
  · rfl

omit [Scalar α] in
theorem solve_refused (h : ¬ e.IsSettled) :
    perform solve e = (.error (.precondition .solve (.phase e.phase)), e) := by
  have hphase : ¬ (e.phase = .aimed ∨ e.phase = .solved ∨ e.phase = .infeasible) := h
  rw [solve, perform_bind_of_ok (perform_get e)]
  simp only [hphase, if_false]
  rfl

omit [Scalar α] in
/-- A loan that is refused is refused before the model is handed out. -/
theorem lend_of_error {borrow : StateM (Handle α) Unit} {cause : SchedulingError α}
    (h : perform (lend borrow) e = (.error cause, e')) : e' = e := by
  rw [lend, perform_bind_of_ok (perform_get e)] at h
  by_cases hphase : e.phase = .blank ∨ e.phase = .allocated
  · simp only [hphase, if_true] at h
    cases h
    rfl
  · simp only [hphase, if_false] at h
    unfold viewOrRefuse at h
    rw [bind_assoc, perform_bind_of_ok (perform_get e)] at h
    cases hview : e.view with
    | some v =>
        rw [hview] at h
        cases h
    | none =>
        rw [hview] at h
        cases h
        rfl

/-! ### Refused calls -/

/-- The call is refused for a cause. -/
def Request.IsRefused (e : Engine α) (cause : SchedulingError α) : Request α → Prop
  | .load g => (perform (Engine.load g) e).1 = .error cause
  | .addDependencies sameBlockOnly =>
    (perform (Engine.addDependencies sameBlockOnly) e).1 = .error cause
  | .addInterval interval => (perform (Engine.addInterval interval) e).1 = .error cause
  | .addBlockIntervals => (perform Engine.addBlockIntervals e).1 = .error cause
  | .setObjective => (perform Engine.setObjective e).1 = .error cause
  | .build => (perform Engine.build e).1 = .error cause
  | .solve => (perform Engine.solve e).1 = .error cause
  | .lend borrow => (perform (Engine.lend borrow) e).1 = .error cause

omit [Scalar α] in
/-- The discipline that a refused call leaves. A given interval is taken over. -/
def Request.takenOver (t : Discipline) : Request α → Discipline
  | .addInterval interval => t.withInterval interval
  | _ => t

omit [Scalar α] in
theorem Request.takenOver_isPipelined (r : Request α) (t : Discipline) :
    (r.takenOver t).isPipelined = t.isPipelined := by
  cases r with
  | addInterval interval =>
      change (t.withInterval interval).isPipelined = t.isPipelined
      unfold Discipline.withInterval
      split <;> rfl
  | _ => rfl

omit [Scalar α] in
/-- The causes that are noticed in the middle of a building step: a block without a
    bound for its last node, and a block whose interval has a name that is taken. -/
def Request.StopsHalfway (e : Engine α) (cause : SchedulingError α) : Request α → Prop
  | .setObjective => ∃ v, e.view = some v ∧ Discipline.Unbounded e.discipline v cause
  | .addBlockIntervals => ∃ v, e.view = some v ∧ Discipline.TakenInterval .perBlock v cause
  | _ => False

/-- What a refused call leaves, with the cause if it is more than before. -/
structure Request.Leaves (r : Request α) (e : Engine α) (cause : SchedulingError α)
    (m : Model α) : Prop where
  after : r.after e = { e with discipline := r.takenOver e.discipline, model := m }
  gains : e.model.Gains m
  cause : m ≠ e.model → r.StopsHalfway e cause ∨
    ∃ c, cause = .lp c ∧
      ((∀ v, e.view = some v → Discipline.StartsKnown v e.model) → c.IsNonFinite)

theorem Request.leaves_self {r : Request α} (hafter : r.after e = e)
    (htaken : r.takenOver e.discipline = e.discipline) : r.Leaves e cause e.model :=
  ⟨by rw [hafter, htaken], Model.Gains.refl _, fun hne => absurd rfl hne⟩

theorem Request.leaves_of_model {r : Request α}
    (h : LeavesModel Expected { e with discipline := r.takenOver e.discipline } cause (r.after e))
    (hexpected : ∀ v, e.view = some v → Expected v cause → r.StopsHalfway e cause) :
    ∃ m, r.Leaves e cause m := by
  rcases h with ⟨m, hafter, hm⟩
  refine ⟨m, hafter, ?_, fun hne => ?_⟩
  · rcases hm with rfl | ⟨v, _, hleaves⟩
    · exact Model.Gains.refl _
    · exact hleaves.gains
  · rcases hm with rfl | ⟨v, hview, hleaves⟩
    · exact absurd rfl hne
    · rcases hleaves.cause with hsame | hstop | ⟨c, hc, hfinite⟩
      · exact absurd hsame hne
      · exact .inl (hexpected v hview hstop)
      · exact .inr ⟨c, hc, fun hstarts => hfinite (hstarts v hview)⟩

theorem addInterval_leaves {interval : Int}
    (h : (Request.addInterval interval).IsRefused e cause) :
    ∃ m, (Request.addInterval interval).Leaves e cause m := by
  have hrun : perform (addInterval interval) e
      = (.error cause, (Request.addInterval interval).after e) := Prod.ext h rfl
  by_cases hfixed : ∃ given, e.discipline = .pipelined (.fixed given)
  · rcases hfixed with ⟨given, hgiven⟩
    have htaken : e.discipline.withInterval interval = .pipelined (.fixed interval) := by
      rw [hgiven]
      rfl
    rw [perform_addInterval_fixed hgiven, ← htaken] at hrun
    refine Request.leaves_of_model (contributeIntervals_leaves htaken hrun) fun v _ hnone => ?_
    -- A shared interval has no block that it belongs to.
    cases hnone.1
  · have hother := perform_addInterval_other (not_exists.mp hfixed) interval
    exact ⟨e.model, Request.leaves_self (congrArg Prod.snd hother)
      (Discipline.withInterval_other (not_exists.mp hfixed) interval)⟩

theorem addBlockIntervals_leaves (h : (Request.addBlockIntervals).IsRefused e cause) :
    ∃ m, (Request.addBlockIntervals).Leaves e cause m := by
  have hrun : perform addBlockIntervals e
      = (.error cause, Request.addBlockIntervals.after e) := Prod.ext h rfl
  by_cases hblocks : e.discipline = .pipelined .perBlock
  · rw [perform_addBlockIntervals hblocks] at hrun
    exact Request.leaves_of_model (contributeIntervals_leaves hblocks hrun)
      fun v hview hstop => ⟨v, hview, hstop⟩
  · have hother := perform_addBlockIntervals_other hblocks
    exact ⟨e.model, Request.leaves_self (congrArg Prod.snd hother) rfl⟩

/-- What any single call leaves when it is refused. -/
theorem Request.exists_leaves (r : Request α) (hr : r ≠ .build) (h : r.IsRefused e cause) :
    ∃ m, r.Leaves e cause m := by
  cases r with
  | load g =>
      have hrun : perform (Engine.load g) e = (.error cause, (Request.load g).after e) :=
        Prod.ext h rfl
      exact ⟨e.model, leaves_self (load_of_error hrun) rfl⟩
  | addDependencies sameBlockOnly =>
      have hrun : perform (Engine.addDependencies sameBlockOnly) e
          = (.error cause, (Request.addDependencies sameBlockOnly).after e) := Prod.ext h rfl
      exact leaves_of_model (addDependencies_leaves hrun) fun _ _ hnone => hnone
  | addInterval interval => exact addInterval_leaves h
  | addBlockIntervals => exact addBlockIntervals_leaves h
  | setObjective =>
      have hrun : perform Engine.setObjective e
          = (.error cause, Request.setObjective.after e) := Prod.ext h rfl
      exact leaves_of_model (setObjective_leaves hrun) fun v hview hstop => ⟨v, hview, hstop⟩
  | build => exact absurd rfl hr
  | solve =>
      by_cases hsettled : e.IsSettled
      · unfold IsRefused at h
        rw [perform_solve_ok_iff.mpr ⟨hsettled, rfl, rfl⟩] at h
        cases h
      · exact ⟨e.model, leaves_self (congrArg Prod.snd (solve_refused hsettled)) rfl⟩
  | lend borrow =>
      have hrun : perform (Engine.lend borrow) e = (.error cause, (Request.lend borrow).after e) :=
        Prod.ext h rfl
      exact ⟨e.model, leaves_self (lend_of_error hrun) rfl⟩

end Engine

end CyclePlan
