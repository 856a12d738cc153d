import CyclePlan.Lp.Assignment
import CyclePlan.Proofs.Engine.Steps

/-!
# Runs of an Engine

Any sequence of calls, refused ones included.

A user of an engine may call anything at any time. A `Request` is one call with
its arguments, and `Reaches` is a finite sequence of them. Refusals do not end
a run; the state that a refused call leaves is the one the next call meets.

Loans are the one place where something outside the engine changes the model.
What a borrower may do is a parameter, a relation between the model that is
lent and the model that comes back, and each statement about runs picks the
weakest relation it can do with.

## Main definitions

* `Request`, `Request.after`: A call, and the engine after it.
* `Request.IsPermitted`: What borrowers may do to the model.
* `Reaches`: A sequence of permitted calls.
* `Model.Adds`: A borrower that only adds.

## Theorems

* `Request.after_settled`: A finished model changes by loans only.
* `Reaches.settled`: The same for sequences.
-/

namespace CyclePlan

variable {α : Type} [Scalar α]

namespace Engine

/-- A call on an engine. -/
inductive Request (α : Type) where
  | load (g : Graph α)
  | addDependencies (sameBlockOnly : Bool)
  | addInterval (interval : Int)
  | addBlockIntervals
  | setObjective
  | build
  | solve
  | lend (borrow : StateM (Handle α) Unit)

/-- The engine after a call, whether it was refused or not. -/
def Request.after (e : Engine α) : Request α → Engine α
  | .load g => (perform (Engine.load g) e).2
  | .addDependencies sameBlockOnly => (perform (Engine.addDependencies sameBlockOnly) e).2
  | .addInterval interval => (perform (Engine.addInterval interval) e).2
  | .addBlockIntervals => (perform Engine.addBlockIntervals e).2
  | .setObjective => (perform Engine.setObjective e).2
  | .build => (perform Engine.build e).2
  | .solve => (perform Engine.solve e).2
  | .lend borrow => (perform (Engine.lend borrow) e).2

/-- Borrowers keep to what they may do to the model. -/
def Request.IsPermitted (May : Model α → Model α → Prop) : Request α → Prop
  | .lend borrow => ∀ h, May h.model (Id.run (borrow.run h)).2.model
  | _ => True

/-- A sequence of permitted calls leads from one engine to another. -/
inductive Reaches (May : Model α → Model α → Prop) (e : Engine α) : Engine α → Prop
  | start : Reaches May e e
  | call {e' : Engine α} (h : Reaches May e e') (r : Request α) (hr : r.IsPermitted May) :
    Reaches May e (r.after e')

/-- What is permitted may be said more loosely. -/
theorem Reaches.mono {May May' : Model α → Model α → Prop} (hmay : ∀ m m', May m m' → May' m m')
    {e e' : Engine α} (h : Reaches May e e') : Reaches May' e e' := by
  induction h with
  | start => exact .start
  | call _ r hr ih =>
      refine .call ih r ?_
      cases r with
      | lend borrow => exact fun h => hmay _ _ (hr h)
      | _ => trivial

/-- Taking a graph and building is a run. -/
theorem reaches_built (May : Model α → Model α → Prop) {e e₁ e₂ : Engine α} {g : Graph α}
    (hload : perform (Engine.load g) e = (.ok ⟨⟩, e₁))
    (hbuild : perform Engine.build e₁ = (.ok ⟨⟩, e₂)) : Reaches May e e₂ := by
  have h₁ : Reaches May e ((Request.load g).after e) := .call .start _ trivial
  rw [Request.after, hload] at h₁
  have h₂ : Reaches May e (Request.build.after e₁) := .call h₁ _ trivial
  rwa [Request.after, hbuild] at h₂

/-- So is solving after that. -/
theorem reaches_solved (May : Model α → Model α → Prop) {e e₁ e₂ e₃ : Engine α} {g : Graph α}
    {outcome : Outcome} (hload : perform (Engine.load g) e = (.ok ⟨⟩, e₁))
    (hbuild : perform Engine.build e₁ = (.ok ⟨⟩, e₂))
    (hsolve : perform Engine.solve e₂ = (.ok outcome, e₃)) : Reaches May e e₃ := by
  have h₃ : Reaches May e (Request.solve.after e₂) :=
    .call (reaches_built May hload hbuild) _ trivial
  rwa [Request.after, hsolve] at h₃

/-! ### Finished models -/

variable {May : Model α → Model α → Prop} {e e' : Engine α}

/-- The model is finished: it has an objective. -/
def IsSettled (e : Engine α) : Prop :=
  e.phase = .aimed ∨ e.phase = .solved ∨ e.phase = .infeasible

theorem phaseAfter_settled (o : Outcome) :
    phaseAfter o = .aimed ∨ phaseAfter o = .solved ∨ phaseAfter o = .infeasible := by
  cases o with
  | optimal => exact .inr (.inl rfl)
  | feasible => exact .inr (.inl rfl)
  | infeasible => exact .inr (.inr rfl)
  | failed _ => exact .inl rfl

omit [Scalar α] in
theorem IsSettled.not_building (h : e.IsSettled) :
    ¬ (e.phase = .allocated ∨ e.phase = .constrained) := by
  rintro (hp | hp) <;> rcases h with h | h | h <;> rw [hp] at h <;> cases h

omit [Scalar α] in
theorem IsSettled.ne_blank (h : e.IsSettled) : e.phase ≠ .blank := by
  intro hp
  rcases h with h | h | h <;> rw [hp] at h <;> cases h

/-- What no call changes once the model is finished. -/
structure Continues (May : Model α → Model α → Prop) (e e' : Engine α) : Prop where
  settled : e'.IsSettled
  view : e'.view = e.view
  solver : e'.solver = e.solver
  /-- Borrowers changed the model as they may. -/
  model : May e.model e'.model

omit [Scalar α] in
theorem Continues.refl (hrefl : ∀ m, May m m) (h : e.IsSettled) : Continues May e e :=
  ⟨h, rfl, rfl, hrefl _⟩

/-- Building calls on a finished model are refused and change nothing. -/
theorem load_settled (h : e.IsSettled) (g : Graph α) : (perform (load g) e).2 = e := by
  rw [load, perform_bind_of_ok (perform_get e)]
  simp only [ne_eq, h.ne_blank, not_false_eq_true, if_true]
  rfl

theorem addDependencies_settled (h : e.IsSettled) (sameBlockOnly : Bool) :
    perform (addDependencies sameBlockOnly) e
      = (.error (.precondition .addDependencies (.phase e.phase)), e) := by
  rw [addDependencies, perform_bind_of_ok (perform_get e)]
  simp only [h.not_building, if_false]
  rfl

theorem contributeIntervals_settled (h : e.IsSettled) (call : EngineCall) :
    (perform (contributeIntervals call) e).2 = e := by
  rw [contributeIntervals, perform_bind_of_ok (perform_get e)]
  simp only [h.not_building, if_false]
  rfl

theorem setObjective_settled (h : e.IsSettled) : (perform setObjective e).2 = e := by
  have hphase : e.phase ≠ .constrained := fun hp => h.not_building (.inr hp)
  rw [setObjective, perform_bind_of_ok (perform_get e)]
  simp only [ne_eq, hphase, not_false_eq_true, if_true]
  rfl

theorem addBlockIntervals_settled (h : e.IsSettled) :
    (perform addBlockIntervals e).2 = e := by
  by_cases hd : e.discipline = .pipelined .perBlock
  · rw [perform_addBlockIntervals hd]
    exact contributeIntervals_settled h _
  · rw [addBlockIntervals, perform_bind_of_ok (perform_get e)]
    split
    · next hd' => exact absurd hd' hd
    · rfl

theorem build_settled (h : e.IsSettled) : (perform build e).2 = e := by
  rw [build, perform_bind_of_ok (perform_get e),
    perform_bind_of_error (addDependencies_settled h _)]

/-- The interval is taken over even so, but not by the model. -/
theorem addInterval_settled (hrefl : ∀ m, May m m) (h : e.IsSettled) (interval : Int) :
    Continues May e (perform (addInterval interval) e).2 := by
  rw [addInterval, perform_bind_of_ok (perform_get e)]
  split
  · rw [perform_bind_of_ok (perform_modify _ _), contributeIntervals_settled]
    · exact ⟨h, rfl, rfl, hrefl _⟩
    · exact h
  · exact Continues.refl hrefl h

omit [Scalar α] in
theorem solve_settled (hrefl : ∀ m, May m m) (h : e.IsSettled) :
    Continues May e (perform solve e).2 := by
  rw [perform_solve_ok_iff.mpr ⟨h, rfl, rfl⟩]
  exact ⟨phaseAfter_settled _, rfl, rfl, hrefl _⟩

omit [Scalar α] in
theorem lend_settled (h : e.IsSettled) {v : View α} (hview : e.view = some v)
    {borrow : StateM (Handle α) Unit}
    (hborrow : ∀ h, May h.model (Id.run (borrow.run h)).2.model) :
    Continues May e (perform (lend borrow) e).2 := by
  have hphase : ¬ (e.phase = .blank ∨ e.phase = .allocated) := by
    rintro (hp | hp)
    · exact h.ne_blank hp
    · exact h.not_building (.inl hp)
  rw [perform_lend_ok_iff.mpr ⟨hphase, v, hview, rfl, rfl⟩]
  -- A model that had an objective has one still.
  refine ⟨.inl ?_, rfl, rfl, hborrow (e.handle v)⟩
  exact if_neg fun hp => h.not_building (.inr hp)

/-- A finished model changes by loans only. -/
theorem Request.after_settled (hrefl : ∀ m, May m m) (h : e.IsSettled) {v : View α}
    (hview : e.view = some v) (r : Request α) (hr : r.IsPermitted May) :
    Continues May e (r.after e) := by
  cases r with
  | load g =>
      rw [after, load_settled h]
      exact Continues.refl hrefl h
  | addDependencies sameBlockOnly =>
      rw [after, addDependencies_settled h]
      exact Continues.refl hrefl h
  | addInterval interval => exact addInterval_settled hrefl h interval
  | addBlockIntervals =>
      rw [after, addBlockIntervals_settled h]
      exact Continues.refl hrefl h
  | setObjective =>
      rw [after, setObjective_settled h]
      exact Continues.refl hrefl h
  | build =>
      rw [after, build_settled h]
      exact Continues.refl hrefl h
  | solve => exact solve_settled hrefl h
  | lend borrow => exact lend_settled h hview hr

/-- So does it in any sequence of calls. -/
theorem Reaches.settled (hrefl : ∀ m, May m m) (htrans : ∀ a b c, May a b → May b c → May a c)
    (h : e.IsSettled) {v : View α} (hview : e.view = some v) (hrun : Reaches May e e') :
    Continues May e e' := by
  induction hrun with
  | start => exact Continues.refl hrefl h
  | call _ r hr ih =>
      have hstep := r.after_settled hrefl ih.settled (ih.view.trans hview) hr
      exact ⟨hstep.settled, hstep.view.trans ih.view, hstep.solver.trans ih.solver,
        htrans _ _ _ ih.model hstep.model⟩

end Engine

namespace Model

/-- A borrower that only adds: no constraint is taken away, and variables are
    added under names that no interval is read from. -/
structure Adds (m m' : Model α) : Prop where
  /-- The variables that were there keep their numbers. -/
  vars : m.vars <+: m'.vars
  constraints : m.constraints ⊆ m'.constraints
  /-- Further variables are not intervals. -/
  names : ∀ w ∈ m'.vars, w.name = intervalVar ∨ w.name = maxIntervalVar → w ∈ m.vars

namespace Adds

variable {m m' m'' : Model α}

omit [Scalar α] in
theorem refl (m : Model α) : m.Adds m :=
  ⟨List.prefix_rfl, List.Subset.refl _, fun _ hw _ => hw⟩

omit [Scalar α] in
theorem trans (h : m.Adds m') (h' : m'.Adds m'') : m.Adds m'' :=
  ⟨h.vars.trans h'.vars, List.Subset.trans h.constraints h'.constraints,
    fun w hw hname => h.names w (h'.names w hw hname) hname⟩

omit [Scalar α] in
theorem getElem?_vars (h : m.Adds m') {i : Nat} {w : Variable α} (hw : m.vars[i]? = some w) :
    m'.vars[i]? = some w := by
  rcases h.vars with ⟨added, hvars⟩
  rw [← hvars, List.getElem?_append_left (List.getElem?_eq_some_iff.mp hw).1, hw]

/-- What satisfies the larger model satisfies the smaller one. -/
theorem isPoint (h : m.Adds m') {x : Nat → α} (hx : m'.IsPoint x) : m.IsPoint x :=
  ⟨fun i w hw => hx.admits i w (h.getElem?_vars hw), fun c hc => hx.meets c (h.constraints hc)⟩

theorem isIntegral (h : m.Adds m') {x : Nat → α} (hx : m'.IsIntegral x) : m.IsIntegral x :=
  fun i w hw => hx i w (h.getElem?_vars hw)

omit [Scalar α] in
theorem carries (h : m.Adds m') {s : Solution α} {x : Nat → α} (hs : s.Carries m' x) :
    s.Carries m x := fun i w hw => hs i w (h.getElem?_vars hw)

end Adds

end Model

end CyclePlan
