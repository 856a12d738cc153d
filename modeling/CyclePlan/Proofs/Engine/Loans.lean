import CyclePlan.Proofs.Engine.Built
import CyclePlan.Proofs.Engine.Runs

/-!
# Loans

What a borrower can count on.

An engine lends its model at any time after building has begun, also when a call
was refused halfway through, and also when earlier borrowers have changed the
model. Little is left that always holds, but it is enough to bring a model within
limits. The view comes from a graph without defects, and every node has its
timing variable, because no operation of a model takes a variable away
(`Model.Keeps`).

Both are invariants of single calls. All calls but one leave the view alone and
use the model through its operations (`Engine.Extends`), which is shown along the
code of each call, for refused calls as well. What borrowers may do is a
parameter, any relation that allows the operations. The call that is left is the
one that takes a graph.

## Main definitions

* `Model.Allows`, `Model.AllowsAdding`: Relations that the operations of a model
  respect, all of them or those that add.
* `Engine.Extends`: What a call leaves alone.
* `Engine.IsGrounded`: View and timing variables belong together.
* `Engine.Lends`: A handle, whatever has been done to its model.

## Theorems

* `Request.after_extends`: All calls but `load` extend.
* `Reaches.invariant`: What a new graph and extending preserve.
* `Reaches.grounded`: Any sequence of calls leads to a grounded engine.
-/

namespace CyclePlan

namespace Model

variable {α : Type}

/-- What the operations of a model may do is allowed, any number of times. -/
structure Allows (May : Model α → Model α → Prop) : Prop where
  edits : ∀ m m', m.Edits m' → May m m'
  trans : ∀ m m' m'', May m m' → May m' m'' → May m m''

theorem Allows.refl {May : Model α → Model α → Prop} (h : Allows May) (m : Model α) : May m m :=
  h.edits m m (Edits.refl m)

theorem Edits.allows : Allows (Edits (α := α)) := ⟨fun _ _ h => h, Edits.trans⟩

theorem Keeps.allows : Allows (Keeps (α := α)) := ⟨fun _ _ h => h.keeps, Keeps.trans⟩

/-- A relation that holds whenever a variable or a constraint is added. -/
structure AllowsAdding [Scalar α] (R : Model α → Model α → Prop) : Prop where
  refl : ∀ m, R m m
  trans : ∀ m m' m'', R m m' → R m' m'' → R m m''
  declare : ∀ name lower upper kind, Moves R (addVariable name lower upper kind)
  submit : ∀ named relation rhs, Moves R (addConstraint named relation rhs)

theorem Edits.adding [Scalar α] : AllowsAdding (Edits (α := α)) :=
  ⟨Edits.refl, Edits.trans, addVariable_edits, addConstraint_edits⟩

end Model

namespace BuildM

open Model

variable {α : Type} [Scalar α] {R : Model α → Model α → Prop}

theorem declare_moves (hR : AllowsAdding R) (name : String) (lower upper : Option α)
    (kind : VariableKind) : Moves R (BuildM.step (Model.addVariable name lower upper kind)) :=
  Moves.adapt (hR.declare name lower upper kind) _

theorem submit_moves (hR : AllowsAdding R) (named : List (String × α)) (relation : Relation)
    (rhs : α) :
    Moves R (do let _ ← BuildM.step (Model.addConstraint named relation rhs) : BuildM α Unit) :=
  Moves.bind hR.trans (Moves.adapt (hR.submit named relation rhs) _) fun _ => Moves.pure hR.refl _

end BuildM

namespace Discipline

open Model BuildM

variable {α : Type} [Scalar α] {R : Model α → Model α → Prop}

/-! ### Steps that only add -/

theorem addBlockInterval_moves (hR : AllowsAdding R) (block : Nat) :
    Moves R (addBlockInterval block : BuildM α Unit) :=
  Moves.bind hR.trans (declare_moves hR _ _ _ _) fun _ => submit_moves hR _ _ _

theorem addIntervalVars_moves (hR : AllowsAdding R) (target : IntervalTarget) (v : View α) :
    Moves R (addIntervalVars target v : BuildM α Unit) := by
  cases target with
  | fixed interval =>
      have hadd := Moves.bind hR.trans (declare_moves hR intervalVar (some 1) none .integer)
        fun _ => submit_moves hR [(intervalVar, 1)] .eq (Scalar.ofInt interval)
      exact Moves.ite (Moves.bind hR.trans (Moves.throw hR.refl _) fun _ => hadd) hadd
  | perBlock =>
      exact Moves.bind hR.trans (declare_moves hR _ _ _ _) fun _ =>
        Moves.forM hR.refl hR.trans (addBlockInterval_moves hR) _

theorem boundSink_moves (hR : AllowsAdding R) (bounds : NameMap Int) (sink : View.Node α) :
    Moves R (boundSink bounds sink : BuildM α Unit) := by
  unfold boundSink
  cases bounds.get? sink.name with
  | none => exact Moves.throw hR.refl _
  | some bound => exact submit_moves hR _ _ _

theorem coverSink_moves (hR : AllowsAdding R) (sink : View.Node α) :
    Moves R (coverSink sink : BuildM α Unit) := submit_moves hR _ _ _

/-! ### Steps of a discipline -/

theorem addObjective_edits (t : Discipline) (v : View α) : Moves Edits (t.addObjective v) := by
  have hadding := Edits.adding (α := α)
  have hgoal : ∀ named direction,
      Moves Edits (BuildM.step (Model.setObjective named direction) : BuildM α Unit) :=
    fun named direction => Moves.adapt (setObjective_edits named direction) _
  have hrequired : ∀ name obstacle, Moves Edits (requireVar name obstacle : BuildM α Unit) :=
    fun name obstacle => Moves.bind Edits.trans (Moves.get Edits.refl) fun m =>
      Moves.ite (Moves.throw Edits.refl _) (Moves.pure Edits.refl _)
  cases t with
  | asap => exact hgoal _ _
  | alap bounds =>
      exact Moves.bind Edits.trans
        (Moves.forM Edits.refl Edits.trans (boundSink_moves hadding bounds) _) fun _ => hgoal _ _
  | noPipeline =>
      refine Moves.bind Edits.trans (declare_moves hadding _ _ _ _) fun _ => ?_
      exact Moves.bind Edits.trans
        (Moves.forM Edits.refl Edits.trans (coverSink_moves hadding) _) fun _ => hgoal _ _
  | pipelined target =>
      cases target with
      | fixed interval => exact Moves.bind Edits.trans (hrequired _ _) fun _ => hgoal _ _
      | perBlock => exact Moves.bind Edits.trans (hrequired _ _) fun _ => hgoal _ _

theorem addIntervals_edits (t : Discipline) (v : View α) : Moves Edits (t.addIntervals v) := by
  cases t with
  | asap => exact Moves.throw Edits.refl _
  | alap _ => exact Moves.throw Edits.refl _
  | noPipeline => exact Moves.throw Edits.refl _
  | pipelined target =>
      have hrest : Moves Edits (do
          addIntervalVars target v
          v.backPairs.forM (addBackEdge target)
          return v.backPairs.length : BuildM α Nat) := by
        refine Moves.bind Edits.trans (addIntervalVars_moves Edits.adding target v) fun _ => ?_
        refine Moves.bind Edits.trans ?_ fun _ => Moves.pure Edits.refl _
        exact Moves.forM Edits.refl Edits.trans
          (fun p => submit_moves Edits.adding _ _ _) _
      rw [addIntervals]
      split
      · exact Moves.bind Edits.trans (Moves.throw Edits.refl _) fun _ => hrest
      · exact hrest

end Discipline

namespace Engine

open Model

section

variable {α : Type} [Scalar α] {e e' : Engine α} {May : Model α → Model α → Prop}

omit [Scalar α] in
/-- What a call leaves alone. -/
structure Extends (May : Model α → Model α → Prop) (e e' : Engine α) : Prop where
  view : e'.view = e.view
  solver : e'.solver = e.solver
  /-- The model was changed as is allowed. -/
  model : May e.model e'.model

omit [Scalar α] in
theorem Extends.refl (hmay : Allows May) (e : Engine α) : Extends May e e :=
  ⟨rfl, rfl, hmay.refl _⟩

omit [Scalar α] in
theorem Extends.trans (hmay : Allows May) (e e' e'' : Engine α) (h : Extends May e e')
    (h' : Extends May e' e'') : Extends May e e'' :=
  ⟨h'.view.trans h.view, h'.solver.trans h.solver, hmay.trans _ _ _ h.model h'.model⟩

omit [Scalar α] in
theorem onModel_extends (hmay : Allows May) {β : Type} {act : BuildM α β} (h : Moves Edits act) :
    Moves (Extends May) (onModel act) := by
  intro e
  rw [onModel, perform_bind_of_ok (perform_get e)]
  change Extends May e (perform (set { e with model := (perform act e.model).2 } >>=
    fun _ => liftExcept (perform act e.model).1) e).2
  rw [perform_bind_of_ok (perform_set _ _)]
  cases (perform act e.model).1 with
  | ok b => exact ⟨rfl, rfl, hmay.edits _ _ (h e.model)⟩
  | error _ => exact ⟨rfl, rfl, hmay.edits _ _ (h e.model)⟩

omit [Scalar α] in
theorem viewOrRefuse_extends (hmay : Allows May) (call : EngineCall) :
    Moves (Extends May) (viewOrRefuse call : EngineM α (View α)) := by
  intro e
  rw [viewOrRefuse, perform_bind_of_ok (perform_get e)]
  cases e.view with
  | some v => exact Extends.refl hmay e
  | none => exact Extends.refl hmay e

omit [Scalar α] in
/-- A change of the model that is made for the view, and a mark that it was made. -/
theorem viewed_extends (hmay : Allows May) {β γ : Type} (call : EngineCall)
    (act : View α → BuildM α β) (mark : Engine α → Engine α) (answer : View α → β → γ)
    (hact : ∀ v, Moves Edits (act v)) (hmark : ∀ e, Extends May e (mark e)) :
    Moves (Extends May) (do
      let v ← viewOrRefuse call
      let b ← onModel (act v)
      modify mark
      return answer v b) := by
  have htrans := Extends.trans hmay
  refine Moves.bind htrans (viewOrRefuse_extends hmay call) fun v => ?_
  refine Moves.bind htrans (onModel_extends hmay (hact v)) fun b => ?_
  exact Moves.bind htrans (Moves.modify hmark) fun _ => Moves.pure (Extends.refl hmay) _

omit [Scalar α] in
theorem refuse_extends (hmay : Allows May) {β : Type} (call : EngineCall) :
    Moves (Extends May) (refuse call : EngineM α β) := fun e => Extends.refl hmay e

omit [Scalar α] in
/-- A guard in front of an action. -/
theorem guarded_extends (hmay : Allows May) {β : Type} {c : Prop} [Decidable c]
    {call : EngineCall} {act : EngineM α β} (h : Moves (Extends May) act) :
    Moves (Extends May) (if c then (refuse call : EngineM α PUnit) >>= fun _ => act else act) :=
  Moves.ite (Moves.bind (Extends.trans hmay) (refuse_extends hmay call) fun _ => h) h

omit [Scalar α] in
/-- The same where the guard says when to go on. -/
theorem unless_extends (hmay : Allows May) {β : Type} {c : Prop} [Decidable c]
    {call : EngineCall} {act : EngineM α β} (h : Moves (Extends May) act) :
    Moves (Extends May) (if c then act else (refuse call : EngineM α PUnit) >>= fun _ => act) :=
  Moves.ite h (Moves.bind (Extends.trans hmay) (refuse_extends hmay call) fun _ => h)

theorem addDependencies_extends (hmay : Allows May) (sameBlockOnly : Bool) :
    Moves (Extends May) (addDependencies sameBlockOnly : EngineM α Nat) := by
  have hadd := viewed_extends hmay .addDependencies
    (fun v : View α => (v.forwardPairs.filter (isEmitted sameBlockOnly)).forM addDependency)
    (fun e => { e with hasDependencies := true, phase := .constrained })
    (fun v _ => (v.forwardPairs.filter (isEmitted sameBlockOnly)).length)
    (fun v => Moves.forM Edits.refl Edits.trans
      (fun p => BuildM.submit_moves Edits.adding _ _ _) _)
    (fun e => ⟨rfl, rfl, hmay.refl _⟩)
  refine Moves.bind (Extends.trans hmay) (Moves.get (Extends.refl hmay)) fun e => ?_
  exact unless_extends hmay (guarded_extends hmay hadd)

theorem contributeIntervals_extends (hmay : Allows May) (call : EngineCall) :
    Moves (Extends May) (contributeIntervals call : EngineM α Nat) := by
  refine Moves.bind (Extends.trans hmay) (Moves.get (Extends.refl hmay)) fun e => ?_
  have hadd := viewed_extends hmay call (fun v : View α => e.discipline.addIntervals v)
    (fun e => { e with hasIntervals := true, phase := .constrained })
    (fun _ b => b) (fun v => e.discipline.addIntervals_edits v)
    (fun e => ⟨rfl, rfl, hmay.refl _⟩)
  exact unless_extends hmay (guarded_extends hmay hadd)

theorem addInterval_extends (hmay : Allows May) (interval : Int) :
    Moves (Extends May) (addInterval interval : EngineM α Nat) := by
  refine Moves.bind (Extends.trans hmay) (Moves.get (Extends.refl hmay)) fun e => ?_
  split
  · exact Moves.bind (Extends.trans hmay) (Moves.modify fun e => ⟨rfl, rfl, hmay.refl _⟩)
      fun _ => contributeIntervals_extends hmay _
  · exact refuse_extends hmay _

theorem addBlockIntervals_extends (hmay : Allows May) :
    Moves (Extends May) (addBlockIntervals : EngineM α Nat) := by
  refine Moves.bind (Extends.trans hmay) (Moves.get (Extends.refl hmay)) fun e => ?_
  split
  · exact contributeIntervals_extends hmay _
  · exact refuse_extends hmay _

theorem setObjective_extends (hmay : Allows May) :
    Moves (Extends May) (setObjective : EngineM α Unit) := by
  refine Moves.bind (Extends.trans hmay) (Moves.get (Extends.refl hmay)) fun e => ?_
  have hadd := viewed_extends hmay .setObjective (fun v : View α => e.discipline.addObjective v)
    (fun e => { e with phase := .aimed })
    (fun _ _ => PUnit.unit) (fun v => e.discipline.addObjective_edits v)
    (fun e => ⟨rfl, rfl, hmay.refl _⟩)
  exact guarded_extends hmay (guarded_extends hmay hadd)

theorem build_extends (hmay : Allows May) : Moves (Extends May) (build : EngineM α Unit) := by
  have htrans := Extends.trans hmay
  refine Moves.bind htrans (Moves.get (Extends.refl hmay)) fun e => ?_
  refine Moves.bind htrans (addDependencies_extends hmay _) fun _ => ?_
  split
  · exact Moves.bind htrans (addInterval_extends hmay _) fun _ => setObjective_extends hmay
  · exact Moves.bind htrans (addBlockIntervals_extends hmay) fun _ => setObjective_extends hmay
  · exact setObjective_extends hmay

omit [Scalar α] in
theorem solve_extends (hmay : Allows May) : Moves (Extends May) (solve : EngineM α Outcome) := by
  intro e
  by_cases h : e.IsSettled
  · rw [perform_solve_ok_iff.mpr ⟨h, rfl, rfl⟩]
    exact ⟨rfl, rfl, hmay.refl _⟩
  · have hphase : ¬ (e.phase = .aimed ∨ e.phase = .solved ∨ e.phase = .infeasible) := h
    rw [solve, perform_bind_of_ok (perform_get e)]
    simp only [hphase, if_false]
    exact Extends.refl hmay e

omit [Scalar α] in
theorem lend_extends (hmay : Allows May) {borrow : StateM (Handle α) Unit}
    (hborrow : ∀ h : Handle α, May h.model (Id.run (borrow.run h)).2.model) (e : Engine α) :
    Extends May e (perform (lend borrow) e).2 := by
  by_cases hphase : e.phase = .blank ∨ e.phase = .allocated
  · rw [lend, perform_bind_of_ok (perform_get e)]
    simp only [hphase, if_true]
    exact Extends.refl hmay e
  · cases hview : e.view with
    | some v =>
        rw [perform_lend_ok_iff.mpr ⟨hphase, v, hview, rfl, rfl⟩]
        exact ⟨rfl, rfl, hborrow (e.handle v)⟩
    | none =>
        rw [lend, perform_bind_of_ok (perform_get e)]
        simp only [hphase, if_false]
        have hrefused : perform (viewOrRefuse .lend : EngineM α (View α)) e
            = (.error (.precondition .lend (.phase e.phase)), e) := by
          rw [viewOrRefuse, perform_bind_of_ok (perform_get e), hview]
          rfl
        rw [perform_bind_of_error hrefused]
        exact Extends.refl hmay e

/-- All calls but the one that takes a graph leave the view alone. -/
theorem Request.after_extends (hmay : Allows May) (r : Request α) (hr : r.IsPermitted May)
    (hload : ∀ g, r ≠ .load g) (e : Engine α) : Extends May e (r.after e) := by
  cases r with
  | load g => exact absurd rfl (hload g)
  | addDependencies sameBlockOnly => exact addDependencies_extends hmay sameBlockOnly e
  | addInterval interval => exact addInterval_extends hmay interval e
  | addBlockIntervals => exact addBlockIntervals_extends hmay e
  | setObjective => exact setObjective_extends hmay e
  | build => exact build_extends hmay e
  | solve => exact solve_extends hmay e
  | lend borrow => exact lend_extends hmay hr e

/-- A graph that is refused changes nothing. -/
theorem load_of_error {g : Graph α} {cause : SchedulingError α}
    (h : perform (load g) e = (.error cause, e')) : e' = e := by
  rw [load, perform_bind_of_ok (perform_get e)] at h
  -- Every refusal comes before the first change.
  by_cases hphase : e.phase = .blank
  · by_cases hdefects : g.defects = []
    · simp only [hphase, ne_eq, not_true_eq_false, if_false, hdefects, List.isEmpty_nil,
        Bool.not_true, Bool.false_eq_true] at h
      cases hview : View.ofGraph g with
      | error _ =>
          rw [hview] at h
          cases h
          rfl
      | ok v =>
          have hlift : perform (liftExcept ((Except.ok v).mapError SchedulingError.graph)) e
              = (.ok v, e) := perform_liftExcept_ok_iff.mpr ⟨rfl, rfl⟩
          rw [hview, perform_bind_of_ok hlift] at h
          cases hmodel : allocate (g.name ++ "_" ++ e.discipline.name) v with
          | error _ =>
              rw [hmodel] at h
              cases h
              rfl
          | ok m =>
              rw [hmodel] at h
              cases h
    · have hsome : (!g.defects.isEmpty) = true := by
        rw [Bool.not_eq_true', ← Bool.not_eq_true, List.isEmpty_iff]
        exact hdefects
      simp only [hphase, ne_eq, not_true_eq_false, if_false, hsome, if_true] at h
      cases h
      rfl
  · simp only [ne_eq, hphase, not_false_eq_true, if_true] at h
    cases h
    rfl

/-- What taking a graph and extending preserve holds after any calls. -/
theorem Request.after_invariant (hmay : Allows May) {P : Engine α → Prop}
    (htaken : ∀ {e g e'}, P e → perform (Engine.load g) e = (.ok ⟨⟩, e') → P e')
    (hextends : ∀ {e e'}, P e → Extends May e e' → P e') (r : Request α)
    (hr : r.IsPermitted May) (h : P e) : P (r.after e) := by
  by_cases hload : ∃ g, r = .load g
  · rcases hload with ⟨g, rfl⟩
    rcases hresult : perform (Engine.load g) e with ⟨answer, e'⟩
    rw [after, hresult]
    cases answer with
    | ok _ => exact htaken h hresult
    | error cause =>
        rw [load_of_error hresult]
        exact h
  · exact hextends h (r.after_extends hmay hr (fun g hg => hload ⟨g, hg⟩) e)

theorem Reaches.invariant (hmay : Allows May) {P : Engine α → Prop}
    (htaken : ∀ {e g e'}, P e → perform (load g) e = (.ok ⟨⟩, e') → P e')
    (hextends : ∀ {e e'}, P e → Extends May e e' → P e') (hstart : P e)
    (hrun : Reaches May e e') : P e' := by
  induction hrun with
  | start => exact hstart
  | call _ r hr ih => exact r.after_invariant hmay htaken hextends hr ih

end

variable {t : Discipline} {solver : Solver Rat} {sameBlockOnly : Bool} {e e' : Engine Rat}

/-- The view is that of a graph without defects, and every node has its timing
    variable. -/
structure IsGrounded (e : Engine Rat) (v : View Rat) : Prop where
  graph : ∃ g : Graph Rat, g.defects = [] ∧ View.ofGraph g = .ok v
  starts : ∀ n ∈ v.nodes, startVariable n ∈ e.model.vars

theorem IsGrounded.of_extends {v : View Rat} (h : e.IsGrounded v) (hmore : Extends Keeps e e') :
    e'.IsGrounded v :=
  ⟨h.graph, fun n hn => hmore.model.subset (h.starts n hn)⟩

/-- A graph that is taken grounds the engine. -/
theorem load_grounded {g : Graph Rat} {v : View Rat}
    (h : perform (load g) e = (.ok ⟨⟩, e')) (hview : e'.view = some v) : e'.IsGrounded v := by
  rcases perform_load_ok_iff.mp h with ⟨_, hdefects, w, m, hw, hm, rfl⟩
  cases hview
  refine ⟨⟨g, hdefects, hw⟩, fun n hn => ?_⟩
  change startVariable n ∈ m.vars
  rw [(allocate_growsBy hm).vars]
  exact List.mem_append_right _ (List.mem_map_of_mem hn)

/-- Whatever was called, the view of an engine belongs to its model. -/
theorem Reaches.grounded (hrun : Reaches Keeps (fresh t solver sameBlockOnly) e) :
    e.solver = solver ∧ ∀ v, e.view = some v → e.IsGrounded v := by
  have hblank : ∀ v, (fresh t solver sameBlockOnly).view = some v →
      (fresh t solver sameBlockOnly).IsGrounded v := fun v hv => absurd hv (fresh_view_ne v)
  refine hrun.invariant Keeps.allows (P := fun e => e.solver = solver ∧
    ∀ v, e.view = some v → e.IsGrounded v) (fun h hload => ?_) (fun h hmore => ?_) ⟨rfl, hblank⟩
  · -- A new graph brings its own variables.
    refine ⟨?_, fun v hv => load_grounded hload hv⟩
    rcases perform_load_ok_iff.mp hload with ⟨_, _, _, _, _, _, rfl⟩
    exact h.1
  · exact ⟨hmore.solver.trans h.1,
      fun v hv => (h.2 v (hmore.view.symm.trans hv)).of_extends hmore⟩

/-- A handle that an engine lends. Its view and solver are those of the engine;
    its model may have been changed since, as long as the variables were kept. -/
structure Lends (e : Engine Rat) (h : Handle Rat) : Prop where
  view : e.view = some h.view
  solver : h.solver = e.solver
  model : e.model.Keeps h.model

theorem lends_handle {v : View Rat} (hview : e.view = some v) : e.Lends (e.handle v) :=
  ⟨hview, rfl, Keeps.refl _⟩

end Engine

end CyclePlan
