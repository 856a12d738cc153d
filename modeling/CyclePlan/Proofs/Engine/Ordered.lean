import CyclePlan.Proofs.Engine.Solved
import CyclePlan.Proofs.Ordering

/-!
# Ordered Engines

What any number of ordering calls makes of a finished model.

A built engine is lent, its handle is ordered by some limits, perhaps by several of
them, and the engine may be solved in between. `OrderedBy` is such a sequence, with
the limits in the order in which they were used. However the calls are spread over
handles, the model that comes out is the model that was built with one group of rows
for each of the limits (`OrderedBy.model_eq`). So it is a program with further rows,
and whatever holds of engines whose borrowers only add holds of these
(`OrderedBy.reaches`).

## Main definitions

* `orderAll`: A borrower that orders by limits, one after the other.
* `Engine.OrderedBy`: An engine after such borrowers, and perhaps solves.

## Theorems

* `addOrdering_adds`: Ordering only adds, accepted or not.
* `Engine.OrderedBy.model_eq`, `Engine.OrderedBy.reaches`: What ordering calls lead to.
* `Engine.OrderedBy.renders`: The program of the model.
* `Engine.OrderedBy.exists_realizes`: The schedule of a solved one.
-/

namespace CyclePlan

/-- A borrower that orders by limits, one after the other. -/
def orderAll (ls : List Limits) : StateM (Handle Rat) Unit :=
  ls.forM fun limits => do
    let _ ← (addResources limits .ordering).run

/-- Ordering by several limits is ordering by the first and then by the others. -/
theorem run_orderAll_cons (limits : Limits) (ls : List Limits) (h : Handle Rat) :
    (Id.run ((orderAll (limits :: ls)).run h)).2
      = (Id.run ((orderAll ls).run (perform (addResources limits .ordering) h).2)).2 := rfl

/-! ### Borrowers -/

/-- Ordering only adds, whether it is accepted or not. -/
theorem addOrdering_adds (limits : Limits) :
    Moves (fun h h' : Handle Rat => h.model.Adds h'.model) (addResources limits .ordering) := by
  have hrefl : ∀ h : Handle Rat, h.model.Adds h.model := fun h => Model.Adds.refl _
  have htrans : ∀ h h' h'' : Handle Rat, h.model.Adds h'.model → h'.model.Adds h''.model →
      h.model.Adds h''.model := fun _ _ _ => Model.Adds.trans
  refine Moves.bind htrans (Moves.get hrefl) fun h => ?_
  refine Moves.mapM hrefl htrans (fun p h => ?_) _
  rw [perform_handle_onModel]
  rcases hadd : perform (Model.addConstraint [(startVar p.2.name, (1 : Rat)),
    (startVar p.1.name, -1)] .ge p.1.latency) h.model with ⟨answer, m⟩
  cases answer with
  | ok id =>
      rcases Model.perform_addConstraint_ok hadd with ⟨_, _, _, rfl⟩
      exact ⟨List.prefix_rfl, List.subset_append_left _ _, fun w hw _ => hw⟩
  | error cause =>
      rw [(Model.perform_addConstraint_error hadd).1]
      exact Model.Adds.refl _

theorem orderAll_adds (ls : List Limits) (h : Handle Rat) :
    h.model.Adds (Id.run ((orderAll ls).run h)).2.model := by
  induction ls generalizing h with
  | nil => exact Model.Adds.refl _
  | cons limits ls ih =>
      rw [run_orderAll_cons]
      exact (addOrdering_adds limits h).trans (ih _)

/-- Where the nodes have their variables, the rows of all limits are added. -/
theorem run_orderAll {h : Handle Rat}
    (hstarts : ∀ n ∈ h.view.nodes, h.model.Knows (startVar n.name)) (ls : List Limits) :
    (Id.run ((orderAll ls).run h)).2
      = { h with model := h.model.withRows (ls.flatMap (waitingRows h.view)) } := by
  induction ls generalizing h with
  | nil => rfl
  | cons limits ls ih =>
      have hfirst := perform_addOrdering hstarts limits
      rw [run_orderAll_cons]
      change (Id.run ((orderAll ls).run (perform (addOrdering limits) h).2)).2 = _
      rw [hfirst, List.flatMap_cons, Model.withRows_append]
      exact ih fun n hn => (hstarts n hn).of_isPrefix (Model.withRows_keeps _ _)

namespace Engine

/-- An engine after its handles were ordered by limits, one after the other, and perhaps
    solves in between. -/
inductive OrderedBy (e : Engine Rat) : List Limits → Engine Rat → Prop
  | start : OrderedBy e [] e
  | solved {ls : List Limits} {e' : Engine Rat} (h : OrderedBy e ls e') :
    OrderedBy e ls (Request.solve.after e')
  | ordered {ls : List Limits} {e' : Engine Rat} (h : OrderedBy e ls e') (more : List Limits) :
    OrderedBy e (ls ++ more) ((Request.lend (orderAll more)).after e')

variable {t : Discipline} {solver : Solver Rat} {sameBlockOnly : Bool} {v : View Rat}
  {m : Model Rat} {e e' : Engine Rat} {ls : List Limits}

/-- Ordering calls are calls of borrowers that only add. -/
theorem OrderedBy.reaches (h : OrderedBy e ls e') : Reaches Model.Adds e e' := by
  induction h with
  | start => exact .start
  | solved _ ih => exact .call ih _ trivial
  | ordered _ more ih => exact .call ih (.lend (orderAll more)) (orderAll_adds more)

theorem OrderedBy.settled (h : OrderedBy (builtWith t solver sameBlockOnly v m) ls e) :
    e.IsSettled :=
  (Reaches.settled Model.Adds.refl (fun _ _ _ => Model.Adds.trans) builtWith_settled rfl
    h.reaches).settled

/-- The model that was built gets one group of rows for each of the limits. -/
theorem OrderedBy.model_eq (hstarts : ∀ n ∈ v.nodes, m.Knows (startVar n.name))
    (h : OrderedBy (builtWith t solver sameBlockOnly v m) ls e) :
    e.model = m.withRows (ls.flatMap (waitingRows v)) := by
  induction h with
  | start => rfl
  | solved h ih =>
      rw [Request.after, perform_solve_ok_iff.mpr ⟨h.settled, rfl, rfl⟩]
      exact ih
  | ordered h more ih =>
      rename_i ls e
      have hview := (continues_of_reaches h.reaches).1
      have hphase : ¬ (e.phase = .blank ∨ e.phase = .allocated) := fun hp =>
        hp.elim h.settled.ne_blank fun hp => h.settled.not_building (.inl hp)
      have hknown : ∀ n ∈ (e.handle v).view.nodes, (e.handle v).model.Knows (startVar n.name) := by
        intro n hn
        change e.model.Knows (startVar n.name)
        rw [ih]
        exact (hstarts n hn).of_isPrefix (m.withRows_keeps _)
      rw [Request.after, perform_lend_ok_iff.mpr ⟨hphase, v, hview, rfl, rfl⟩, run_orderAll hknown,
        List.flatMap_append, Model.withRows_append, ← ih]
      rfl

/-- So it is the program of the discipline with further rows. -/
theorem OrderedBy.renders (hm : m.Renders (t.program v sameBlockOnly))
    (h : OrderedBy (builtWith t solver sameBlockOnly v m) ls e) :
    e.model.Renders ((t.program v sameBlockOnly).withRows (ls.flatMap (waitingRows v))) := by
  have hstarts := Discipline.knows_startVar_of_renders hm
  rw [h.model_eq hstarts]
  refine hm.withRows fun r hr => ?_
  rcases List.mem_flatMap.mp hr with ⟨limits, _, hr⟩
  exact waitingRows_known hstarts limits r hr

/-- Rows do not move variables. -/
theorem OrderedBy.valueOf_eq (hm : m.Renders (t.program v sameBlockOnly))
    (h : OrderedBy (builtWith t solver sameBlockOnly v m) ls e) : e.model.valueOf = m.valueOf := by
  rw [h.model_eq (Discipline.knows_startVar_of_renders hm), Model.withRows_valueOf]

/-- A sound solver that finds something makes a schedule of a solution of the larger
    program. -/
theorem OrderedBy.exists_realizes {outcome : Outcome} (hsound : solver.Sound)
    (hnames : (v.nodes.map (·.name)).Nodup) (hm : m.Renders (t.program v sameBlockOnly))
    (h : OrderedBy (builtWith t solver sameBlockOnly v m) ls e)
    (hsolve : perform solve e = (.ok outcome, e')) (hassign : outcome.hasAssignment = true) :
    ∃ s y, e'.schedule = .ok s ∧ s.Realizes v y ∧
      ((t.program v sameBlockOnly).withRows (ls.flatMap (waitingRows v))).IsSolution y := by
  have hsolver := (continues_of_reaches h.reaches).2.1
  have hstatus : (solver e.asked e.model).status.hasAssignment = true := by
    rcases perform_solve_ok_iff.mp hsolve with ⟨_, rfl, _⟩
    rwa [hasAssignment_outcomeOf, hsolver] at hassign
  rcases hsound e.asked e.model hstatus with ⟨x, hcarries, hpoint, hintegral⟩
  rcases solved_realizes hnames hm h.reaches hsolve hassign hcarries hintegral with
    ⟨s, hschedule, _, _, hreal⟩
  refine ⟨s, _, hschedule, hreal, ?_⟩
  rw [← h.valueOf_eq hm]
  exact ((h.renders hm).isSolution_iff x).mp ⟨hpoint, hintegral⟩

end Engine

end CyclePlan
