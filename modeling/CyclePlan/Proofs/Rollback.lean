import CyclePlan.Proofs.Resource.TimeIndexed
import CyclePlan.Proofs.Scalar.Words

/-!
# Taking Back

What a borrower finds in its model after limits could not be added.

Pinning and the formulation by cycles are trials, and a trial that is refused is
taken back. That this works is a matter of numbers: every constraint that a trial
added must still be found under the number that was noted for it. The numbers of
a model are in order from the start, and no operation of a model ever puts them
out of order, so they are in order on every handle (`Reaches.numbered`). What the
solver answers plays no part in it.

Ordering is not a trial, and it needs none. Its rows join the starts of nodes,
and every node of the view has a variable and a finite latency, so no row is ever
refused (`exists_addOrdering`).

## Main definitions

* `Engine.HasFiniteLatencies`: The latencies of the view are finite.

## Theorems

* `Reaches.numbered`, `Reaches.hasStarts`, `Reaches.hasFiniteLatencies`: What holds of
  any engine.
* `exists_addOrdering`: Ordering is never refused.
* `refused_pass_restores`: What a refused pass leaves.
-/

namespace CyclePlan

variable {α : Type} [Scalar α]

namespace Engine

variable {May : Model α → Model α → Prop} {e e' : Engine α} {t : Discipline}
  {solver : Solver α} {sameBlockOnly : Bool}

/-! ### Any engine -/

/-- The constraints of the model are found under their numbers, whatever was called. -/
theorem Reaches.numbered (hrun : Reaches Model.Edits (fresh t solver sameBlockOnly) e) :
    e.model.IsNumbered := by
  refine hrun.invariant Model.Edits.allows (P := fun e => e.model.IsNumbered)
    (fun _ hload => ?_) (fun h hmore => h.edits hmore.model) (.of_no_constraints rfl)
  rcases perform_load_ok_iff.mp hload with ⟨_, _, v, m, _, hm, rfl⟩
  exact Model.IsNumbered.edits (.of_no_constraints rfl) (allocate_edits hm).1

theorem Reaches.hasStarts (hrun : Reaches Model.Edits (fresh t solver sameBlockOnly) e) :
    e.HasStarts :=
  hrun.invariant Model.Edits.allows (fun _ hload => load_hasStarts hload)
    (fun h hmore => h.of_extends ⟨hmore.view, hmore.solver, hmore.model.keeps⟩)
    fun v hv => absurd hv (fresh_view_ne v)

/-- The latencies of the nodes are finite. -/
def HasFiniteLatencies (e : Engine α) : Prop :=
  ∀ v, e.view = some v → ∀ n ∈ v.nodes, Scalar.isFinite n.latency = true

/-- A graph is looked through before it is taken. -/
theorem load_hasFiniteLatencies {g : Graph α} (h : perform (load g) e = (.ok ⟨⟩, e')) :
    e'.HasFiniteLatencies := by
  rcases perform_load_ok_iff.mp h with ⟨_, hdefects, w, m, hw, _, rfl⟩
  intro v hv
  cases hv
  exact Graph.isFinite_node_of_defects hdefects hw

theorem Reaches.hasFiniteLatencies
    (hrun : Reaches Model.Edits (fresh t solver sameBlockOnly) e) : e.HasFiniteLatencies :=
  hrun.invariant Model.Edits.allows (fun _ hload => load_hasFiniteLatencies hload)
    (fun h hmore v hv => h v (hmore.view.symm.trans hv)) fun v hv => absurd hv (fresh_view_ne v)

end Engine

/-! ### Ordering -/

omit [Scalar α] in
theorem View.mem_of_mem_orderedUnits {v : View α} {block : Nat} {unit : String}
    {n : View.Node α} (h : n ∈ v.orderedUnits block unit) : n ∈ v.nodes := by
  rcases List.mem_filterMap.mp (List.mem_filter.mp h).1 with ⟨i, _, hi⟩
  exact List.mem_of_getElem? hi

omit [Scalar α] in
theorem mem_nodes_of_waitingPairs {v : View α} {limits : Limits}
    {p : View.Node α × View.Node α} (h : p ∈ waitingPairs v limits) :
    p.1 ∈ v.nodes ∧ p.2 ∈ v.nodes := by
  rcases List.mem_flatMap.mp h with ⟨block, _, hblock⟩
  rcases List.mem_flatMap.mp hblock with ⟨⟨unit, capacity⟩, _, hunit⟩
  have hboth := List.of_mem_zip hunit
  exact ⟨View.mem_of_mem_orderedUnits hboth.1,
    View.mem_of_mem_orderedUnits (List.mem_of_mem_drop hboth.2)⟩

/-- Where nodes have their variables and finite latencies, ordering is not refused. -/
theorem exists_addOrdering [Scalar.FiniteUnits α] {h : Handle α}
    (hstarts : ∀ n ∈ h.view.nodes, h.model.Knows (startVar n.name))
    (hlatencies : ∀ n ∈ h.view.nodes, Scalar.isFinite n.latency = true) (limits : Limits) :
    ∃ ids h', perform (addOrdering limits) h = (.ok ids, h') := by
  rw [addOrdering, perform_bind_of_ok (perform_get h)]
  -- Rows do not touch the variables, so the later rows find what the first one found.
  have hround : ∀ p ∈ waitingPairs h.view limits, ∀ s : Handle α, s.model.vars = h.model.vars →
      ∃ id s', perform (HandleM.onModel (Model.addConstraint
        [(startVar p.2.name, 1), (startVar p.1.name, -1)] .ge p.1.latency)) s = (.ok id, s') ∧
        s'.model.vars = h.model.vars := by
    intro p hp s hs
    rcases mem_nodes_of_waitingPairs hp with ⟨hearlier, hlater⟩
    have hknown : ∀ n ∈ h.view.nodes, s.model.Knows (startVar n.name) := fun n hn =>
      (hstarts n hn).of_isPrefix (hs ▸ List.prefix_rfl)
    have hterms : ∀ t ∈ [(startVar p.2.name, (1 : α)), (startVar p.1.name, -1)],
        s.model.Knows t.1 ∧ Scalar.isFinite t.2 = true := by
      simp [hknown p.1 hearlier, hknown p.2 hlater, Scalar.FiniteUnits.one,
        Scalar.FiniteUnits.neg_one]
    rcases Model.exists_addConstraint .ge (fun t ht => (hterms t ht).1)
      (fun t ht => (hterms t ht).2) (hlatencies p.1 hearlier) with ⟨id, m, hrun, hvars⟩
    refine ⟨id, { s with model := m }, ?_, hvars.trans hs⟩
    rw [perform_handle_onModel, hrun]
    rfl
  rcases exists_perform_mapM hround (rfl : h.model.vars = h.model.vars) with ⟨ids, h', hrun, _⟩
  exact ⟨ids, h', hrun⟩

/-! ### Refused passes -/

/-- Pinning that is refused leaves no trace but numbers that were given out. -/
theorem pinToColumns_of_error {limits : Limits} {interval : Int} {budget : PinningBudget}
    {h h' : Handle α} {cause : SchedulingError α} (hnumbered : h.model.IsNumbered)
    (hrun : perform (pinToColumns limits interval budget) h = (.error cause, h')) :
    h'.model.vars = h.model.vars ∧ h'.model.constraints = h.model.constraints ∧
      h'.model.objective = h.model.objective ∧ h'.solution = h.solution := by
  rw [pinToColumns, perform_bind_of_ok (perform_get h)] at hrun
  split at hrun
  · cases hrun
    exact ⟨rfl, rfl, rfl, rfl⟩
  · rcases hattempt : perform (TrialM.attempt (placeAll budget interval h.view limits.toList
        { remaining := budget.iterations })) h with ⟨answer, h₁⟩
    cases answer with
    | ok b =>
        rw [perform_bind_of_ok hattempt] at hrun
        cases hrun
    | error _ =>
        rw [perform_bind_of_error hattempt] at hrun
        cases hrun
        -- Placing declares no variables at all.
        rcases perform_attempt_error (P := fun _ => False) (placeAll_grows _ _ _ _ _)
          hnumbered hattempt with ⟨hconstraints, hobjective, hsolution, more, hvars, hnone⟩
        rw [List.eq_nil_iff_forall_not_mem.mpr hnone, List.append_nil] at hvars
        exact ⟨hvars, hconstraints, hobjective, hsolution⟩

/-- The formulation by cycle grows the model by binary variables. -/
theorem addCycles_grows (limits : Limits) (hs : List (Nat × Nat)) :
    Moves (Trial.Grows fun w : Variable α => w.kind = .binary) (hs.forM fun p =>
      limits.toList.forM fun q => addUnitCycles p.1 p.2 q.1 q.2 : TrialM α PUnit) :=
  Moves.forM Trial.Grows.refl Trial.Grows.trans
    (fun p : Nat × Nat => Moves.forM Trial.Grows.refl Trial.Grows.trans
      (fun q : String × Nat => addUnitCycles_grows (P := fun w : Variable α =>
        w.kind = .binary) (fun _ hw => hw) p.1 p.2 q.1 q.2) limits.toList) hs

/-- If it is accepted, it has edited the model. -/
theorem addTimeIndexed_edits {limits : Limits} {horizon : Option Int} {ids : List Nat}
    {h h' : Handle α} (hrun : perform (addTimeIndexed limits horizon) h = (.ok ids, h')) :
    h.model.Edits h'.model := by
  rw [addTimeIndexed, perform_bind_of_ok (perform_get h)] at hrun
  split at hrun
  · cases hrun
  · next hs _ =>
    rcases perform_bind_ok_iff.mp hrun with ⟨⟨_, added⟩, _, hattempt, hanswer⟩
    cases hanswer
    rcases perform_attempt_ok_iff.mp hattempt with ⟨t, hbuild, rfl, rfl⟩
    exact ((addCycles_grows limits hs).of_perform hbuild).edits

/-- It leaves variables when it is refused, but no constraint
    that they occur in. -/
theorem addTimeIndexed_of_error {limits : Limits} {horizon : Option Int} {h h' : Handle α}
    {cause : SchedulingError α} (hnumbered : h.model.IsNumbered)
    (hrun : perform (addTimeIndexed limits horizon) h = (.error cause, h')) :
    h'.model.constraints = h.model.constraints ∧ h'.model.objective = h.model.objective ∧
      h'.solution = h.solution ∧
      ∃ binaries, h'.model.vars = h.model.vars ++ binaries ∧
        (∀ w ∈ binaries, w.kind = .binary) ∧
        ∀ c ∈ h'.model.constraints, ∀ t ∈ c.2.terms, t.1 < h.model.vars.length := by
  rw [addTimeIndexed, perform_bind_of_ok (perform_get h)] at hrun
  split at hrun
  · cases hrun
    refine ⟨rfl, rfl, rfl, [], (List.append_nil _).symm, ?_, hnumbered.terms⟩
    exact fun w hw => absurd hw List.not_mem_nil
  · next hs _ =>
    rcases perform_bind_error_iff.mp hrun with hattempt | ⟨b, h₁, _, hanswer⟩
    · rcases perform_attempt_error (addCycles_grows limits hs) hnumbered hattempt with
        ⟨hconstraints, hobjective, hsolution, more, hvars, hbinary⟩
      refine ⟨hconstraints, hobjective, hsolution, more, hvars, hbinary, ?_⟩
      rw [hconstraints]
      exact hnumbered.terms
    · cases hanswer

namespace Engine

variable {e : Engine α} {h : Handle α} {t : Discipline} {solver : Solver α}
  {sameBlockOnly : Bool}

/-- On every handle that an engine lends, a pass that is refused restores what it
    found: pinning everything, the formulation by cycles everything but further
    variables, which occur in no constraint. Ordering is never refused. -/
theorem refused_pass_restores [Scalar.FiniteUnits α]
    (hrun : Reaches Model.Edits (fresh t solver sameBlockOnly) e)
    (hview : e.view = some h.view) (hmodel : e.model.Edits h.model) (limits : Limits) :
    (∀ interval budget cause h',
      perform (pinToColumns limits interval budget) h = (.error cause, h') →
        h'.model.vars = h.model.vars ∧ h'.model.constraints = h.model.constraints ∧
          h'.model.objective = h.model.objective ∧ h'.solution = h.solution) ∧
    (∀ horizon cause h',
      perform (addResources limits (.timeIndexed horizon)) h = (.error cause, h') →
        h'.model.constraints = h.model.constraints ∧ h'.model.objective = h.model.objective ∧
          h'.solution = h.solution ∧
          ∃ binaries, h'.model.vars = h.model.vars ++ binaries ∧
            (∀ w ∈ binaries, w.kind = .binary) ∧
            ∀ c ∈ h'.model.constraints, ∀ t ∈ c.2.terms, t.1 < h.model.vars.length) ∧
    ∃ ids h', perform (addResources limits .ordering) h = (.ok ids, h') := by
  have hnumbered := hrun.numbered.edits hmodel
  refine ⟨fun interval budget cause h' => pinToColumns_of_error hnumbered,
    fun horizon cause h' => addTimeIndexed_of_error hnumbered, ?_⟩
  refine exists_addOrdering (fun n hn => ?_) (hrun.hasFiniteLatencies h.view hview) limits
  exact Model.Knows.of_isPrefix hmodel.keeps (hrun.hasStarts h.view hview n hn)

end Engine

/-- One unit for multiplications. -/
def Limits.oneMultiplier : Limits := ⟨⟨[("mul", 1)], List.pairwise_singleton _ _⟩⟩

namespace Engine

/-- The trailing multiplication, with the multiplier brought within its limit by cycle. -/
noncomputable def multipliedTrailing : Handle Rat :=
  (perform (addResources .oneMultiplier (.timeIndexed (some 2)))
    (solvedTrailing.handle View.trailing)).2

/-- Two passes are used up by a pin and a push. -/
theorem solvedTrailing_refused :
    (perform (pinToColumns .oneEach 2 { iterations := 2 })
        (solvedTrailing.handle View.trailing)).1.toOption = none ∧
      (perform (pinToColumns .oneEach 2 { iterations := 2 })
        (solvedTrailing.handle View.trailing)).2.model.nextConstraint =
          (solvedTrailing.handle View.trailing).model.nextConstraint + 2 := by
  decide +kernel

/-- The additions come in with six variables and seven rows, before the multiplication turns
    out to have its variables already. -/
theorem multipliedTrailing_refused :
    (perform (addResources .oneMultiplier (.timeIndexed (some 2)))
        (solvedTrailing.handle View.trailing)).1.toOption = some [7, 8, 9, 10, 11] ∧
      (perform (addResources .oneEach (.timeIndexed (some 2)))
        multipliedTrailing).1.toOption = none ∧
      (perform (addResources .oneEach (.timeIndexed (some 2)))
        multipliedTrailing).2.model.vars.length = multipliedTrailing.model.vars.length + 6 ∧
      (perform (addResources .oneEach (.timeIndexed (some 2)))
        multipliedTrailing).2.model.nextConstraint =
          multipliedTrailing.model.nextConstraint + 7 := by
  decide +kernel

/-- Pinning is given up after a pin and a push, and the formulation by cycle halfway, on a handle
    that has part of it already. -/
theorem refused_pass_restores_trailing :
    ∃ (h h₁ h₂ h₃ : Handle Rat) (cause cause' : SchedulingError Rat) (ids : List Nat),
      Reaches Model.Edits (fresh (.pipelined (.fixed 2)) backedSolver true) solvedTrailing ∧
      solvedTrailing.view = some h.view ∧ solvedTrailing.model.Edits h.model ∧
      (perform (pinToColumns .oneEach 2 { iterations := 2 }) h = (.error cause, h₁) ∧
        h₁.model.nextConstraint = h.model.nextConstraint + 2 ∧
        h₁.model.vars = h.model.vars ∧ h₁.model.constraints = h.model.constraints ∧
        h₁.model.objective = h.model.objective ∧ h₁.solution = h.solution) ∧
      perform (addResources .oneMultiplier (.timeIndexed (some 2))) h = (.ok ids, h₂) ∧
      solvedTrailing.view = some h₂.view ∧ solvedTrailing.model.Edits h₂.model ∧
      (perform (addResources .oneEach (.timeIndexed (some 2))) h₂ = (.error cause', h₃) ∧
        h₃.model.nextConstraint = h₂.model.nextConstraint + 7 ∧
        h₃.model.vars.length = h₂.model.vars.length + 6 ∧
        h₃.model.constraints = h₂.model.constraints ∧
        h₃.model.objective = h₂.model.objective ∧ h₃.solution = h₂.solution ∧
        ∃ binaries, h₃.model.vars = h₂.model.vars ++ binaries ∧
          (∀ w ∈ binaries, w.kind = .binary) ∧
          ∀ c ∈ h₃.model.constraints, ∀ t ∈ c.2.terms, t.1 < h₂.model.vars.length) ∧
      ∃ ids' h₄, perform (addResources .oneEach .ordering) h₂ = (.ok ids', h₄) := by
  rcases exists_solvedTrailing with ⟨e₁, e₂, _, _, hload, hbuild, hsolve, _⟩
  have hreach := reaches_solved Model.Edits hload hbuild hsolve
  rcases solvedTrailing_refused with ⟨hpinning, hpinned⟩
  rcases multipliedTrailing_refused with ⟨hfirst, hcycles, hvars, hnext⟩
  have hadd : perform (addResources .oneMultiplier (.timeIndexed (some 2)))
      (solvedTrailing.handle View.trailing) = (.ok [7, 8, 9, 10, 11], multipliedTrailing) :=
    Prod.ext (eq_ok_of_toOption hfirst) rfl
  have hview : solvedTrailing.view = some (solvedTrailing.handle View.trailing).view :=
    solvedTrailing_view
  have hmodel : solvedTrailing.model.Edits (solvedTrailing.handle View.trailing).model :=
    Model.Edits.refl _
  -- From here on, it does not matter which handles these are.
  generalize solvedTrailing.handle View.trailing = h at hpinning hpinned hadd hview hmodel
  generalize multipliedTrailing = h₂ at hadd hcycles hvars hnext
  rcases hpin : perform (pinToColumns .oneEach 2 { iterations := 2 }) h with ⟨answer, h₁⟩
  rw [hpin] at hpinning hpinned
  rcases exists_error_of_toOption hpinning with ⟨cause, rfl⟩
  rcases perform_addTimeIndexed_ok hadd with ⟨_, _, hrest, _⟩
  have hview' : solvedTrailing.view = some h₂.view := by
    rw [hview, hrest]
  have hmodel' := hmodel.trans _ _ _ (addTimeIndexed_edits hadd)
  rcases hagain : perform (addResources .oneEach (.timeIndexed (some 2))) h₂
    with ⟨answer, h₃⟩
  rw [hagain] at hcycles hvars hnext
  rcases exists_error_of_toOption hcycles with ⟨cause', rfl⟩
  have hrestores := refused_pass_restores hreach hview hmodel .oneEach
  have hrestores' := refused_pass_restores hreach hview' hmodel' .oneEach
  exact ⟨h, h₁, h₂, h₃, cause, cause', _, hreach, hview, hmodel,
    ⟨hpin, hpinned, hrestores.1 _ _ _ _ hpin⟩, hadd, hview', hmodel',
    ⟨hagain, hnext, hvars, hrestores'.2.1 _ _ _ hagain⟩, hrestores'.2.2⟩

end Engine

end CyclePlan
