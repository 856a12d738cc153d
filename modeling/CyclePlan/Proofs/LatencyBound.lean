import CyclePlan.Proofs.PinningProgress

/-!
# The Latency Bound of Pinning

How late operations can end up.

No operation is pushed past the bound of the budget: it is compared to the cycle that the
first waiting operation is pushed to. What the solver then moves out of the way is not
compared to anything, so whatever needs the result of a pushed operation may start past the
bound. It may even be pinned there in its turn, if there is room, since pins are not compared
either (`exists_pinned_late`).

With an exact solver, what is moved is known to the cycle. The pushes raise the start cycles
as little as the arcs allow, so a node is where it was at first, or where a walk from the last
push of some operation puts it (`pushes_within_bound`). A node past the bound was put there by a
walk from another operation, and it is too late by no more than the length of that walk.

## Theorems

* `Engine.pushes_within_bound`: Where pushes put the nodes.
* `Engine.exists_pinned_late`: A multiplication that is pinned past the bound.
-/

namespace CyclePlan

namespace Engine

open Arc View

variable {solver : Solver Rat} {g : Graph Rat} {e₁ e₂ e₃ e₄ e₅ : Engine Rat}
  {interval columns : Int} {sameBlockOnly : Bool} {h h' : Handle Rat} {limits : Limits}
  {budget : PinningBudget} {report : PinningReport}

/-- With a fixed interval and an exact solver, pinning that succeeds has pushed operations of
    limited classes only, and none of them past the bound. A node ends up where it was, or
    where a walk from a pushed operation puts it, whichever is latest. So what is past the
    bound, and was not there at first, was put there by a walk of positive length from another
    operation. -/
theorem pushes_within_bound (hexact : solver.Exact)
    (hload : perform (load g) (fresh (.pipelined (.fixed interval)) solver sameBlockOnly)
      = (.ok ⟨⟩, e₁))
    (hbuild : perform build e₁ = (.ok ⟨⟩, e₂)) (hreach : Reaches Eq e₂ e₃)
    (hsolve : perform solve e₃ = (.ok .optimal, e₄)) (hlend : perform (lend get) e₄ = (.ok h, e₅))
    (hrun : perform (pinToColumns limits columns budget) h = (.ok report, h')) :
    ∃ c c' pushed, h.Shows h.view c ∧ h'.Shows h.view c' ∧ pushed.length = report.pushes ∧
      (∀ q ∈ pushed, q.1 ∈ h.view.limited limits ∧ c q.1 < q.2 ∧ q.2 ≤ budget.maxLatency) ∧
      (∀ n ∈ h.view.nodes, IsGreatest
        {k | IsForced (h.view.arcs sameBlockOnly) (lag interval) c pushed n k} (c' n)) ∧
      ∀ n ∈ h.view.nodes, max budget.maxLatency (c n) < c' n → ∃ q ∈ pushed, ∃ w,
        q.1 ≠ n ∧ IsWalk (h.view.arcs sameBlockOnly) q.1 w n ∧ 0 < total (lag interval) w ∧
          c' n = q.2 + total (lag interval) w := by
  rcases exists_isEarliest_of_lend hexact hload hbuild hreach hsolve hlend with
    ⟨hview, hnames, c, hearliest⟩
  rcases exists_passes_of_ok hrun with ⟨s, hpasses, rfl, hpushes⟩
  rcases (Standing.IsEarliest.start hview hearliest).passes hnames hpasses with
    ⟨_, c', pushed, hs, _, hraises⟩
  have hgreatest : ∀ n ∈ h.view.nodes, IsGreatest
      {k | IsForced (h.view.arcs sameBlockOnly) (lag interval) c pushed n k} (c' n) :=
    fun n hn => hraises.raised.isGreatest hearliest.meets hn
  have hcount : pushed.length = report.pushes := by
    rw [← hpushes, hraises.count]
    exact (Nat.zero_add _).symm
  refine ⟨c, c', pushed, hearliest.shows, hs.handle.shows, hcount,
    fun q hq => ⟨hraises.limited q hq, hraises.within q hq⟩, hgreatest, fun n hn hlate => ?_⟩
  rcases (hgreatest n hn).1 with hold | ⟨q, hq, w, hw, hvalue⟩
  · omega
  · have hwithin := (hraises.within q hq).2
    have hpos : 0 < total (lag interval) w := by omega
    refine ⟨q, hq, w, ?_, hw, hpos, hvalue.symm⟩
    -- A walk back to its own start gains nothing.
    rintro rfl
    exact absurd (hearliest.meets.noGain _ _ hw) (not_le.mpr hpos)

/-- The multiplication is where the walk from the second addition puts it. -/
theorem pushes_within_bound_trailing :
    backedSolver.Exact ∧ ∃ e₁ e₂ e₄ h',
      perform (load Graph.trailing) (fresh (.pipelined (.fixed 2)) backedSolver true)
        = (.ok ⟨⟩, e₁) ∧
      perform build e₁ = (.ok ⟨⟩, e₂) ∧ Reaches Eq e₂ e₂ ∧
      perform solve e₂ = (.ok .optimal, solvedTrailing) ∧
      perform (lend get) solvedTrailing = (.ok (solvedTrailing.handle View.trailing), e₄) ∧
      perform (pinToColumns .oneEach 2 { maxLatency := 1 }) (solvedTrailing.handle View.trailing)
        = (.ok ⟨4, 3, 1, [7, 8, 9, 10]⟩, h') ∧
      ∃ c c' pushed, (solvedTrailing.handle View.trailing).Shows View.trailing c ∧
        h'.Shows View.trailing c' ∧ pushed.length = 1 ∧
        (∀ q ∈ pushed, q.1 ∈ View.trailing.limited .oneEach ∧ c q.1 < q.2 ∧ q.2 ≤ 1) ∧
        (∀ n ∈ View.trailing.nodes, IsGreatest
          {k | Arc.IsForced (View.trailing.arcs true) (View.lag 2) c pushed n k} (c' n)) ∧
        ∀ n ∈ View.trailing.nodes, max 1 (c n) < c' n → ∃ q ∈ pushed, ∃ w,
          q.1 ≠ n ∧ Arc.IsWalk (View.trailing.arcs true) q.1 w n ∧
            0 < Arc.total (View.lag 2) w ∧ c' n = q.2 + Arc.total (View.lag 2) w := by
  rcases exists_solvedTrailing with
    ⟨e₁, e₂, e₄, h', hload, hbuild, hsolve, hlend, hrun, _⟩
  exact ⟨backedSolver_exact, e₁, e₂, e₄, h', hload, hbuild, .start, hsolve, hlend, hrun,
    pushes_within_bound backedSolver_exact hload hbuild .start hsolve hlend hrun⟩

/-- An operation of a limited class is pinned past the bound, where it was not at first. -/
theorem exists_pinned_late :
    backedSolver.Exact ∧ ∃ e₁ e₂ e₃ e₄ h h' report,
      perform (load Graph.trailing) (fresh (.pipelined (.fixed 2)) backedSolver true)
        = (.ok ⟨⟩, e₁) ∧
      perform build e₁ = (.ok ⟨⟩, e₂) ∧ perform solve e₂ = (.ok .optimal, e₃) ∧
      perform (lend get) e₃ = (.ok h, e₄) ∧
      perform (pinToColumns .oneEach 2 { maxLatency := 1 }) h = (.ok report, h') ∧
      ∃ n ∈ h.view.nodes, ∃ cycle cycle', h.cycle? n.name = some cycle ∧
        h'.cycle? n.name = some cycle' ∧ max 1 cycle < cycle' := by
  rcases exists_solvedTrailing with
    ⟨e₁, e₂, e₄, h', hload, hbuild, hsolve, hlend, hrun, hbefore, hafter⟩
  have hmem : (⟨2, "m", .mul, 0, 3⟩ : View.Node Rat) ∈ View.trailing.nodes :=
    .tail _ (.tail _ (.head _))
  exact ⟨backedSolver_exact, e₁, e₂, _, e₄, _, h', _, hload, hbuild, hsolve, hlend, hrun, _, hmem,
    1, 2, hbefore, hafter, by decide⟩

end Engine

end CyclePlan
