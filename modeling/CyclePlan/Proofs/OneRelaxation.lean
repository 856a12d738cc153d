import CyclePlan.Proofs.FractionalLatencies
import CyclePlan.Proofs.Lp.RootAnswer
import CyclePlan.Proofs.OrderedProblem

/-!
# One Relaxation Is Enough

Timing models that are solved without a search.

With whole latencies, what a discipline asks of the start cycles is that differences are
at least a whole number. That includes back-edges once the interval is given, and it
includes the rows that ordering adds. Such rows hold for rounded values as well
(`Discipline.keepsRounded`). As soon as possible all start cycles are to be small, as late
as possible all are to be large, and with a given interval they are to be small again, the
interval being what it is (`Discipline.pullsOneWay`). So the first relaxation answers whole
start cycles, and no limit on the number of relaxations can get in the way.

The other two disciplines are left out: without pipelining only the latency variable is made
small, and the intervals per block may be fractions.

## Main definitions

* `Row.KeepsRounded`: A row that holds for rounded values if it holds.

## Theorems

* `Discipline.keepsRounded`, `Discipline.pullsOneWay`: The programs of the disciplines.
* `Engine.solves_with_one_relaxation`: One relaxation is enough.
-/

namespace CyclePlan

/-- A row that holds for rounded values if it holds. -/
def Row.KeepsRounded (r : Row) : Prop :=
  ∀ {ρ : Rat → Int} {y : String → Rat}, IsRounding ρ → r.Holds y →
    r.Holds fun name => (ρ (y name) : Rat)

/-- A dependency on a node with a whole latency asks for a whole distance. -/
theorem Row.dependency_keepsRounded {p : View.Node Rat × View.Node Rat}
    (hwhole : ∃ k : Int, p.1.latency = k) : (Row.dependency p).KeepsRounded := by
  intro ρ y hρ h
  rw [Row.dependency_holds_iff] at h ⊢
  obtain ⟨k, hk⟩ := hwhole
  rw [hk] at h ⊢
  exact hρ.add_le h

namespace Discipline

variable {t : Discipline} {v : View Rat} {sameBlockOnly : Bool} {bounds : NameMap Int}
  {interval : Int}

/-- The disciplines with one sort of unknowns keep rounded points, and dependencies may be
    added. -/
theorem keepsRounded
    (ht : t = .asap ∨ (∃ bounds, t = .alap bounds) ∨ ∃ interval, t = .pipelined (.fixed interval))
    (hwhole : ∀ n ∈ v.nodes, ∃ k : Int, n.latency = k)
    {pairs : List (View.Node Rat × View.Node Rat)} (hpairs : ∀ p ∈ pairs, p.1 ∈ v.nodes) :
    ((t.program v sameBlockOnly).withRows (pairs.map Row.dependency)).KeepsRounded := by
  have hbounds : ∀ w ∈ (t.program v sameBlockOnly).vars, Bounds.IsWhole ⟨w.lower, w.upper⟩ :=
    isWhole_bounds
  refine ⟨hbounds, fun {ρ y} hρ hall r hr => ?_⟩
  have hold := hall r hr
  rcases List.mem_append.mp hr with hr | hr
  · rcases List.mem_append.mp hr with hr | hr
    · rcases List.mem_map.mp hr with ⟨p, hp, rfl⟩
      have hproducer := (View.mem_nodes_of_forwardPairs (List.mem_of_mem_filter hp)).1
      exact Row.dependency_keepsRounded (hwhole _ hproducer) hρ hold
    · rcases ht with rfl | ⟨bounds, rfl⟩ | ⟨interval, rfl⟩
      · cases hr
      · -- The last node of a block stays below the cycle given for it.
        rcases List.mem_map.mp hr with ⟨sink, _, rfl⟩
        simp only [Row.Holds, Row.sinkBound, Relation.Holds, Row.sum, List.map_cons, List.map_nil,
          List.sum_cons, List.sum_nil, one_mul, add_zero] at hold ⊢
        exact hρ.le_of_le hold
      · have hpin : y intervalVar = interval := by
          refine Row.pin_holds_iff.mp (hall _ (List.mem_append_left _ (List.mem_append_right _ ?_)))
          exact List.mem_append_left _ List.mem_cons_self
        rcases List.mem_append.mp hr with hr | hr
        · cases List.mem_singleton.mp hr
          rw [Row.pin_holds_iff, hpin, hρ.intCast]
        · -- The interval is given, so the distance that it leaves is whole.
          rcases List.mem_map.mp hr with ⟨p, hp, rfl⟩
          obtain ⟨k, hk⟩ := hwhole _ (View.mem_nodes_of_backPairs hp).1
          rw [Row.backEdge_holds_iff, intervalVarOf, hpin, hk] at hold
          rw [Row.backEdge_holds_iff, intervalVarOf, hpin, hρ.intCast, hk]
          have hdistance : y (startVar p.1.name) + ((k - interval : Int) : Rat) ≤
              y (startVar p.2.name) := by
            push_cast
            linarith
          have hkept := hρ.add_le hdistance
          push_cast at hkept
          linarith
  · rcases List.mem_map.mp hr with ⟨p, hp, rfl⟩
    exact Row.dependency_keepsRounded (hwhole _ (hpairs p hp)) hρ hold

/-- They make all unknowns small, or all of them large. -/
theorem pullsOneWay
    (ht : t = .asap ∨ (∃ bounds, t = .alap bounds) ∨ ∃ interval, t = .pipelined (.fixed interval))
    (rows : List Row) : ((t.program v sameBlockOnly).withRows rows).PullsOneWay := by
  have hstarts : ∀ c : Rat, ∀ s ∈ startTerms v c, s.2 = c := by
    intro c s hs
    rcases List.mem_map.mp hs with ⟨n, _, rfl⟩
    rfl
  have hcovers : ∀ c : Rat, ∀ w ∈ v.nodes.map startVariable,
      ∃ s ∈ startTerms v c, s.1 = w.name := by
    intro c w hw
    rcases List.mem_map.mp hw with ⟨n, hn, rfl⟩
    exact ⟨_, List.mem_map_of_mem hn, rfl⟩
  rcases ht with rfl | ⟨bounds, rfl⟩ | ⟨interval, rfl⟩
  · refine ⟨fun w hw => ?_, .inl fun s hs => ?_⟩
    · exact hcovers 1 w ((List.mem_append.mp hw).resolve_right List.not_mem_nil)
    · rw [hstarts 1 s hs]
      exact one_pos
  · refine ⟨fun w hw => ?_, .inr fun s hs => ?_⟩
    · exact hcovers (-1) w ((List.mem_append.mp hw).resolve_right List.not_mem_nil)
    · rw [hstarts (-1) s hs]
      exact neg_one_lt_zero
  · refine ⟨fun w hw => ?_, .inl fun s hs => ?_⟩
    · rcases List.mem_append.mp hw with hw | hw
      · rcases hcovers 1 w hw with ⟨s, hs, hname⟩
        exact ⟨s, List.mem_append_left _ hs, hname⟩
      · cases List.mem_singleton.mp hw
        exact ⟨_, List.mem_append_right _ (List.mem_singleton_self _), rfl⟩
    · rcases List.mem_append.mp hs with hs | hs
      · rw [hstarts 1 s hs]
        exact one_pos
      · rw [List.mem_singleton.mp hs]
        exact one_pos

end Discipline

namespace Engine

variable {t : Discipline} {solver : Solver Rat} {sameBlockOnly : Bool} {g : Graph Rat}
  {v : View Rat} {e e₁ e₂ : Engine Rat} {ls : List Limits} {tolerance : Rat} {maxNodes : Nat}

open BranchAndBound

/-- With whole latencies, as soon as possible, as late as possible or with a given interval,
    ordered by any limits or by none, a model is solved with one relaxation if the answer to
    that is right. The number of relaxations never runs out, and if there is an optimum, one is
    found. -/
theorem solves_with_one_relaxation (relax : Relaxer Rat)
    (ht : t = .asap ∨ (∃ bounds, t = .alap bounds) ∨ ∃ interval, t = .pipelined (.fixed interval))
    (hview : View.ofGraph g = .ok v) (hwhole : ∀ n ∈ v.nodes, ∃ k : Int, n.latency = k)
    (hload : perform (load g) (fresh t solver sameBlockOnly) = (.ok ⟨⟩, e₁))
    (hbuild : perform build e₁ = (.ok ⟨⟩, e₂)) (hordered : OrderedBy e₂ ls e)
    (hnonneg : 0 ≤ tolerance) (hone : tolerance < 1) (hlimit : 1 ≤ maxNodes)
    (hexact : (relax e.model (rootBox tolerance e.model)).IsExact e.model
      (rootBox tolerance e.model)) :
    (BranchAndBound.solve relax ⟨maxNodes, tolerance⟩ e.model).nodes = 1 ∧
      ¬ (BranchAndBound.solve relax ⟨maxNodes, tolerance⟩ e.model).status.IsCut maxNodes ∧
      (relax e.model (rootBox tolerance e.model) ≠ .stalled → (∃ x, e.model.IsOptimum x) →
        (BranchAndBound.solve relax ⟨maxNodes, tolerance⟩ e.model).status = .optimal ∧
          ∃ x, (BranchAndBound.solve relax ⟨maxNodes, tolerance⟩ e.model).Carries e.model x ∧
            e.model.IsOptimum x) := by
  rcases build_renders hload hbuild with ⟨w, m, hw, hm, rfl⟩
  cases hview.symm.trans hw
  have hrenders := hordered.renders hm
  -- The rows of all ordering calls are dependencies between operations that wait.
  have hrows : ls.flatMap (waitingRows v) = (ls.flatMap (waitingPairs v)).map Row.dependency := by
    rw [List.map_flatMap]
    rfl
  have hpairs : ∀ p ∈ ls.flatMap (waitingPairs v), p.1 ∈ v.nodes := by
    intro p hp
    rcases List.mem_flatMap.mp hp with ⟨limits, _, hp⟩
    exact (mem_nodes_of_waitingPairs hp).1
  rw [hrows] at hrenders
  exact solve_of_keepsRounded hrenders (Discipline.keepsRounded ht hwhole hpairs)
    (Discipline.pullsOneWay ht _) hnonneg hone hlimit hexact

/-- Two additions, one after the other, solved and then ordered for one adder. -/
def orderedChain : Engine Rat :=
  (Request.lend (orderAll [Limits.oneAdder])).after (solvedFrom "chain_asap" (View.chain 2))

theorem exists_orderedChain (hdefects : (Graph.chain 2).defects = []) :
    ∃ e₁ e₂, perform (load (Graph.chain 2)) (fresh .asap (builtInSolver .standard) false)
        = (.ok ⟨⟩, e₁) ∧
      perform build e₁ = (.ok ⟨⟩, e₂) ∧ OrderedBy e₂ [Limits.oneAdder] orderedChain := by
  rcases exists_solvedFrom hdefects (View.ofGraph_chain 2) with
    ⟨e₁, e₂, outcome, hload, hbuild, hsolve, _⟩
  have hordered := ((OrderedBy.start (e := e₂)).solved).ordered [Limits.oneAdder]
  have hsolved : Request.solve.after e₂ =
      solvedFrom ((Graph.chain 2).name ++ "_" ++ Discipline.asap.name) (View.chain 2) := by
    rw [Request.after, hsolve]
  rw [hsolved] at hordered
  exact ⟨e₁, e₂, hload, hbuild, hordered⟩

/-- The first relaxation of the chain finds the optimum, with the least limit and a large
    tolerance. -/
theorem solves_with_one_relaxation_chain :
    ∃ e₁ e₂, View.ofGraph (Graph.chain 2) = .ok (View.chain 2) ∧
      (∀ n ∈ (View.chain 2).nodes, ∃ k : Int, n.latency = k) ∧
      perform (load (Graph.chain 2)) (fresh .asap (builtInSolver .standard) false)
        = (.ok ⟨⟩, e₁) ∧
      perform build e₁ = (.ok ⟨⟩, e₂) ∧ OrderedBy e₂ [Limits.oneAdder] orderedChain ∧
      orderedChain.model.relax .exact 20 (rootBox (1 / 4) orderedChain.model) ≠ .stalled ∧
      (∃ x, orderedChain.model.IsOptimum x) ∧
      (BranchAndBound.solve (Model.relax .exact 20) ⟨1, 1 / 4⟩ orderedChain.model).nodes = 1 ∧
      (BranchAndBound.solve (Model.relax .exact 20) ⟨1, 1 / 4⟩ orderedChain.model).status
        = .optimal := by
  have hdefects : (Graph.chain 2).defects = [] := by decide +kernel
  have hfit := Graph.fit_of_defects hdefects
  have hview := View.ofGraph_chain 2
  have hwhole : ∀ n ∈ (View.chain 2).nodes, ∃ k : Int, n.latency = k := by
    simp only [View.chain, List.forall_mem_cons]
    exact ⟨⟨2, by norm_num⟩, ⟨1, by norm_num⟩, ⟨0, by norm_num⟩, ⟨0, by norm_num⟩,
      fun _ h => absurd h List.not_mem_nil⟩
  rcases exists_orderedChain hdefects with ⟨e₁, e₂, hload, hbuild, hordered⟩
  have hanswers : orderedChain.model.relax .exact 20 (rootBox (1 / 4) orderedChain.model)
      ≠ .stalled := by
    decide +kernel
  have hopt : ∃ x, orderedChain.model.IsOptimum x := by
    rcases build_renders hload hbuild with ⟨v, m, hv, hm, rfl⟩
    -- Limits that are made from entries leave every operation a unit.
    have hfree : v.FreeUnits [Limits.oneAdder] :=
      View.freeUnits_of_entries (List.forall_mem_singleton.mpr ⟨[("add", 1)], rfl⟩)
    have hsome := (hordered.renders hm).feasible_iff.mpr
      ((Discipline.ordered_solvable_iff (.inl rfl) hfit hv).mpr hfree)
    exact hordered.exists_isOptimum (.inl rfl) hm hsome
  have hanswer := solves_with_one_relaxation (Model.relax .exact 20) (.inl rfl) hview hwhole hload
    hbuild hordered (by norm_num) (by norm_num) (le_refl 1)
    (orderedChain.model.relax_isExact (rootBox (1 / 4) orderedChain.model) 20)
  exact ⟨e₁, e₂, hview, hwhole, hload, hbuild, hordered, hanswers, hopt, hanswer.1,
    (hanswer.2.2 hanswers hopt).1⟩

end Engine

end CyclePlan
