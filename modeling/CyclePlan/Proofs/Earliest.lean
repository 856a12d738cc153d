import CyclePlan.Proofs.Engine.Potentials
import CyclePlan.Proofs.Engine.Solved
import CyclePlan.Proofs.Lp.Oracle

/-!
# As Soon as Possible

What the first discipline is named after.

The model only says that consumers stay behind their producers, and the goal is
only the sum of the start cycles. That the result is earliest node by node, and
not just on the whole, is what is shown here: the greatest weights of walks are a
solution, they are below every solution, and an optimum cannot do without any of
them. Latencies need not be whole. A start cycle has to be, so every producer
holds its consumers back by its latency rounded up.

The greatest weight of a walk that ends at a node is reached over its last arc,
which gives the recurrence by which one would compute the schedule by hand.

## Main definitions

* `Schedule.IsEarliest`: No node can start any earlier.

## Theorems

* `asap_schedule_earliest`: An exact solver finds the earliest schedule of every
  graph that is taken.
-/

namespace CyclePlan

/-- A schedule of a view starts its nodes in given cycles, and none of them can
    start any earlier. -/
structure Schedule.IsEarliest (s : Schedule Rat) (v : View Rat) (sameBlockOnly : Bool)
    (c : View.Node Rat → Int) : Prop where
  cycle_iff : ∀ name (k : Int), s.cycle? name = some k ↔ ∃ n ∈ v.nodes, n.name = name ∧ c n = k
  /-- A node that waits for nothing starts at once. -/
  free : ∀ n ∈ v.nodes, (∀ p ∈ v.emitted sameBlockOnly, p.2 ≠ n) → c n = 0
  /-- Any other node starts when the last of its producers is done. -/
  behind : ∀ n ∈ v.nodes, ∀ p ∈ v.emitted sameBlockOnly, p.2 = n →
    IsGreatest {k | ∃ q ∈ v.emitted sameBlockOnly, q.2 = n ∧ c q.1 + ⌈q.1.latency⌉ = k} (c n)
  /-- Start cycles are the lengths of longest paths. -/
  longest : ∀ n ∈ v.nodes, Arc.IsLongest (v.forwardArcs sameBlockOnly) View.cycles n (c n)
  /-- Whole numbers that satisfy the dependencies are nowhere smaller. -/
  least : ∀ y, Discipline.StartsHold v sameBlockOnly y → ∀ n ∈ v.nodes,
    (c n : Rat) ≤ y (startVar n.name)

namespace View

open Arc

variable {v : View Rat} {sameBlockOnly : Bool} {d : Node Rat → Int} {n : Node Rat}

theorem mem_forwardArcs_iff {a : Arc (Node Rat)} :
    a ∈ v.forwardArcs sameBlockOnly ↔ ∃ p ∈ v.emitted sameBlockOnly, arcOf false p = a :=
  List.mem_map

/-- Greatest weights over forward arcs, read off the emitted pairs. -/
theorem isGreatest_emitted {p : Node Rat × Node Rat}
    (hd : ∀ n, IsLongest (v.forwardArcs sameBlockOnly) cycles n (d n))
    (hlatency : ∀ n ∈ v.nodes, 0 ≤ n.latency) (hp : p ∈ v.emitted sameBlockOnly)
    (htarget : p.2 = n) :
    IsGreatest {k | ∃ q ∈ v.emitted sameBlockOnly, q.2 = n ∧ d q.1 + ⌈q.1.latency⌉ = k} (d n) := by
  have harc : arcOf false p ∈ v.forwardArcs sameBlockOnly := mem_forwardArcs_iff.mpr ⟨p, hp, rfl⟩
  have hweight : 0 ≤ cycles (arcOf false p) :=
    Int.ceil_nonneg (hlatency _ (arcs_mem_nodes (forwardArcs_subset harc)).1)
  have hgreatest := IsLongest.isGreatest_arcs hd harc htarget hweight
  constructor
  · rcases hgreatest.1 with ⟨a, ha, hend, hvalue⟩
    rcases mem_forwardArcs_iff.mp ha with ⟨q, hq, rfl⟩
    exact ⟨q, hq, hend, hvalue⟩
  · rintro k ⟨q, hq, hend, rfl⟩
    exact hgreatest.2 ⟨arcOf false q, mem_forwardArcs_iff.mpr ⟨q, hq, rfl⟩, hend, rfl⟩

end View

namespace Engine

open Arc View

variable {solver : Solver Rat} {sameBlockOnly : Bool} {g : Graph Rat} {v : View Rat}
  {e₁ : Engine Rat}

/-- With an exact solver, solving as soon as possible always ends in an optimum,
    and the optimum is the earliest schedule. -/
theorem asap_schedule_earliest (hexact : solver.Exact)
    (hload : perform (load g) (fresh .asap solver sameBlockOnly) = (.ok ⟨⟩, e₁)) :
    ∃ v e₂ e₃ s c, View.ofGraph g = .ok v ∧ perform build e₁ = (.ok ⟨⟩, e₂) ∧
      (∀ x, (e₂.model.IsPoint x ∧ e₂.model.IsIntegral x) ↔
        Discipline.StartsHold v sameBlockOnly (e₂.model.valueOf x)) ∧
      perform solve e₂ = (.ok .optimal, e₃) ∧ e₃.schedule = .ok s ∧ s.outcome = .optimal ∧
      s.IsEarliest v sameBlockOnly c := by
  have hfit := Graph.fit_of_defects (load_ok_iff.mp hload).1
  rcases exists_build_asap hload with ⟨e₂, hbuild⟩
  rcases build_renders hload hbuild with ⟨v, m, hview, hm, rfl⟩
  have hnames := hfit.node_names_nodup hview
  -- The longest paths are the least solution, so there is an optimum.
  rcases exists_longest_forward sameBlockOnly hfit hview with ⟨d, hd⟩
  rcases exists_times hnames d 0 with ⟨y, hy, _⟩
  have hleast := Discipline.asap_isLeast hd hy
  have hbest := hleast.isBest Discipline.asap_sumsStarts
  rcases exists_solve_optimal hexact hm hbest with ⟨e₃, x, hsolve, hcarries, hoptimum⟩
  rcases solved_realizes hnames hm .start hsolve rfl hcarries hoptimum.integral with
    ⟨s, hschedule, hout, _, hreal⟩
  rw [lag_zero] at hd
  -- Whatever optimum was found, it starts the nodes as the longest paths do.
  have hsame := hleast.eq_of_isBest Discipline.asap_sumsStarts ((hm.isOptimum_iff x).mp hoptimum)
  have htimes : v.Times d (m.valueOf x) := fun n hn => (hsame n hn).trans (hy n hn)
  refine ⟨v, _, e₃, s, d, hview, hbuild, fun x => ?_, hsolve, hschedule, hout, ?_, ?_, ?_, ?_, ?_⟩
  · exact (hm.isSolution_iff x).trans Discipline.asap_isSolution_iff
  · intro name k
    rw [hreal.cycle_iff]
    constructor
    · rintro ⟨⟨n, hn, rfl⟩, hk⟩
      rw [htimes n hn] at hk
      exact ⟨n, hn, rfl, Int.cast_injective hk⟩
    · rintro ⟨n, hn, rfl, rfl⟩
      exact ⟨⟨n, hn, rfl⟩, htimes n hn⟩
  · intro n _ hnone
    refine (hd n).eq_zero fun a ha => ?_
    rcases mem_forwardArcs_iff.mp ha with ⟨p, hp, rfl⟩
    exact hnone p hp
  · intro n _ p hp htarget
    exact isGreatest_emitted hd (hfit.node_latency hview) hp htarget
  · exact fun n _ => hd n
  · intro z hz n hn
    have hbelow := hleast.below z (Discipline.asap_isSolution_iff.mpr hz) n hn
    rwa [hy n hn] at hbelow

/-- The smallest loop is scheduled as soon as possible. -/
theorem asap_schedule_earliest_selfLoop :
    oracle.Exact ∧ ∃ e₁,
      perform (load Graph.selfLoop) (fresh .asap oracle false) = (.ok ⟨⟩, e₁) ∧
      ∃ v e₂ e₃ s c, View.ofGraph Graph.selfLoop = .ok v ∧ perform build e₁ = (.ok ⟨⟩, e₂) ∧
        (∀ x, (e₂.model.IsPoint x ∧ e₂.model.IsIntegral x) ↔
          Discipline.StartsHold v false (e₂.model.valueOf x)) ∧
        perform solve e₂ = (.ok .optimal, e₃) ∧ e₃.schedule = .ok s ∧ s.outcome = .optimal ∧
        s.IsEarliest v false c := by
  rcases exists_load .asap oracle false Graph.selfLoop_defects with ⟨e₁, hload⟩
  exact ⟨oracle_exact, e₁, hload, asap_schedule_earliest oracle_exact hload⟩

end Engine

end CyclePlan
