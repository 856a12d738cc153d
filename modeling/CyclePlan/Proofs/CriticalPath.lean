import Mathlib.Data.Finset.Max
import CyclePlan.Proofs.Engine.Ends

/-!
# The Critical Path

Without pipelining, the optimum is the longest path to a last node.

The discipline has one variable above all last nodes and makes it small. Most of the
start cycles are free in such an optimum, so it cannot be compared to another
schedule node by node. What is fixed is the value of the variable. It can be no
smaller than the longest path to any sink, because every solution is above the least
one. It need not be larger, because the least solution is a solution. And in an
optimum it is not above all sinks for nothing, since the last sink cannot lie below
its own longest path (`isBest_noPipeline_iff`).

As soon as possible starts every node at its longest path, so its latest sink is the
same number, although the schedules may have little else in common.

## Main definitions

* `View.IsLatest`: The sink with the longest of the longest paths.

## Theorems

* `View.exists_isLatest`, `View.sinks_ne_nil`: Graphs with blocks have one.
* `Discipline.isBest_noPipeline_iff`: The value of the latency variable.
* `Engine.exists_solves_noPipeline`: What an exact solver leads to.
* `Engine.noPipeline_critical_path`: Two disciplines end in the same cycle.
-/

namespace CyclePlan

open Arc View

namespace View

variable {v : View Rat} {d : Node Rat → Int} {g : Graph Rat}

/-- A sink whose longest path is the longest of all sinks. -/
structure IsLatest (v : View Rat) (d : Node Rat → Int) (last : Node Rat) : Prop where
  sink : last ∈ v.sinks
  above : ∀ n ∈ v.sinks, d n ≤ d last

open Classical in
theorem exists_isLatest (hsinks : v.sinks ≠ []) (d : Node Rat → Int) :
    ∃ last, v.IsLatest d last := by
  have hsome : v.sinks.toFinset.Nonempty := by
    rcases List.exists_mem_of_ne_nil _ hsinks with ⟨n, hn⟩
    exact ⟨n, List.mem_toFinset.mpr hn⟩
  rcases Finset.exists_max_image v.sinks.toFinset d hsome with ⟨last, hlast, habove⟩
  exact ⟨last, List.mem_toFinset.mp hlast, fun n hn => habove n (List.mem_toFinset.mpr hn)⟩

/-- Every block has a sink. -/
theorem exists_sink (hdefects : g.defects = []) (hview : ofGraph g = .ok v) {b : Block}
    (hb : b ∈ g.blocks) : ∃ n ∈ v.sinks, n.block = b.id := by
  have hone := Graph.countP_superNode hdefects hb .sink
  have hpos : 0 < g.ops.countP fun op => op.kind == SuperRole.sink.kind && op.block == b.id := by
    rw [hone]
    exact Nat.one_pos
  rcases List.countP_pos_iff.mp hpos with ⟨op, hop, htest⟩
  rw [Bool.and_eq_true, beq_iff_eq, beq_iff_eq] at htest
  rcases List.mem_iff_getElem?.mp hop with ⟨id, hid⟩
  have hkind : op.kind = .superSink := htest.1
  have hkept : op.kind.isStripped = false := by
    rw [hkind]
    rfl
  exact ⟨nodeOf id op, mem_sinks_iff.mpr ⟨nodeOf_mem_nodes hview hid hkept, hkind⟩, htest.2⟩

theorem sinks_ne_nil (hdefects : g.defects = []) (hview : ofGraph g = .ok v)
    (hblocks : g.blocks ≠ []) : v.sinks ≠ [] := by
  rcases List.exists_mem_of_ne_nil _ hblocks with ⟨b, hb⟩
  rcases exists_sink hdefects hview hb with ⟨n, hn, _⟩
  exact List.ne_nil_of_mem hn

end View

namespace Discipline

variable {v : View Rat} {sameBlockOnly : Bool} {d : Node Rat → Int} {last : Node Rat}
  {y z : String → Rat}

/-- No start cycles are below the longest paths. -/
theorem longest_le (hd : ∀ n, IsLongest (v.forwardArcs sameBlockOnly) (lag 0) n (d n))
    (hnames : (v.nodes.map (·.name)).Nodup) (hy : StartsHold v sameBlockOnly y) {n : Node Rat}
    (hn : n ∈ v.nodes) : (d n : Rat) ≤ y (startVar n.name) := by
  rcases exists_times hnames d 0 with ⟨x, hx, _⟩
  have hbelow := (asap_isLeast hd hx).below y (asap_isSolution_iff.mpr hy) n hn
  rwa [hx n hn] at hbelow

/-- The longest paths themselves are a solution, with the last of them as latency. -/
theorem exists_noPipeline_solution
    (hd : ∀ n, IsLongest (v.forwardArcs sameBlockOnly) (lag 0) n (d n))
    (hnames : (v.nodes.map (·.name)).Nodup) (hlast : v.IsLatest d last) :
    ∃ y, (program .noPipeline v sameBlockOnly).IsSolution y ∧ y maxLatencyVar = d last := by
  rcases exists_uniform_times hnames d (d last) with ⟨y, hy, hother⟩
  have hlatency : y maxLatencyVar = d last := hother _ startVar_ne_maxLatencyVar
  refine ⟨y, noPipeline_isSolution_iff.mpr
    ⟨asap_isSolution_iff.mp (asap_isLeast hd hy).solution, ⟨_, hlatency⟩, ?_, fun n hn => ?_⟩,
    hlatency⟩
  · rw [hlatency]
    exact_mod_cast (hd last).nonneg
  · rw [hlatency, hy n (mem_sinks_iff.mp hn).1]
    exact_mod_cast hlast.above n hn

theorem sum_noPipeline_goal (v : View Rat) (y : String → Rat) :
    Row.sum (goal v .noPipeline) y = y maxLatencyVar := by
  change 1 * y maxLatencyVar + 0 = _
  rw [one_mul, add_zero]

/-- A solution is best exactly if its latency is the longest path to a sink. -/
theorem isBest_noPipeline_iff (hd : ∀ n, IsLongest (v.forwardArcs sameBlockOnly) (lag 0) n (d n))
    (hnames : (v.nodes.map (·.name)).Nodup) (hlast : v.IsLatest d last) :
    (program .noPipeline v sameBlockOnly).IsBest z ↔
      (program .noPipeline v sameBlockOnly).IsSolution z ∧ z maxLatencyVar = d last := by
  have hlower : ∀ y, (program .noPipeline v sameBlockOnly).IsSolution y →
      (d last : Rat) ≤ y maxLatencyVar := by
    intro y hy
    rcases noPipeline_isSolution_iff.mp hy with ⟨hstarts, _, _, hcover⟩
    exact le_trans (longest_le hd hnames hstarts (mem_sinks_iff.mp hlast.sink).1)
      (hcover last hlast.sink)
  constructor
  · intro hz
    refine ⟨hz.solution, le_antisymm ?_ (hlower z hz.solution)⟩
    rcases exists_noPipeline_solution hd hnames hlast with ⟨y, hy, hlatency⟩
    have hle := hz.least y hy
    change Row.sum (goal v .noPipeline) z ≤ Row.sum (goal v .noPipeline) y at hle
    rwa [sum_noPipeline_goal, sum_noPipeline_goal, hlatency] at hle
  · rintro ⟨hz, hvalue⟩
    refine ⟨hz, fun y hy => ?_⟩
    change Row.sum (goal v .noPipeline) z ≤ Row.sum (goal v .noPipeline) y
    rw [sum_noPipeline_goal, sum_noPipeline_goal, hvalue]
    exact hlower y hy

/-- In an optimum, the last of the sinks is where the latency is. -/
theorem isGreatest_ends {ends : NameMap Int} (hends : v.EndsAt ends z) (hlast : v.IsLatest d last)
    (hbelow : ∀ n ∈ v.sinks, z (startVar n.name) ≤ d last)
    (habove : (d last : Rat) ≤ z (startVar last.name)) :
    IsGreatest {c | ∃ name, ends.get? name = some c} (d last) := by
  constructor
  · exact ⟨last.name, (hends _ _).mpr
      ⟨⟨last, hlast.sink, rfl⟩, le_antisymm (hbelow last hlast.sink) habove⟩⟩
  · rintro c ⟨name, hc⟩
    rcases (hends _ _).mp hc with ⟨⟨n, hn, rfl⟩, hvalue⟩
    have hle := hbelow n hn
    rw [hvalue] at hle
    exact_mod_cast hle

end Discipline

namespace Engine

variable {solver asapSolver : Solver Rat} {sameBlockOnly : Bool} {g : Graph Rat} {e : Engine Rat}

/-- With an exact solver, scheduling without pipelining ends where the longest path to the
    last sink does. -/
theorem exists_solves_noPipeline {v : View Rat} {d : Node Rat → Int} {last : Node Rat}
    (hexact : solver.Exact)
    (hload : perform (load g) (fresh .noPipeline solver sameBlockOnly) = (.ok ⟨⟩, e))
    (hview : View.ofGraph g = .ok v)
    (hd : ∀ n, IsLongest (v.forwardArcs sameBlockOnly) (lag 0) n (d n))
    (hlast : v.IsLatest d last) :
    ∃ s ends z, Solves .noPipeline solver sameBlockOnly g .optimal s ends ∧ s.Realizes v z ∧
      v.EndsAt ends z ∧ Discipline.StartsHold v sameBlockOnly z ∧
      (∀ n ∈ v.sinks, z (startVar n.name) ≤ d last) ∧
      (solver.ReportsObjective → s.objective = some (d last : Rat)) := by
  have hnames := (Graph.fit_of_defects (load_ok_iff.mp hload).1).node_names_nodup hview
  rcases exists_build_noPipeline hload with ⟨e₂, hbuild⟩
  rcases Discipline.exists_noPipeline_solution hd hnames hlast with ⟨y, hy⟩
  rcases exists_solves hexact hload hbuild hview
    ((Discipline.isBest_noPipeline_iff hd hnames hlast).mpr hy) with
    ⟨s, ends, z, hsolves, hbest, hreal, hends, hobjective⟩
  rcases (Discipline.isBest_noPipeline_iff hd hnames hlast).mp hbest with ⟨hz, hlatency⟩
  rcases Discipline.noPipeline_isSolution_iff.mp hz with ⟨hstarts, _, _, hcover⟩
  rw [hlatency] at hcover
  refine ⟨s, ends, z, hsolves, hreal, hends, hstarts, hcover, fun hreports => ?_⟩
  rw [hobjective hreports, Discipline.sum_noPipeline_goal, hlatency]

/-- With an exact solver, scheduling without pipelining always ends in an optimum. Its
    objective is the latest of its own ends, and the latest end of the schedule as soon
    as possible, and no start cycles that satisfy the dependencies end earlier. -/
theorem noPipeline_critical_path (hexact : solver.Exact) (hreports : solver.ReportsObjective)
    (hasap : asapSolver.Exact) (hblocks : g.blocks ≠ [])
    (hload : perform (load g) (fresh .noPipeline solver sameBlockOnly) = (.ok ⟨⟩, e)) :
    ∃ v s ends t asapEnds, ∃ latest : Int, View.ofGraph g = .ok v ∧
      Solves .noPipeline solver sameBlockOnly g .optimal s ends ∧
      s.objective = some (latest : Rat) ∧
      (∀ name c, ends.get? name = some c ↔
        (∃ n ∈ v.sinks, n.name = name) ∧ s.cycle? name = some c) ∧
      IsGreatest {c | ∃ name, ends.get? name = some c} latest ∧
      Solves .asap asapSolver sameBlockOnly g .optimal t asapEnds ∧
      IsGreatest {c | ∃ n ∈ v.sinks, t.cycle? n.name = some c} latest ∧
      ∀ y, Discipline.StartsHold v sameBlockOnly y →
        ∃ n ∈ v.sinks, (latest : Rat) ≤ y (startVar n.name) := by
  rcases load_ok_iff.mp hload with ⟨hdefects, v, _, hview, _, _⟩
  have hfit := Graph.fit_of_defects hdefects
  have hnames := hfit.node_names_nodup hview
  rcases exists_longest_forward sameBlockOnly hfit hview with ⟨d, hd⟩
  rcases exists_isLatest (sinks_ne_nil hdefects hview hblocks) d with ⟨last, hlast⟩
  have hlastNode := (mem_sinks_iff.mp hlast.sink).1
  -- Without pipelining, the latency is the longest path to the last sink.
  rcases exists_solves_noPipeline hexact hload hview hd hlast with
    ⟨s, ends, z, hsolves, hreal, hends, hstarts, hcover, hobjective⟩
  -- As soon as possible, every sink starts at its longest path.
  rcases exists_load .asap asapSolver sameBlockOnly hdefects with ⟨a₁, haload⟩
  rcases exists_solves_asap hasap haload hview hd with
    ⟨t, asapEnds, a, hasolves, hareal, _, _, htimes⟩
  refine ⟨v, s, ends, t, asapEnds, d last, hview, hsolves, ?_, fun name c => ?_,
    Discipline.isGreatest_ends hends hlast hcover
      (Discipline.longest_le hd hnames hstarts hlastNode),
    hasolves, ⟨⟨last, hlast.sink, ?_⟩, ?_⟩, fun y hy => ?_⟩
  · exact hobjective hreports
  · rw [hends, hreal.cycle_iff]
    constructor
    · rintro ⟨⟨n, hn, rfl⟩, hc⟩
      exact ⟨⟨n, hn, rfl⟩, ⟨n, (mem_sinks_iff.mp hn).1, rfl⟩, hc⟩
    · rintro ⟨hn, _, hc⟩
      exact ⟨hn, hc⟩
  · exact (hareal.cycle_iff _ _).mpr ⟨⟨last, hlastNode, rfl⟩, htimes last hlastNode⟩
  · rintro c ⟨n, hn, hc⟩
    have hvalue := ((hareal.cycle_iff _ _).mp hc).2
    rw [htimes n (mem_sinks_iff.mp hn).1] at hvalue
    rw [← Int.cast_injective hvalue]
    exact hlast.above n hn
  · exact ⟨last, hlast.sink, Discipline.longest_le hd hnames hy hlastNode⟩

/-- The loop that counts has its critical path. -/
theorem noPipeline_critical_path_countingLoop :
    reportingOracle.Exact ∧ reportingOracle.ReportsObjective ∧ oracle.Exact ∧
      Graph.countingLoop.blocks ≠ [] ∧ ∃ e,
      perform (load Graph.countingLoop) (fresh .noPipeline reportingOracle true) = (.ok ⟨⟩, e) ∧
      ∃ v s ends t asapEnds, ∃ latest : Int, View.ofGraph Graph.countingLoop = .ok v ∧
        Solves .noPipeline reportingOracle true Graph.countingLoop .optimal s ends ∧
        s.objective = some (latest : Rat) ∧
        (∀ name c, ends.get? name = some c ↔
          (∃ n ∈ v.sinks, n.name = name) ∧ s.cycle? name = some c) ∧
        IsGreatest {c | ∃ name, ends.get? name = some c} latest ∧
        Solves .asap oracle true Graph.countingLoop .optimal t asapEnds ∧
        IsGreatest {c | ∃ n ∈ v.sinks, t.cycle? n.name = some c} latest ∧
        ∀ y, Discipline.StartsHold v true y →
          ∃ n ∈ v.sinks, (latest : Rat) ≤ y (startVar n.name) := by
  rcases exists_load .noPipeline reportingOracle true Graph.countingLoop_defects with ⟨e, hload⟩
  have hblocks : Graph.countingLoop.blocks ≠ [] := by decide
  exact ⟨reportingOracle_exact, reportingOracle_reports, oracle_exact, hblocks, e, hload,
    noPipeline_critical_path reportingOracle_exact reportingOracle_reports oracle_exact hblocks
      hload⟩

end Engine

end CyclePlan
