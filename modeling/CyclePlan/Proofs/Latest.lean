import CyclePlan.Proofs.Graph.Enclosed

/-!
# As Late as Possible

What the discipline is named after, and how far it is from as soon as possible.

The goal is the sum of the start cycles, and it is to be large. There would be no
optimum if a node could be put off for ever. In a graph that was built by calls none
can, because each has a path to the last node of its block, and the last nodes are
bounded.

Bounded start cycles have greatest values, node by node, and these are taken from
different solutions. Together they are a solution again: a pair asks for its
consumer to be late enough, and where the producer is at its greatest the consumer
is already late enough in the very solution that the value was taken from
(`Discipline.exists_alap_isGreatest`). This is the dual of longest paths, without
any paths.

Bounds that come from a schedule as soon as possible leave room for that schedule
itself, moved by the same number of cycles. So there is a solution, the sinks can
be at their bounds, and every node has at least that number of cycles to spare.

## Main definitions

* `Program.IsGreatest`: A solution above every other.

## Theorems

* `Program.IsGreatest.isBest`, `Program.IsGreatest.eq_of_isBest`: Greatest solutions
  and best ones.
* `Discipline.exists_alap_isGreatest`: Bounded start cycles have a greatest solution.
* `Discipline.StartsHold.shift`: Start cycles can be moved together.
* `Engine.alap_latest`: What bounds from a schedule as soon as possible lead to.
-/

namespace CyclePlan

open View

namespace Program

/-- A solution that starts no node earlier than any other solution does. -/
structure IsGreatest (f : Program) (v : View Rat) (y : String → Rat) : Prop where
  solution : f.IsSolution y
  above : ∀ z, f.IsSolution z → ∀ n ∈ v.nodes, z (startVar n.name) ≤ y (startVar n.name)

variable {f : Program} {v : View Rat} {y z : String → Rat}

theorem sum_startTerms_neg (v : View Rat) (y : String → Rat) :
    Row.sum (Discipline.startTerms v (-1)) y = -(v.nodes.map fun n => y (startVar n.name)).sum := by
  rw [Row.sum, Discipline.startTerms, List.map_map, List.sum_neg, List.map_map]
  congr 1
  refine List.map_congr_left fun n _ => ?_
  exact neg_one_mul _

theorem IsGreatest.isBest (h : f.IsGreatest v y) (hgoal : f.goal = Discipline.startTerms v (-1)) :
    f.IsBest y := by
  refine ⟨h.solution, fun z hz => ?_⟩
  rw [hgoal, sum_startTerms_neg, sum_startTerms_neg]
  exact neg_le_neg (List.sum_le_sum fun n hn => h.above z hz n hn)

/-- A best solution starts the nodes as a greatest one does. -/
theorem IsGreatest.eq_of_isBest (h : f.IsGreatest v y)
    (hgoal : f.goal = Discipline.startTerms v (-1)) (hz : f.IsBest z) :
    ∀ n ∈ v.nodes, z (startVar n.name) = y (startVar n.name) := by
  intro n hn
  have habove := h.above z hz.solution
  have hbest := hz.least y h.solution
  rw [hgoal, sum_startTerms_neg, sum_startTerms_neg, neg_le_neg_iff] at hbest
  by_contra hne
  -- One node that starts earlier makes the sum smaller.
  have hlt := List.sum_lt_sum (l := v.nodes) (fun n => z (startVar n.name))
    (fun n => y (startVar n.name)) habove ⟨n, hn, lt_of_le_of_ne (habove n hn) hne⟩
  exact absurd hbest (not_le.mpr hlt)

end Program

namespace Discipline

variable {g : Graph Rat} {v : View Rat} {sameBlockOnly : Bool} {bounds : NameMap Int}
  {y : String → Rat} {a b n : View.Node Rat}

/-- Along a path nodes start later and later. -/
theorem StartsHold.le_of_hasPath (h : StartsHold v sameBlockOnly y)
    (hlatency : ∀ n ∈ v.nodes, 0 ≤ n.latency) (hpath : v.HasPath sameBlockOnly a b) :
    y (startVar a.name) ≤ y (startVar b.name) := hpath.le hlatency h.pairs

/-- Start cycles may all be moved by the same number of cycles. -/
theorem StartsHold.shift (h : StartsHold v sameBlockOnly y) {k : Int} (hk : 0 ≤ k) :
    StartsHold v sameBlockOnly fun name => y name + k := by
  have hsign : (0 : Rat) ≤ k := by exact_mod_cast hk
  refine ⟨fun n hn => add_nonneg (h.nonneg n hn) hsign, fun n hn => ?_, fun p hp => ?_⟩
  · rcases h.whole n hn with ⟨c, hc⟩
    exact ⟨c + k, by rw [hc, Int.cast_add]⟩
  · have hrow := h.pairs p hp
    linarith

/-- Start cycles that the bounds keep from being put off for ever have a greatest
    solution. -/
theorem exists_alap_isGreatest (hnames : (v.nodes.map (·.name)).Nodup)
    (hy : (program (.alap bounds) v sameBlockOnly).IsSolution y)
    (hbounded : ∀ n ∈ v.nodes, ∃ top : Int, ∀ z,
      (program (.alap bounds) v sameBlockOnly).IsSolution z → z (startVar n.name) ≤ top) :
    ∃ z, (program (.alap bounds) v sameBlockOnly).IsGreatest v z := by
  -- Node by node, the greatest start cycle of any solution.
  have hgreatest : ∀ n ∈ v.nodes, ∃ c : Int,
      (∃ z, (program (.alap bounds) v sameBlockOnly).IsSolution z ∧ z (startVar n.name) = c) ∧
      ∀ z, (program (.alap bounds) v sameBlockOnly).IsSolution z → z (startVar n.name) ≤ c := by
    intro n hn
    have hwhole : ∀ z, (program (.alap bounds) v sameBlockOnly).IsSolution z →
        ∃ c : Int, z (startVar n.name) = c := fun z hz =>
      (startsHold_of_isSolution hz).whole n hn
    rcases hbounded n hn with ⟨top, htop⟩
    let Taken (c : Int) : Prop :=
      ∃ z, (program (.alap bounds) v sameBlockOnly).IsSolution z ∧ z (startVar n.name) = c
    have hbelow : ∀ c, Taken c → c ≤ top := by
      rintro c ⟨z, hz, hc⟩
      have hle := htop z hz
      rw [hc] at hle
      exact_mod_cast hle
    have hsome : ∃ c, Taken c := by
      rcases hwhole y hy with ⟨c, hc⟩
      exact ⟨c, y, hy, hc⟩
    rcases Int.exists_greatest_of_bdd ⟨top, hbelow⟩ hsome with ⟨c, hc, habove⟩
    refine ⟨c, hc, fun z hz => ?_⟩
    rcases hwhole z hz with ⟨d, hd⟩
    rw [hd]
    exact_mod_cast habove d ⟨z, hz, hd⟩
  choose! c hattained habove using hgreatest
  rcases exists_times hnames c 0 with ⟨x, hx, _⟩
  refine ⟨x, alap_isSolution_iff.mpr ⟨⟨fun n hn => ?_, fun n hn => ⟨c n, hx n hn⟩,
    fun p hp => ?_⟩, fun n hn => ?_⟩, fun z hz n hn => ?_⟩
  · rw [hx n hn]
    exact le_trans ((startsHold_of_isSolution hy).nonneg n hn) (habove n hn y hy)
  · -- Where the producer is at its greatest, the consumer is late enough.
    rcases mem_nodes_of_forwardPairs (List.mem_of_mem_filter hp) with ⟨hsource, htarget⟩
    rcases hattained p.1 hsource with ⟨z, hz, hvalue⟩
    have hrow := (startsHold_of_isSolution hz).pairs p hp
    rw [hx _ hsource, hx _ htarget, ← hvalue]
    exact le_trans hrow (habove _ htarget z hz)
  · rcases hattained n (mem_sinks_iff.mp hn).1 with ⟨z, hz, hvalue⟩
    rw [hx n (mem_sinks_iff.mp hn).1, ← hvalue]
    exact (alap_isSolution_iff.mp hz).2 n hn
  · rw [hx n hn]
    exact habove n hn z hz

/-- Bounds that leave the longest paths the same number of cycles have a greatest solution.
    It has the sinks at their bounds, and every node has those cycles to spare. -/
theorem exists_alap_isGreatest_of_longest (hbuilt : g.IsBuilt) (hdefects : g.defects = [])
    (hview : View.ofGraph g = .ok v) {d : View.Node Rat → Int} {k : Int} (hk : 0 ≤ k)
    (hy : StartsHold v sameBlockOnly y) (htimes : v.Times d y)
    (hbounds : ∀ n ∈ v.sinks, bounds.get? n.name = some (d n + k)) :
    ∃ z, (program (.alap bounds) v sameBlockOnly).IsGreatest v z ∧
      (∀ n ∈ v.nodes, (d n + k : Int) ≤ z (startVar n.name)) ∧
      ∀ n ∈ v.sinks, z (startVar n.name) = (d n + k : Int) := by
  have hfit := Graph.fit_of_defects hdefects
  -- The start cycles themselves, moved by the cycles to spare, are within the bounds.
  have hvalue : ∀ n ∈ v.nodes, y (startVar n.name) + k = (d n + k : Int) := by
    intro n hn
    rw [htimes n hn, Int.cast_add]
  have hmoved : (program (.alap bounds) v sameBlockOnly).IsSolution fun name => y name + k := by
    refine alap_isSolution_iff.mpr ⟨hy.shift hk, fun n hn => ?_⟩
    rw [hvalue n (mem_sinks_iff.mp hn).1, hbounds n hn, Option.getD_some]
  have hbounded : ∀ n ∈ v.nodes, ∃ top : Int, ∀ z,
      (program (.alap bounds) v sameBlockOnly).IsSolution z → z (startVar n.name) ≤ top := by
    intro n hn
    rcases exists_path_to_sink hbuilt hdefects hview sameBlockOnly hn with ⟨last, hlast, _, hpath⟩
    refine ⟨(bounds.get? last.name).getD 0, fun z hz => ?_⟩
    rcases alap_isSolution_iff.mp hz with ⟨hstarts, hwithin⟩
    exact le_trans (hstarts.le_of_hasPath (hfit.node_latency hview) hpath) (hwithin last hlast)
  rcases exists_alap_isGreatest (hfit.node_names_nodup hview) hmoved hbounded with ⟨z, hz⟩
  have hlate : ∀ n ∈ v.nodes, (d n + k : Int) ≤ z (startVar n.name) := fun n hn => by
    rw [← hvalue n hn]
    exact hz.above _ hmoved n hn
  refine ⟨z, hz, hlate, fun n hn => le_antisymm ?_ (hlate n (mem_sinks_iff.mp hn).1)⟩
  -- A sink is no later than its bound, and that is how late it can be.
  have hwithin := (alap_isSolution_iff.mp hz.solution).2 n hn
  rwa [hbounds n hn, Option.getD_some] at hwithin

end Discipline

namespace Engine

variable {solver asapSolver : Solver Rat} {sameBlockOnly : Bool} {g : Graph Rat} {e : Engine Rat}
  {k : Int}

/-- With an exact solver, bounds that leave the ends of the schedule as soon as possible
    the same number of cycles always lead to an optimum. It starts the sinks at their
    bounds, every node at least that number of cycles later than as soon as possible,
    and no node earlier than any other start cycles within the bounds do. -/
theorem alap_latest (hexact : solver.Exact) (hasap : asapSolver.Exact) (hbuilt : g.IsBuilt)
    (hload : perform (load g) (fresh .asap asapSolver sameBlockOnly) = (.ok ⟨⟩, e)) (hk : 0 ≤ k) :
    ∃ v s ends, View.ofGraph g = .ok v ∧
      Solves .asap asapSolver sameBlockOnly g .optimal s ends ∧
      ∀ bounds : NameMap Int,
        (∀ name d, ends.get? name = some d → bounds.get? name = some (d + k)) →
        ∃ t lateEnds z, Solves (.alap bounds) solver sameBlockOnly g .optimal t lateEnds ∧
          t.Realizes v z ∧
          (∀ n ∈ v.sinks, ∃ d, ends.get? n.name = some d ∧ t.cycle? n.name = some (d + k)) ∧
          (∀ n ∈ v.nodes, ∃ early late, s.cycle? n.name = some early ∧
            t.cycle? n.name = some late ∧ early + k ≤ late) ∧
          Discipline.StartsHold v sameBlockOnly z ∧
          ∀ y, Discipline.StartsHold v sameBlockOnly y →
            (∀ n ∈ v.sinks, ∀ d, ends.get? n.name = some d → y (startVar n.name) ≤ (d + k : Int)) →
            ∀ n ∈ v.nodes, y (startVar n.name) ≤ z (startVar n.name) := by
  rcases load_ok_iff.mp hload with ⟨hdefects, v, _, hview, _, _⟩
  rcases exists_longest_forward sameBlockOnly (Graph.fit_of_defects hdefects) hview with ⟨d, hd⟩
  rcases exists_solves_asap hasap hload hview hd with
    ⟨s, ends, a, hsolves, hreal, hends, hstarts, htimes⟩
  refine ⟨v, s, ends, hview, hsolves, fun bounds hbounds => ?_⟩
  have hend : ∀ n ∈ v.sinks, ends.get? n.name = some (d n) := fun n hn =>
    (hends n.name (d n)).mpr ⟨⟨n, hn, rfl⟩, htimes n (mem_sinks_iff.mp hn).1⟩
  have hbound : ∀ n ∈ v.sinks, bounds.get? n.name = some (d n + k) := fun n hn =>
    hbounds n.name (d n) (hend n hn)
  rcases Discipline.exists_alap_isGreatest_of_longest hbuilt hdefects hview hk hstarts htimes
    hbound with ⟨top, htop, hlate, hsink⟩
  rcases exists_load (.alap bounds) solver sameBlockOnly hdefects with ⟨e₁, hlateLoad⟩
  rcases exists_build_alap hlateLoad (fun w hw n hn => by
    cases hview.symm.trans hw
    rw [hbound n hn, Option.isSome_some]) with ⟨e₂, hbuild⟩
  rcases exists_solves hexact hlateLoad hbuild hview (htop.isBest rfl) with
    ⟨t, lateEnds, z, hlateSolves, hbest, hlateReal, _, _⟩
  -- Whichever optimum was found, it starts the nodes as the greatest solution does.
  have hsame := htop.eq_of_isBest rfl hbest
  refine ⟨t, lateEnds, z, hlateSolves, hlateReal, fun n hn => ?_, fun n hn => ?_,
    (Discipline.alap_isSolution_iff.mp hbest.solution).1, fun y hy hwithin n hn => ?_⟩
  · have hnode := (mem_sinks_iff.mp hn).1
    exact ⟨d n, hend n hn, (hlateReal.cycle_iff _ _).mpr
      ⟨⟨n, hnode, rfl⟩, (hsame n hnode).trans (hsink n hn)⟩⟩
  · rcases hlateReal.cycle? hn with ⟨late, hcycle, hvalue⟩
    refine ⟨d n, late, (hreal.cycle_iff _ _).mpr ⟨⟨n, hn, rfl⟩, htimes n hn⟩, hcycle, ?_⟩
    have hle := hlate n hn
    rw [← hsame n hn, hvalue] at hle
    exact_mod_cast hle
  · rw [hsame n hn]
    refine htop.above y (Discipline.alap_isSolution_iff.mpr ⟨hy, fun m hm => ?_⟩) n hn
    rw [hbound m hm, Option.getD_some]
    exact hwithin m hm (d m) (hend m hm)

/-- Three additions in two blocks, with two cycles to spare. -/
theorem alap_latest_additions :
    oracle.Exact ∧ Graph.additions.IsBuilt ∧ (0 : Int) ≤ 2 ∧ ∃ e,
      perform (load Graph.additions) (fresh .asap oracle true) = (.ok ⟨⟩, e) ∧
      ∃ v s ends, View.ofGraph Graph.additions = .ok v ∧
        Solves .asap oracle true Graph.additions .optimal s ends ∧
        ∀ bounds : NameMap Int,
          (∀ name d, ends.get? name = some d → bounds.get? name = some (d + 2)) →
          ∃ t lateEnds z, Solves (.alap bounds) oracle true Graph.additions .optimal t lateEnds ∧
            t.Realizes v z ∧
            (∀ n ∈ v.sinks, ∃ d, ends.get? n.name = some d ∧ t.cycle? n.name = some (d + 2)) ∧
            (∀ n ∈ v.nodes, ∃ early late, s.cycle? n.name = some early ∧
              t.cycle? n.name = some late ∧ early + 2 ≤ late) ∧
            Discipline.StartsHold v true z ∧
            ∀ y, Discipline.StartsHold v true y →
              (∀ n ∈ v.sinks, ∀ d, ends.get? n.name = some d →
                y (startVar n.name) ≤ (d + 2 : Int)) →
              ∀ n ∈ v.nodes, y (startVar n.name) ≤ z (startVar n.name) := by
  rcases exists_load .asap oracle true Graph.additions_defects with ⟨e, hload⟩
  exact ⟨oracle_exact, Graph.additions_isBuilt, by decide, e, hload,
    alap_latest oracle_exact oracle_exact Graph.additions_isBuilt hload (by decide)⟩

end Engine

end CyclePlan
