import CyclePlan.Proofs.Engine.Potentials
import CyclePlan.Proofs.Recurrence

/-!
# Intervals per Block

The greatest interval of the blocks is the recurrence interval.

With an interval for each block the model is free to choose, and what keeps the
intervals short is the goal alone. It adds the greatest interval, times a weight,
to the sum of the start cycles, so an optimum could pay for early starts with a
longer interval if the weight were too small. It is large enough for a reason
that has to do with walks: at any interval that suffices, the earliest start of a
node is the weight of a walk, walks can be made simple, and a simple walk takes no
longer than all nodes do one after another. Hence the earliest starts add up to
less than the weight, and no other starts can win back a single unit of the
interval (`perBlock_sum_lt`).

What is left is that the intervals of the blocks may all be the same. A solution
with its greatest interval for all blocks is a solution with one shared interval,
and the other way round, so the least greatest interval is the least shared one.

## Theorems

* `Discipline.sum_longest_lt`: The earliest starts add up to less than the weight.
* `Discipline.exists_perBlock_best`: There is a best solution, and every best
  solution has the least interval.
* `Engine.perBlock_achieves_recurrence`: Solving with intervals per block and
  searching for a shared interval end with the same number.
-/

namespace CyclePlan

/-- A model rounds latencies up the way the theory does. -/
theorem Scalar.ceil_rat (x : Rat) : Scalar.ceil x = ((⌈x⌉ : Int) : Rat) := by
  have heq : x.ceil = ⌈x⌉ :=
    eq_of_forall_ge_iff fun k => Rat.ceil_le_iff.trans Int.ceil_le.symm
  rw [← heq]
  rfl

namespace Discipline

open Arc View

variable {v : View Rat} {sameBlockOnly : Bool} {least : Int} {d : View.Node Rat → Int}
  {y z : String → Rat} {g : Graph Rat}

/-! ### The weight -/

theorem cast_sum (ks : List Int) : ((ks.sum : Int) : Rat) = (ks.map Int.cast).sum :=
  map_list_sum (Int.castAddHom Rat) ks

theorem intervalWeight_eq (v : View Rat) :
    intervalWeight v =
      ((v.nodes.length : Rat) + 1) * (((v.nodes.map fun n => ⌈n.latency⌉).sum : Int) + 1) := by
  have hsum : Scalar.sum (v.nodes.map fun n => Scalar.ceil n.latency)
      = (((v.nodes.map fun n => ⌈n.latency⌉).sum : Int) : Rat) := by
    rw [cast_sum, List.map_map, Scalar.sum, ← List.sum_eq_foldl]
    exact congrArg List.sum (List.map_congr_left fun n _ => Scalar.ceil_rat n.latency)
  unfold intervalWeight
  rw [hsum]
  rfl

/-- The earliest starts add up to less than the weight. -/
theorem sum_longest_lt (hlatency : ∀ n ∈ v.nodes, 0 ≤ n.latency) (hpos : 0 ≤ least)
    (hsuffices : v.Suffices sameBlockOnly least)
    (hd : ∀ n, IsLongest (v.arcs sameBlockOnly) (lag least) n (d n)) :
    (((v.nodes.map d).sum : Int) : Rat) < intervalWeight v := by
  have hcap := arcs_isCapped sameBlockOnly hlatency hpos
  let work : Int := (v.nodes.map fun n => ⌈n.latency⌉).sum
  have hwork : 0 ≤ work := by
    refine List.sum_nonneg fun k hk => ?_
    rcases List.mem_map.mp hk with ⟨n, hn, rfl⟩
    exact hcap.nonneg n hn
  -- No node starts later than all nodes take one after another.
  have hnode : ∀ k ∈ v.nodes.map d, k ≤ work := by
    intro k hk
    rcases List.mem_map.mp hk with ⟨n, _, rfl⟩
    rcases (hd n).1 with ⟨u, p, hp, htotal⟩
    rw [← htotal]
    exact (suffices_iff_noGain.mp hsuffices).total_le hcap hp
  have hsum := List.sum_le_card_nsmul _ work hnode
  rw [List.length_map, nsmul_eq_mul] at hsum
  have hlt : (v.nodes.map d).sum < ((v.nodes.length : Int) + 1) * (work + 1) := by
    have hlength : (0 : Int) ≤ v.nodes.length := Int.natCast_nonneg _
    nlinarith
  rw [intervalWeight_eq]
  exact_mod_cast hlt

/-! ### Solutions -/

theorem perBlock_goal (v : View Rat) (sameBlockOnly : Bool) (y : String → Rat) :
    Row.sum (program (.pipelined .perBlock) v sameBlockOnly).goal y =
      (v.nodes.map fun n => y (startVar n.name)).sum + intervalWeight v * y maxIntervalVar := by
  change Row.sum (startTerms v 1 ++ [(maxIntervalVar, intervalWeight v)]) y = _
  rw [Row.sum, List.map_append, List.sum_append]
  change Row.sum (startTerms v 1) y + (intervalWeight v * y maxIntervalVar + 0) = _
  rw [Program.sum_startTerms, add_zero]

/-- With its greatest interval for all blocks, a solution has a shared one. -/
theorem exists_shared_of_perBlock
    (hy : (program (.pipelined .perBlock) v sameBlockOnly).IsSolution y) :
    ∃ k : Int, 1 ≤ k ∧ y maxIntervalVar = k ∧
      (program (.pipelined (.fixed k)) v sameBlockOnly).IsSolution
        (Function.update y intervalVar k) := by
  have hmem : intervalVariable maxIntervalVar ∈
      (program (.pipelined .perBlock) v sameBlockOnly).vars := reportedVar_mem
  rcases hy.integral _ hmem rfl with ⟨k, hk⟩
  have hone : (1 : Rat) ≤ y maxIntervalVar := admits_lower_iff.mp (hy.admits _ hmem)
  have hpos : 1 ≤ k := by
    have hcast : (1 : Rat) ≤ k := hk ▸ hone
    exact_mod_cast hcast
  refine ⟨k, hpos, hk, (fixed_isSolution_iff hpos).mpr ⟨?_, Function.update_self .., ?_⟩⟩
  · -- Timing variables are not touched.
    have hstarts := startsHold_of_isSolution hy
    constructor <;> simp only [Function.update_of_ne (startVar_ne_intervalVar _)]
    · exact hstarts.nonneg
    · exact hstarts.whole
    · exact hstarts.pairs
  · intro p hp
    have hback := backPair_holds hy hp
    simp only [Function.update_of_ne (startVar_ne_intervalVar _)]
    rw [← hk]
    exact hback

/-- The greatest interval of a solution is no less than the least one that suffices. -/
theorem perBlock_least_le (hfit : g.Fit) (hview : View.ofGraph g = .ok v)
    (hleast : IsLeast {i | 1 ≤ i ∧ v.Suffices sameBlockOnly i} least)
    (hy : (program (.pipelined .perBlock) v sameBlockOnly).IsSolution y) :
    (least : Rat) ≤ y maxIntervalVar := by
  rcases exists_shared_of_perBlock hy with ⟨k, hpos, hk, hshared⟩
  rw [hk, Int.cast_le]
  exact hleast.2 ⟨hpos, (fixed_solvable_iff hfit hview hpos).mp ⟨_, hshared⟩⟩

theorem sum_starts_nonneg (hy : StartsHold v sameBlockOnly y) :
    0 ≤ (v.nodes.map fun n => y (startVar n.name)).sum := by
  refine List.sum_nonneg fun k hk => ?_
  rcases List.mem_map.mp hk with ⟨n, hn, rfl⟩
  exact hy.nonneg n hn

/-- Starts that add up to less than the weight beat all solutions with a greater
    interval, however early those start their nodes. -/
theorem perBlock_sum_lt (hy : (program (.pipelined .perBlock) v sameBlockOnly).IsSolution y)
    (hsum : (v.nodes.map fun n => y (startVar n.name)).sum < intervalWeight v)
    (hz : (program (.pipelined .perBlock) v sameBlockOnly).IsSolution z)
    (hless : y maxIntervalVar + 1 ≤ z maxIntervalVar) :
    Row.sum (program (.pipelined .perBlock) v sameBlockOnly).goal y <
      Row.sum (program (.pipelined .perBlock) v sameBlockOnly).goal z := by
  have hstarts := sum_starts_nonneg (startsHold_of_isSolution hy)
  have hnonneg := sum_starts_nonneg (startsHold_of_isSolution hz)
  have hunit := mul_le_mul_of_nonneg_left hless (hstarts.trans hsum.le)
  rw [perBlock_goal, perBlock_goal]
  linarith

/-- Another solution has the same interval and starts no earlier, or it has at
    least one unit more. -/
theorem perBlock_cases (hfit : g.Fit) (hview : View.ofGraph g = .ok v)
    (hleast : IsLeast {i | 1 ≤ i ∧ v.Suffices sameBlockOnly i} least)
    (hy : (program (.pipelined (.fixed least)) v sameBlockOnly).IsLeast v y)
    (hz : (program (.pipelined .perBlock) v sameBlockOnly).IsSolution z) :
    (z maxIntervalVar = least ∧
      (v.nodes.map fun n => y (startVar n.name)).sum ≤
        (v.nodes.map fun n => z (startVar n.name)).sum) ∨
    (least : Rat) + 1 ≤ z maxIntervalVar := by
  rcases exists_shared_of_perBlock hz with ⟨k, hpos, hk, hshared⟩
  have hle := perBlock_least_le hfit hview hleast hz
  rw [hk, Int.cast_le] at hle
  by_cases hsame : k = least
  · subst hsame
    refine .inl ⟨hk, List.sum_le_sum fun n hn => ?_⟩
    have hbelow := hy.below _ hshared n hn
    rwa [Function.update_of_ne (startVar_ne_intervalVar _)] at hbelow
  · have hmore : least + 1 ≤ k := by omega
    rw [hk]
    exact .inr (by exact_mod_cast hmore)

/-- There is a best solution, and every best solution has the least interval that
    suffices. Its starts are worth less than one unit of the interval. -/
theorem exists_perBlock_best (hfit : g.Fit) (hview : View.ofGraph g = .ok v)
    (hleast : IsLeast {i | 1 ≤ i ∧ v.Suffices sameBlockOnly i} least) :
    (∃ y, (program (.pipelined .perBlock) v sameBlockOnly).IsBest y) ∧
      ∀ y, (program (.pipelined .perBlock) v sameBlockOnly).IsBest y →
        y maxIntervalVar = least ∧
          (v.nodes.map fun n => y (startVar n.name)).sum < intervalWeight v := by
  have hpos : 1 ≤ least := hleast.1.1
  have hlatency := hfit.node_latency hview
  have hcap := arcs_isCapped sameBlockOnly hlatency (by omega : 0 ≤ least)
  choose d hd using (suffices_iff_noGain.mp hleast.1.2).exists_longest hcap
  -- The earliest starts, with the least interval for all blocks.
  rcases exists_uniform_times (hfit.node_names_nodup hview) d least with ⟨y, hy, hother⟩
  have hgreatest := hother _ startVar_ne_maxIntervalVar
  have hearliest := fixed_isLeast hpos hd hy (hother _ startVar_ne_intervalVar)
  rcases (fixed_isSolution_iff hpos).mp hearliest.solution with ⟨hstarts, _, hback⟩
  have hsolution := perBlock_isSolution_of_uniform hpos hstarts hgreatest
    (fun b _ => hother _ fun node => startVar_ne_blockIntervalVar node b) hback
  have hsum : (v.nodes.map fun n => y (startVar n.name)).sum < intervalWeight v := by
    have hlt := sum_longest_lt hlatency (by omega) hleast.1.2 hd
    rw [List.map_congr_left hy]
    rwa [cast_sum, List.map_map] at hlt
  refine ⟨⟨y, hsolution, fun z hz => ?_⟩, fun z hz => ?_⟩
  · rcases perBlock_cases hfit hview hleast hearliest hz with ⟨hsame, hle⟩ | hless
    · rw [perBlock_goal, perBlock_goal, hsame, hgreatest]
      linarith
    · exact (perBlock_sum_lt hsolution hsum hz (hgreatest ▸ hless)).le
  · have hbest := hz.least y hsolution
    rcases perBlock_cases hfit hview hleast hearliest hz.solution with ⟨hsame, _⟩ | hless
    · rw [perBlock_goal, perBlock_goal, hsame, hgreatest] at hbest
      exact ⟨hsame, by linarith⟩
    · -- One unit more cannot be won back, so such a solution is not best.
      have hlt := perBlock_sum_lt hsolution hsum hz.solution (hgreatest ▸ hless)
      exact absurd hbest (not_le.mpr hlt)

end Discipline

/-- The search finds the least interval that suffices, if that is in its range. -/
theorem IntervalSearch.run_of_isLeast {s : IntervalSearch Rat} {g : Graph Rat} {v : View Rat}
    {least : Int} (hexact : s.solver.Exact) (hlimits : s.limits = none) (hdefects : g.defects = [])
    (hview : View.ofGraph g = .ok v)
    (hleast : IsLeast {i | 1 ≤ i ∧ v.Suffices s.sameBlockOnly i} least)
    (hrange : least ≤ s.maxInterval) : ∃ found, s.run g = .ok found ∧ found.interval = least := by
  have hpos : 1 ≤ least := hleast.1.1
  rcases attempt_scheduled hexact hlimits hdefects hview hpos hleast.1.2 with ⟨e, hfound, _⟩
  have hdenied : ∀ k : Nat, k < (least - 1).toNat → ∃ e',
      perform (s.attempt g (1 + k)) (s.engine (1 + k)) = (.ok .infeasible, e') := by
    intro k hk
    refine attempt_denied hexact hlimits hdefects hview (by omega) ?_
    rw [View.suffices_iff_le hleast (by omega)]
    omega
  have hlast : (1 : Int) + ((least - 1).toNat : Int) = least := by omega
  rw [← hlast] at hfound
  have hrun := runFrom_scheduled [] hdenied hfound
    (by omega : (least - 1).toNat < s.maxInterval.toNat)
  unfold run
  rw [if_neg (by omega)]
  exact ⟨_, hrun, hlast⟩

namespace Engine

variable {solver : Solver Rat} {sameBlockOnly : Bool} {g : Graph Rat} {e₁ : Engine Rat}

/-- With an exact solver, solving with intervals per block ends in an optimum whose
    greatest interval is the shared one that a search without limits finds. No point
    of the model has a smaller one, and the starts of an optimum are worth less than
    one unit of it. It is the achieved interval of the engine unless the solver makes
    up a value for the shared interval, which is not a variable. -/
theorem perBlock_achieves_recurrence (hexact : solver.Exact)
    (hload : perform (load g) (fresh (.pipelined .perBlock) solver sameBlockOnly)
      = (.ok ⟨⟩, e₁)) :
    ∃ v e₂ e₃ s least, View.ofGraph g = .ok v ∧ perform build e₁ = (.ok ⟨⟩, e₂) ∧
      perform solve e₂ = (.ok .optimal, e₃) ∧ e₃.solution = some s ∧
      s.int? maxIntervalVar = some least ∧
      (solver.KeepsToVariables → e₃.achievedInterval? = some least) ∧
      (∀ x, e₂.model.IsPoint x → e₂.model.IsIntegral x →
        (least : Rat) ≤ e₂.model.valueOf x maxIntervalVar) ∧
      (∀ x, e₂.model.IsOptimum x → e₂.model.valueOf x maxIntervalVar = least ∧
        (v.nodes.map fun n => e₂.model.valueOf x (startVar n.name)).sum
          < Discipline.intervalWeight v) ∧
      ∀ search : IntervalSearch Rat, search.solver.Exact → search.limits = none →
        search.sameBlockOnly = sameBlockOnly → least ≤ search.maxInterval →
        ∃ found, search.run g = .ok found ∧ found.interval = least := by
  have hdefects := (load_ok_iff.mp hload).1
  have hfit := Graph.fit_of_defects hdefects
  have hvalid : IntervalTarget.perBlock.IsValid := trivial
  rcases exists_build_pipelined hvalid hload with ⟨e₂, hbuild⟩
  rcases build_renders hload hbuild with ⟨v, m, hview, hm, rfl⟩
  rcases View.exists_recurrence sameBlockOnly hfit hview with ⟨least, hleast⟩
  rcases Discipline.exists_perBlock_best hfit hview hleast with ⟨⟨y, hy⟩, hevery⟩
  rcases exists_solve_optimal hexact hm hy with ⟨e₃, x, hsolve, hcarries, hoptimum⟩
  -- Whatever optimum was found, its greatest interval is the least that suffices.
  have hvalue := (hevery _ ((hm.isOptimum_iff x).mp hoptimum)).1
  refine ⟨v, _, e₃, solver 0 m, least, hview, hbuild, hsolve, ?_, ?_, fun hkeeps => ?_,
    fun z hz hint => ?_, fun z hz => hevery _ ((hm.isOptimum_iff z).mp hz), ?_⟩
  · rcases perform_solve_ok_iff.mp hsolve with ⟨_, _, rfl⟩
    rfl
  · have hmem : intervalVariable maxIntervalVar ∈ m.vars := by
      rw [hm.vars]
      exact Discipline.reportedVar_mem
    rcases hcarries.reads hoptimum.integral hmem rfl with ⟨k, hk, hread⟩
    have heq : k = least := Int.cast_injective (hk.symm.trans hvalue)
    exact heq ▸ hread
  · rcases achievedInterval?_pipelined hm .start hsolve rfl hcarries hoptimum.integral
      (fun _ => shared_unread hkeeps hm .start fun _ h => nomatch h) with ⟨k, hk, hreported⟩
    have heq : k = least := Int.cast_injective (hreported.symm.trans hvalue)
    exact heq ▸ hk
  · exact Discipline.perBlock_least_le hfit hview hleast ((hm.isSolution_iff z).mp ⟨hz, hint⟩)
  · rintro search hsearch hlimits rfl hrange
    exact IntervalSearch.run_of_isLeast hsearch hlimits hdefects hview hleast hrange

/-- The loop that counts, with an interval for its one block. -/
theorem perBlock_achieves_recurrence_countingLoop :
    oracle.Exact ∧ oracle.KeepsToVariables ∧ ∃ e₁,
      perform (load Graph.countingLoop) (fresh (.pipelined .perBlock) oracle true)
        = (.ok ⟨⟩, e₁) ∧
      ∃ v e₂ e₃ s least, View.ofGraph Graph.countingLoop = .ok v ∧
        perform build e₁ = (.ok ⟨⟩, e₂) ∧ perform solve e₂ = (.ok .optimal, e₃) ∧
        e₃.solution = some s ∧ s.int? maxIntervalVar = some least ∧
        (oracle.KeepsToVariables → e₃.achievedInterval? = some least) ∧
        (∀ x, e₂.model.IsPoint x → e₂.model.IsIntegral x →
          (least : Rat) ≤ e₂.model.valueOf x maxIntervalVar) ∧
        (∀ x, e₂.model.IsOptimum x → e₂.model.valueOf x maxIntervalVar = least ∧
          (v.nodes.map fun n => e₂.model.valueOf x (startVar n.name)).sum
            < Discipline.intervalWeight v) ∧
        ∀ search : IntervalSearch Rat, search.solver.Exact → search.limits = none →
          search.sameBlockOnly = true → least ≤ search.maxInterval →
          ∃ found, search.run Graph.countingLoop = .ok found ∧ found.interval = least := by
  rcases exists_load (.pipelined .perBlock) oracle true Graph.countingLoop_defects with
    ⟨e₁, hload⟩
  exact ⟨oracle_exact, oracle_keepsToVariables, e₁, hload,
    perBlock_achieves_recurrence oracle_exact hload⟩

end Engine

end CyclePlan
