import CyclePlan.Proofs.CriticalPath
import CyclePlan.Proofs.Latest
import CyclePlan.Proofs.Resource.Compaction
import CyclePlan.Proofs.WithinHorizon

/-!
# The Derived Horizon

Cutting schedules off where no horizon is given loses no optimum.

The formulation by cycle is exact within a horizon, and a horizon that is derived is
an estimate: the last node of the block in a solution without capacities, and one more
cycle for each limited operation of the whole view. Some schedules do end later.
What is not lost is a better one. Any schedule that keeps to the capacities has a
compact one below it, and compact schedules are within the estimate, since an
operation starts in them no later than in the solution without capacities, but for one
cycle for each limited operation, and in that solution it starts no later than the
last node of its block (`Discipline.exists_within_horizon`).

Both disciplines without intervals want something to be small that grows with the
start cycles. Lowering start cycles keeps a solution a solution and makes it no worse,
so the optima of the larger model are those of all schedules that keep to the
capacities.

That an operation starts before the end of its block is the one thing that depends on
how the graph was made.

## Main definitions

* `Handle.IsLimited`: A point that keeps to the capacities.

## Theorems

* `Discipline.exists_within_horizon`: A schedule within the horizon below any other.
* `Engine.blockHorizons_derived`: What is derived, and from what.
* `Engine.timeIndexed_reaches_optimum`: The larger model has the limited optimum.
-/

namespace CyclePlan

open View

namespace Discipline

variable {t : Discipline} {v : View Rat} {sameBlockOnly : Bool} {limits : Limits} {g : Graph Rat}
  {x y z : String → Rat}

/-! ### Lower start cycles -/

/-- As soon as possible and without pipelining, a solution remains one if start cycles
    get smaller and nothing else changes. -/
theorem isSolution_of_lower (ht : t = .asap ∨ t = .noPipeline)
    (hy : (t.program v sameBlockOnly).IsSolution y) (hz : StartsHold v sameBlockOnly z)
    (hle : ∀ n ∈ v.nodes, z (startVar n.name) ≤ y (startVar n.name))
    (hrest : ∀ name, (∀ node, startVar node ≠ name) → z name = y name) :
    (t.program v sameBlockOnly).IsSolution z := by
  rcases ht with rfl | rfl
  · exact asap_isSolution_iff.mpr hz
  · rcases noPipeline_isSolution_iff.mp hy with ⟨_, hwhole, hsign, hcover⟩
    have hsame := hrest maxLatencyVar startVar_ne_maxLatencyVar
    refine noPipeline_isSolution_iff.mpr ⟨hz, ?_, ?_, fun n hn => ?_⟩
    · rwa [hsame]
    · rwa [hsame]
    · rw [hsame]
      exact le_trans (hle n (mem_sinks_iff.mp hn).1) (hcover n hn)

/-- What is wanted to be small grows with the values. -/
theorem goal_mono (sameBlockOnly : Bool) (ht : t = .asap ∨ t = .noPipeline)
    (hle : ∀ w ∈ (t.program v sameBlockOnly).vars, z w.name ≤ y w.name) :
    Row.sum (t.goal v) z ≤ Row.sum (t.goal v) y := by
  rcases ht with rfl | rfl
  · change Row.sum (startTerms v 1) z ≤ Row.sum (startTerms v 1) y
    rw [Program.sum_startTerms, Program.sum_startTerms]
    exact List.sum_le_sum fun n hn => hle _ (startVariable_mem hn)
  · rw [sum_noPipeline_goal, sum_noPipeline_goal]
    exact hle ⟨maxLatencyVar, .integer, some 0, none⟩ (List.mem_append_right _ List.mem_cons_self)

/-- It is a natural number in every solution. -/
theorem exists_nat_goal (ht : t = .asap ∨ t = .noPipeline)
    (hy : (t.program v sameBlockOnly).IsSolution y) :
    ∃ k : Nat, Row.sum (t.goal v) y = k := by
  rcases ht with rfl | rfl
  · exact asap_sumsStarts.exists_nat Nat.cast_zero.symm hy (startsHold_of_isSolution hy)
  · rcases noPipeline_isSolution_iff.mp hy with ⟨_, ⟨k, hk⟩, hsign, _⟩
    rw [hk] at hsign
    have hpos : 0 ≤ k := by exact_mod_cast hsign
    refine ⟨k.toNat, ?_⟩
    rw [sum_noPipeline_goal, hk, ← Int.cast_natCast, Int.toNat_of_nonneg hpos]

/-- Start cycles that keep to the dependencies are those of a solution. -/
theorem exists_solution_of_startsHold (ht : t = .asap ∨ t = .noPipeline)
    (hnames : (v.nodes.map (·.name)).Nodup) (hy : StartsHold v sameBlockOnly y) :
    ∃ z, (t.program v sameBlockOnly).IsSolution z ∧
      ∀ n ∈ v.nodes, z (startVar n.name) = y (startVar n.name) := by
  have htimes := times_floor hy.whole
  rcases (startsHold_iff_meets 0 htimes).mp hy with ⟨hsign, hmeets⟩
  -- The sum of all start cycles is late enough for the last of them.
  rcases exists_uniform_times hnames (fun n => ⌊y (startVar n.name)⌋)
    (v.nodes.map fun n => ⌊y (startVar n.name)⌋).sum with ⟨z, hz, hother⟩
  have hstarts := (startsHold_iff_meets 0 hz).mpr ⟨hsign, hmeets⟩
  refine ⟨z, ?_, fun n hn => (hz n hn).trans (htimes n hn).symm⟩
  rcases ht with rfl | rfl
  · exact asap_isSolution_iff.mpr hstarts
  · have hlatency := hother maxLatencyVar startVar_ne_maxLatencyVar
    have hall := List.forall_mem_map (P := fun k : Int => 0 ≤ k).mpr hsign
    refine noPipeline_isSolution_iff.mpr ⟨hstarts, ⟨_, hlatency⟩, ?_, fun n hn => ?_⟩
    · rw [hlatency]
      exact_mod_cast List.sum_nonneg hall
    · have hnode := (mem_sinks_iff.mp hn).1
      rw [hlatency, hz n hnode]
      exact_mod_cast List.single_le_sum hall _ (List.mem_map_of_mem hnode)

/-! ### Schedules within the horizon -/

/-- Below any solution that keeps to the capacities there is one that also stays within
    the horizon, if that leaves room behind a schedule without capacities. -/
theorem exists_within_horizon (ht : t = .asap ∨ t = .noPipeline) (hbuilt : g.IsBuilt)
    (hdefects : g.defects = []) (hview : View.ofGraph g = .ok v) (horizon : Nat → Nat)
    (hx : StartsHold v sameBlockOnly x)
    (hroom : ∀ n ∈ v.nodes, ∀ last ∈ v.sinks, v.sinkOf? n.block = some last →
      x (startVar last.name) + v.limitedCount limits ≤ horizon n.block)
    (hy : (t.program v sameBlockOnly).IsSolution y) (hissues : v.IssuesWithin limits y) :
    ∃ z, (t.program v sameBlockOnly).IsSolution z ∧ v.StaysWithin limits horizon z ∧
      ∀ w ∈ (t.program v sameBlockOnly).vars, z w.name ≤ y w.name := by
  have hfit := Graph.fit_of_defects hdefects
  have hnames := hfit.node_names_nodup hview
  have hlatency := hfit.node_latency hview
  rcases hfit.forwardPairs_rank hview with ⟨rank, hrank⟩
  -- Whole start cycles, for the schedule that is given and the one without capacities.
  have hytimes := times_floor (startsHold_of_isSolution hy).whole
  have hxtimes := times_floor hx.whole
  have hkeeps := (keeps_iff hytimes).mpr ⟨startsHold_of_isSolution hy, hissues⟩
  have hfree := (keeps_none_iff hxtimes).mpr hx
  -- A compact schedule below the one that is given, with the other variables as they are.
  rcases exists_isCompact hkeeps with ⟨d, hcompact, hbelow⟩
  rcases exists_times_over hnames d y with ⟨z, hz, hrest⟩
  rcases (keeps_iff hz).mp hcompact.toKeeps with ⟨hstarts, hwithin⟩
  have hle : ∀ n ∈ v.nodes, z (startVar n.name) ≤ y (startVar n.name) := by
    intro n hn
    rw [hz n hn, hytimes n hn]
    exact_mod_cast hbelow n hn
  refine ⟨z, isSolution_of_lower ht hy hstarts hle hrest, ⟨fun n hn _ => ⟨hstarts.nonneg n hn, ?_⟩,
    hwithin⟩, fun w hw => ?_⟩
  · -- The operation starts before the end of its block, and capacities add few cycles.
    have hlate := hcompact.le_add_limitedCount hlatency hrank hfree hn
    have hcast : ((d n : Int) : Rat)
        ≤ (⌊x (startVar n.name)⌋ : Int) + (v.limitedCount limits : Rat) := by
      exact_mod_cast hlate
    rcases exists_path_to_sink hbuilt hdefects hview sameBlockOnly hn with
      ⟨last, hlast, hfound, hpath⟩
    have hend := hx.le_of_hasPath hlatency hpath
    have hhorizon := hroom n hn last hlast hfound
    rw [hxtimes n hn] at hend
    rw [hz n hn]
    linarith
  · -- A variable is a start cycle or it has kept its value.
    by_cases hstart : ∃ n ∈ v.nodes, startVar n.name = w.name
    · rcases hstart with ⟨n, hn, hname⟩
      rw [← hname]
      exact hle n hn
    · refine le_of_eq (hrest w.name fun node heq => ?_)
      rcases List.mem_append.mp hw with hw | hw
      · rcases List.mem_map.mp hw with ⟨n, hn, rfl⟩
        exact hstart ⟨n, hn, rfl⟩
      · rcases ht with rfl | rfl
        · exact absurd hw List.not_mem_nil
        · rw [List.mem_singleton.mp hw] at heq
          exact startVar_ne_maxLatencyVar node heq

end Discipline

/-! ### Handles -/

/-- A point of a handle's model keeps to the capacities. -/
structure Handle.IsLimited (h : Handle Rat) (limits : Limits) (s : Nat → Rat) : Prop where
  point : h.model.IsPoint s
  integral : h.model.IsIntegral s
  issues : h.view.IssuesWithin limits (h.model.valueOf s)

/-- Where an operation of a class without units starts, the capacity is exceeded. -/
theorem View.IssuesWithin.capacityOf?_ne_zero {v : View Rat} {limits : Limits} {y : String → Rat}
    (h : v.IssuesWithin limits y) {n : View.Node Rat} (hn : n ∈ v.nodes)
    (hwhole : ∃ c : Int, y (startVar n.name) = c) : limits.capacityOf? n.kind ≠ some 0 := by
  intro hzero
  rcases hwhole with ⟨c, hc⟩
  rcases Option.bind_eq_some_iff.mp hzero with ⟨unit, hunit, hcapacity⟩
  have hnone := h n.block unit 0 hcapacity c
  have hsome : 0 < v.issues y n.block unit c := by
    refine List.countP_pos_iff.mpr ⟨n, hn, ?_⟩
    rw [hunit, hc, beq_self_eq_true, beq_self_eq_true, beq_self_eq_true, Bool.and_self,
      Bool.and_self]
  omega

namespace Limits

/-- Limits that are made from entries leave no class without units. -/
theorem capacity?_extend_ne_zero {limits : Limits} (h : ∀ unit, limits.capacity? unit ≠ some 0)
    (entries : List (String × Int)) (unit : String) :
    (limits.extend entries).1.capacity? unit ≠ some 0 := by
  induction entries generalizing limits with
  | nil => exact h unit
  | cons entry entries ih =>
      rcases entry with ⟨name, capacity⟩
      rw [extend]
      split
      · next limits' _ hset =>
        refine ih fun other => ?_
        rw [set] at hset
        split at hset
        · cases hset
        · split at hset
          · next hvalid =>
            cases hset
            rw [capacity?, NameMap.get?_insert]
            split
            · -- The capacity that is set is positive.
              intro hzero
              have hnat := Option.some.inj hzero
              omega
            · exact h other
          · cases hset
      · exact ih h

theorem capacityOf?_ofEntries_ne_zero (entries : List (String × Int)) (kind : Opcode) :
    (ofEntries entries).1.capacityOf? kind ≠ some 0 := by
  intro hzero
  rcases Option.bind_eq_some_iff.mp hzero with ⟨unit, _, hcapacity⟩
  exact capacity?_extend_ne_zero (fun _ hnone => by cases hnone) entries unit hcapacity

end Limits

namespace Engine

variable {t : Discipline} {solver : Solver Rat} {sameBlockOnly : Bool} {g : Graph Rat}
  {e₁ e₂ : Engine Rat} {h h' : Handle Rat} {limits : Limits} {m : Model Rat} {x : Nat → Rat}

/-- The horizon that is derived for a block is the start of its last node in the last
    solution, and a cycle for each limited operation. -/
theorem blockHorizons_derived (limits : Limits) (hbuilt : g.IsBuilt) (hdefects : g.defects = [])
    (hview : View.ofGraph g = .ok h.view) (hx : h.Holds x)
    (hstarts : ∀ n ∈ h.view.nodes, startVariable n ∈ h.model.vars) :
    ∃ horizon : Nat → Nat,
      blockHorizons h limits none = .ok (h.view.blocks.map fun b => (b, horizon b)) ∧
      ∀ n ∈ h.view.nodes, ∀ last ∈ h.view.sinks, h.view.sinkOf? n.block = some last →
        h.model.valueOf x (startVar last.name) + h.view.limitedCount limits ≤ horizon n.block := by
  let derived (b : Nat) : Int :=
    match h.view.sinkOf? b with
    | some last => ⌊h.model.valueOf x (startVar last.name)⌋ + h.view.limitedCount limits
    | none => 0
  have hwhole : ∀ n ∈ h.view.nodes, ∃ c : Int, h.model.valueOf x (startVar n.name) = c :=
    fun n hn => (h.model.isIntegral_iff x).mp hx.isPoint.2 _ (hstarts n hn) rfl
  refine ⟨fun b => (derived b).toNat, blockHorizons_of_ok derived fun b hb => ?_,
    fun n hn last hlast hfound => ?_⟩
  · rcases View.mem_blocks_iff.mp hb with ⟨n, hn, rfl⟩
    rcases View.exists_path_to_sink hbuilt hdefects hview false hn with ⟨last, hlast, hfound, _⟩
    have hnode := (View.mem_sinks_iff.mp hlast).1
    rcases hwhole last hnode with ⟨c, hc⟩
    have hcycle := hx.cycle? ⟨_, hstarts last hnode, rfl⟩
    change h.cycle? last.name = some _ at hcycle
    change derivedHorizon h limits n.block = _
    simp only [derivedHorizon, derived, hfound, hcycle, hc, Scalar.roundInt_intCast,
      Int.floor_intCast]
    rfl
  · rcases hwhole last (View.mem_sinks_iff.mp hlast).1 with ⟨c, hc⟩
    have hle : c + (h.view.limitedCount limits : Int) ≤ (derived n.block).toNat := by
      simp only [derived, hfound, hc, Int.floor_intCast]
      exact Int.self_le_toNat _
    rw [hc]
    exact_mod_cast hle

section

variable {horizon : Nat → Nat} {s : Nat → Rat}

/-- A point of the larger model keeps to the capacities. -/
theorem isLimited_of_isPoint (hnumbered : h.model.IsNumbered)
    (hstarts : ∀ n ∈ h.view.nodes, startVariable n ∈ h.model.vars)
    (happ : h.model.Appends h'.model
      (h.view.formulationVars limits (h.view.blocks.map fun b => (b, horizon b)))
      (h.view.formulationRows limits (h.view.blocks.map fun b => (b, horizon b))))
    (hpoint : h'.model.IsPoint s) (hintegral : h'.model.IsIntegral s) : h.IsLimited limits s := by
  rcases (exists_continuation_iff hnumbered hstarts happ s).mp
    ⟨s, fun _ _ => rfl, hpoint, hintegral⟩ with ⟨hbase, hwhole, hwithin⟩
  exact ⟨hbase, hwhole, hwithin.issues⟩

/-- Below a point that keeps to the capacities there is one of the larger model. -/
theorem exists_isPoint_below (ht : t = .asap ∨ t = .noPipeline) (hbuilt : g.IsBuilt)
    (hdefects : g.defects = []) (hview : View.ofGraph g = .ok h.view)
    (hm : h.model.Renders (t.program h.view sameBlockOnly)) (hnumbered : h.model.IsNumbered)
    (hstarts : ∀ n ∈ h.view.nodes, startVariable n ∈ h.model.vars) (hx : h.Holds x)
    (hroom : ∀ n ∈ h.view.nodes, ∀ last ∈ h.view.sinks, h.view.sinkOf? n.block = some last →
      h.model.valueOf x (startVar last.name) + h.view.limitedCount limits ≤ horizon n.block)
    (happ : h.model.Appends h'.model
      (h.view.formulationVars limits (h.view.blocks.map fun b => (b, horizon b)))
      (h.view.formulationRows limits (h.view.blocks.map fun b => (b, horizon b))))
    (hs : h.IsLimited limits s) :
    ∃ z, h'.model.IsPoint z ∧ h'.model.IsIntegral z ∧ ∀ i < h.model.vars.length, z i ≤ s i := by
  have hsnapshot := Discipline.startsHold_of_isSolution ((hm.isSolution_iff x).mp hx.isPoint)
  rcases Discipline.exists_within_horizon ht hbuilt hdefects hview horizon hsnapshot hroom
    ((hm.isSolution_iff s).mp ⟨hs.point, hs.integral⟩) hs.issues with ⟨y, hy, hwithin, hle⟩
  rcases hm.assign_isPoint hy with ⟨hpoint, hintegral⟩
  have hvalue : ∀ n ∈ h.view.nodes,
      h.model.valueOf (h.model.assign y) (startVar n.name) = y (startVar n.name) :=
    fun n hn => h.model.valueOf_assign y ⟨_, hstarts n hn, rfl⟩
  have hstays : h.view.StaysWithin limits horizon (h.model.valueOf (h.model.assign y)) := by
    refine ⟨fun n hn hlimited => ?_, fun block unit capacity hcapacity cycle => ?_⟩
    · rw [hvalue n hn]
      exact hwithin.bounds n hn hlimited
    · rw [View.issues_congr (fun n hn _ => hvalue n hn) cycle]
      exact hwithin.issues block unit capacity hcapacity cycle
  rcases (exists_continuation_iff hnumbered hstarts happ _).mpr ⟨hpoint, hintegral, hstays⟩ with
    ⟨z, hagree, hz⟩
  refine ⟨z, hz.1, hz.2, fun i hi => ?_⟩
  -- Every number is that of a variable of the program.
  have hat : h.model.vars[i]? = some h.model.vars[i] := List.getElem?_eq_getElem hi
  have hmem : h.model.vars[i] ∈ (t.program h.view sameBlockOnly).vars := by
    rw [← hm.vars]
    exact List.getElem_mem hi
  have hbelow := hle _ hmem
  rw [hagree i hi, Model.assign, hat]
  rwa [Model.valueOf, h.model.indexOf_of_getElem? hat] at hbelow

/-- A lower point has no larger objective. -/
theorem objectiveValue_le (ht : t = .asap ∨ t = .noPipeline)
    (hm : m.Renders (t.program h.view sameBlockOnly)) {z : Nat → Rat}
    (hle : ∀ i < m.vars.length, z i ≤ s i) : m.objectiveValue z ≤ m.objectiveValue s := by
  rw [hm.value, hm.value]
  refine Discipline.goal_mono sameBlockOnly ht fun w hw => ?_
  rw [← hm.vars] at hw
  exact hle _ (Model.lt_of_variableId? (m.variableId?_of_knows ⟨w, hw, rfl⟩))

/-- If every limited operation has a unit to start on, some point keeps to the
    capacities. -/
theorem exists_isLimited (ht : t = .asap ∨ t = .noPipeline) (hfit : g.Fit)
    (hview : View.ofGraph g = .ok h.view)
    (hm : h.model.Renders (t.program h.view sameBlockOnly))
    (hstarts : ∀ n ∈ h.view.nodes, startVariable n ∈ h.model.vars)
    (hunits : ∀ n ∈ h.view.nodes, limits.capacityOf? n.kind ≠ some 0) :
    ∃ s, h.IsLimited limits s := by
  have hnames := hfit.node_names_nodup hview
  rcases hfit.forwardPairs_rank hview with ⟨rank, hrank⟩
  rcases View.exists_keeps hnames (hfit.node_latency hview) hrank hunits sameBlockOnly with
    ⟨c, hkeeps⟩
  rcases View.exists_times hnames c 0 with ⟨y, hy, _⟩
  rcases (View.keeps_iff hy).mp hkeeps with ⟨hholds, hissues⟩
  rcases Discipline.exists_solution_of_startsHold ht hnames hholds with ⟨z, hz, hsame⟩
  rcases hm.assign_isPoint hz with ⟨hpoint, hintegral⟩
  refine ⟨h.model.assign z, hpoint, hintegral, fun block unit capacity hcapacity cycle => ?_⟩
  have hvalue : ∀ n ∈ h.view.nodes,
      h.model.valueOf (h.model.assign z) (startVar n.name) = y (startVar n.name) := fun n hn =>
    (h.model.valueOf_assign z ⟨_, hstarts n hn, rfl⟩).trans (hsame n hn)
  rw [View.issues_congr (fun n hn _ => hvalue n hn) cycle]
  exact hissues block unit capacity hcapacity cycle

/-- If points of a larger model are limited points and lie below all of them, the model has
    an optimum wherever there is a limited point at all. -/
theorem exists_isOptimum (ht : t = .asap ∨ t = .noPipeline)
    (hm : h.model.Renders (t.program h.view sameBlockOnly))
    (hobjective : h'.model.objective = h.model.objective)
    (hvalue : ∀ z, h'.model.objectiveValue z = h.model.objectiveValue z)
    (hlimited : ∀ z, h'.model.IsPoint z → h'.model.IsIntegral z → h.IsLimited limits z)
    (hbelow : ∀ s, h.IsLimited limits s → ∃ z, h'.model.IsPoint z ∧ h'.model.IsIntegral z ∧
      ∀ i < h.model.vars.length, z i ≤ s i)
    (hsome : ∃ s, h.IsLimited limits s) : ∃ z, h'.model.IsOptimum z := by
  have hnat : ∀ s, h.IsLimited limits s → ∃ k : Nat, h.model.objectiveValue s = k := by
    intro s hs
    rw [hm.value]
    exact Discipline.exists_nat_goal ht ((hm.isSolution_iff s).mp ⟨hs.point, hs.integral⟩)
  -- Natural numbers have a least one, and below its point lies one of the larger model.
  have hattained : ∃ k : Nat, ∃ s, h.IsLimited limits s ∧ h.model.objectiveValue s = k := by
    rcases hsome with ⟨s, hs⟩
    rcases hnat s hs with ⟨k, hk⟩
    exact ⟨k, s, hs, hk⟩
  classical
  rcases Nat.find_spec hattained with ⟨s, hs, hleast⟩
  rcases hbelow s hs with ⟨z, hpoint, hintegral, hle⟩
  refine ⟨z, hpoint, hintegral, fun y hy hyint => ?_⟩
  rw [hobjective, hm.direction, hvalue, hvalue]
  rcases hnat y (hlimited y hy hyint) with ⟨k, hk⟩
  have hmin := Nat.find_min' hattained ⟨y, hlimited y hy hyint, hk⟩
  have hcast : ((Nat.find hattained : Nat) : Rat) ≤ k := by exact_mod_cast hmin
  rw [hk]
  exact le_trans (objectiveValue_le ht hm hle) (hleast ▸ hcast)

end

/-- Where no horizon is given, the formulation by cycle is accepted after any solution of
    the model that was built, and below every point that keeps to the capacities it has
    one. It has an optimum unless there is an operation without any unit, which limits
    that are made from entries never bring about. Its optima are those of all points that
    keep to the capacities. -/
theorem timeIndexed_reaches_optimum (ht : t = .asap ∨ t = .noPipeline) (hbuilt : g.IsBuilt)
    (hload : perform (load g) (fresh t solver sameBlockOnly) = (.ok ⟨⟩, e₁))
    (hbuild : perform build e₁ = (.ok ⟨⟩, e₂)) (hview : e₂.view = some h.view)
    (hmodel : h.model = e₂.model) (hsolved : h.IsSatisfied) (limits : Limits) :
    ∃ ids h', perform (addResources limits (.timeIndexed none)) h = (.ok ids, h') ∧
      (∀ s, h.IsLimited limits s →
        ∃ z, h'.model.IsPoint z ∧ h'.model.IsIntegral z ∧
          ∀ i < h.model.vars.length, z i ≤ s i) ∧
      ((∃ z, h'.model.IsOptimum z) ↔ ∀ n ∈ h.view.nodes, limits.capacityOf? n.kind ≠ some 0) ∧
      (∀ entries, limits = (Limits.ofEntries entries).1 → ∃ z, h'.model.IsOptimum z) ∧
      ∀ z, h'.model.IsOptimum z → h.IsLimited limits z ∧
        ∀ s, h.IsLimited limits s → h.model.objectiveValue z ≤ h.model.objectiveValue s := by
  have hdefects := (load_ok_iff.mp hload).1
  have hfit := Graph.fit_of_defects hdefects
  have hreach := reaches_built Model.Edits hload hbuild
  rcases build_renders hload hbuild with ⟨v, m, hgraph, hm, rfl⟩
  have hsame : v = h.view := Option.some.inj hview
  change h.model = m at hmodel
  subst hmodel hsame
  have hnumbered : h.model.IsNumbered := hreach.numbered
  have hstarts := Discipline.startVariable_mem_of_renders hm
  have hnames := hfit.node_names_nodup hgraph
  rcases hsolved with ⟨x, hx⟩
  -- The formulation is accepted with the horizons that are derived.
  rcases blockHorizons_derived limits hbuilt hdefects hgraph hx hstarts with
    ⟨horizon, hhorizons, hroom⟩
  rcases exists_addTimeIndexed hnames (fun n hn => ⟨_, hstarts n hn, rfl⟩)
    (Discipline.not_knows_startsAtVar hm) hhorizons with ⟨ids, h', hadd⟩
  rcases perform_addTimeIndexed_ok hadd with ⟨hs, hfound, _, happ⟩
  cases hhorizons.symm.trans hfound
  have hlimited : ∀ z, h'.model.IsPoint z → h'.model.IsIntegral z → h.IsLimited limits z :=
    fun z => isLimited_of_isPoint hnumbered hstarts happ
  have hbelow : ∀ s, h.IsLimited limits s → ∃ z, h'.model.IsPoint z ∧ h'.model.IsIntegral z ∧
      ∀ i < h.model.vars.length, z i ≤ s i := fun s =>
    exists_isPoint_below ht hbuilt hdefects hgraph hm hnumbered hstarts hx hroom happ
  have hexists : (∀ n ∈ h.view.nodes, limits.capacityOf? n.kind ≠ some 0) →
      ∃ z, h'.model.IsOptimum z := fun hunits =>
    exists_isOptimum ht hm happ.objective happ.objectiveValue hlimited hbelow
      (exists_isLimited ht hfit hgraph hm hstarts hunits)
  refine ⟨ids, h', hadd, hbelow, ⟨?_, hexists⟩, fun entries heq => ?_, fun z hz => ?_⟩
  · rintro ⟨z, hz⟩ n hn
    have hstart := (h.model.isIntegral_iff z).mp (hlimited z hz.point hz.integral).integral
    exact (hlimited z hz.point hz.integral).issues.capacityOf?_ne_zero hn
      (hstart _ (hstarts n hn) rfl)
  · rw [heq] at hexists
    exact hexists fun n _ => Limits.capacityOf?_ofEntries_ne_zero entries n.kind
  · refine ⟨hlimited z hz.point hz.integral, fun s hs => ?_⟩
    rcases hbelow s hs with ⟨y, hpoint, hintegral, hle⟩
    have hbest := hz.best y hpoint hintegral
    rw [happ.objective, hm.direction] at hbest
    simp only [happ.objectiveValue] at hbest
    exact le_trans hbest (objectiveValue_le ht hm hle)

/-- Three additions in two blocks share one adder, after they were scheduled without
    pipelining and without limits. -/
theorem timeIndexed_reaches_optimum_additions :
    ∃ (e₁ e₂ : Engine Rat) (h h' : Handle Rat) (ids : List Nat),
      Graph.additions.IsBuilt ∧
      perform (load Graph.additions) (fresh .noPipeline oracle true) = (.ok ⟨⟩, e₁) ∧
      perform build e₁ = (.ok ⟨⟩, e₂) ∧ e₂.view = some h.view ∧ h.model = e₂.model ∧
      h.IsSatisfied ∧
      perform (addResources Limits.oneAdder (.timeIndexed none)) h = (.ok ids, h') ∧
      (∀ s, h.IsLimited Limits.oneAdder s →
        ∃ z, h'.model.IsPoint z ∧ h'.model.IsIntegral z ∧
          ∀ i < h.model.vars.length, z i ≤ s i) ∧
      ((∃ z, h'.model.IsOptimum z) ↔
        ∀ n ∈ h.view.nodes, Limits.oneAdder.capacityOf? n.kind ≠ some 0) ∧
      (∀ entries, Limits.oneAdder = (Limits.ofEntries entries).1 → ∃ z, h'.model.IsOptimum z) ∧
      ∀ z, h'.model.IsOptimum z → h.IsLimited Limits.oneAdder z ∧
        ∀ s, h.IsLimited Limits.oneAdder s →
          h.model.objectiveValue z ≤ h.model.objectiveValue s := by
  have hfit := Graph.fit_of_defects Graph.additions_defects
  rcases exists_load .noPipeline oracle true Graph.additions_defects with ⟨e₁, hload⟩
  rcases exists_build_noPipeline hload with ⟨e₂, hbuild⟩
  rcases build_renders hload hbuild with ⟨v, m, hview, hm, rfl⟩
  rcases Discipline.asap_exists_solution true hfit hview with ⟨y, hy⟩
  rcases Discipline.exists_solution_of_startsHold (.inr rfl) (hfit.node_names_nodup hview)
    (Discipline.asap_isSolution_iff.mp hy) with ⟨z, hz, _⟩
  have hstatus := oracle_hasAssignment (hm.feasible_iff.mpr ⟨z, hz⟩) 0
  rcases oracle_sound 0 m hstatus with ⟨x, hx⟩
  -- The borrower solves the model that was built before limits are added.
  let h : Handle Rat := ((builtWith .noPipeline oracle true v m).handle v).solve
  have hsolved : h.IsSatisfied := ⟨x, _, rfl, hstatus, hx⟩
  rcases timeIndexed_reaches_optimum (.inr rfl) Graph.additions_isBuilt hload hbuild rfl rfl
    hsolved Limits.oneAdder with ⟨ids, h', hadd, hbelow, hexists, hentries, hoptima⟩
  exact ⟨e₁, _, h, h', ids, Graph.additions_isBuilt, hload, hbuild, rfl, rfl, hsolved, hadd,
    hbelow, hexists, hentries, hoptima⟩

end Engine

end CyclePlan
