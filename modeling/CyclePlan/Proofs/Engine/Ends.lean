import CyclePlan.Proofs.Engine.Potentials
import CyclePlan.Proofs.Engine.Solved
import CyclePlan.Proofs.Lp.Oracle

/-!
# The Ends of Blocks

What the disciplines that look at last nodes ask for, and how ends are read.

Two disciplines treat the last node of a block in a way of its own. As late as
possible bounds it by a cycle that the caller gives, without pipelining it is
covered by the latency variable. Both are timing programs with one more condition on
the sinks (`alap_isSolution_iff`, `noPipeline_isSolution_iff`). Neither can be refused
for what it adds, except that a bound may be missing.

After solving, the start cycles of the sinks can be asked for on their own. They are
the same numbers that the schedule has (`solved_ends`).

## Main definitions

* `View.EndsAt`: A map gives the sinks their start cycles.

## Theorems

* `Discipline.alap_isSolution_iff`, `Discipline.noPipeline_isSolution_iff`: What
  solutions are.
* `Engine.exists_build_alap`, `Engine.exists_build_noPipeline`: Where building succeeds.
* `Engine.solved_ends`: The ends that are read from a solved engine.
* `Engine.exists_solves`, `Engine.exists_solves_asap`: What an exact solver leads to.
-/

namespace CyclePlan

/-! ### Rows -/

namespace Row

variable {y : String → Rat} {sink : View.Node Rat}

theorem sinkBound_holds_iff {bounds : NameMap Int} :
    (sinkBound bounds sink).Holds y ↔
      y (startVar sink.name) ≤ ((bounds.get? sink.name).getD 0 : Int) := by
  simp only [Holds, sinkBound, Relation.Holds, sum, List.map_cons, List.map_nil, List.sum_cons,
    List.sum_nil, one_mul, add_zero]
  exact Iff.rfl

theorem sinkCover_holds_iff :
    (sinkCover sink).Holds y ↔ y (startVar sink.name) ≤ y maxLatencyVar := by
  simp only [Holds, sinkCover, Relation.Holds, sum, List.map_cons, List.map_nil, List.sum_cons,
    List.sum_nil]
  constructor <;> intro h <;> linarith

end Row

theorem View.mem_sinks_iff {v : View Rat} {n : View.Node Rat} :
    n ∈ v.sinks ↔ n ∈ v.nodes ∧ n.kind = .superSink := by
  rw [sinks, List.mem_filter, beq_iff_eq]

namespace Discipline

variable {v : View Rat} {sameBlockOnly : Bool} {y : String → Rat}

/-- As late as possible, the sinks keep within their bounds. -/
theorem alap_isSolution_iff {bounds : NameMap Int} :
    (program (.alap bounds) v sameBlockOnly).IsSolution y ↔
      StartsHold v sameBlockOnly y ∧
        ∀ n ∈ v.sinks, y (startVar n.name) ≤ ((bounds.get? n.name).getD 0 : Int) := by
  rw [isSolution_iff]
  refine and_congr_right fun _ => ?_
  constructor
  · rintro ⟨_, hrows⟩ n hn
    exact Row.sinkBound_holds_iff.mp (hrows _ (List.mem_map_of_mem hn))
  · intro hbounds
    refine ⟨fun w hw => absurd hw List.not_mem_nil, fun r hr => ?_⟩
    rcases List.mem_map.mp hr with ⟨n, hn, rfl⟩
    exact Row.sinkBound_holds_iff.mpr (hbounds n hn)

/-- Without pipelining, the latency variable is above the sinks. -/
theorem noPipeline_isSolution_iff :
    (program .noPipeline v sameBlockOnly).IsSolution y ↔
      StartsHold v sameBlockOnly y ∧ (∃ k : Int, y maxLatencyVar = k) ∧ 0 ≤ y maxLatencyVar ∧
        ∀ n ∈ v.sinks, y (startVar n.name) ≤ y maxLatencyVar := by
  rw [isSolution_iff]
  refine and_congr_right fun _ => ?_
  constructor
  · rintro ⟨hvars, hrows⟩
    rcases hvars _ List.mem_cons_self with ⟨hadmits, hwhole⟩
    refine ⟨hwhole rfl, admits_lower_iff.mp hadmits, fun n hn => ?_⟩
    exact Row.sinkCover_holds_iff.mp (hrows _ (List.mem_map_of_mem hn))
  · rintro ⟨hwhole, hsign, hcover⟩
    refine ⟨fun w hw => ?_, fun r hr => ?_⟩
    · rw [List.mem_singleton.mp hw]
      exact ⟨admits_lower_iff.mpr hsign, fun _ => hwhole⟩
    · rcases List.mem_map.mp hr with ⟨n, hn, rfl⟩
      exact Row.sinkCover_holds_iff.mpr (hcover n hn)

end Discipline

/-! ### Building -/

namespace Engine

variable {solver : Solver Rat} {sameBlockOnly : Bool} {g : Graph Rat} {e : Engine Rat}

/-- As late as possible can be built if every sink has a bound. -/
theorem exists_build_alap {bounds : NameMap Int}
    (hload : perform (load g) (fresh (.alap bounds) solver sameBlockOnly) = (.ok ⟨⟩, e))
    (hbounds : ∀ v, View.ofGraph g = .ok v → ∀ n ∈ v.sinks, (bounds.get? n.name).isSome = true) :
    ∃ e', perform build e = (.ok ⟨⟩, e') := by
  have hbuildable : ∀ v, View.ofGraph g = .ok v → (Discipline.alap bounds).IsBuildable v := by
    intro v hview n hn
    rcases Option.isSome_iff_exists.mp (hbounds v hview n hn) with ⟨bound, hbound⟩
    exact ⟨bound, hbound, rfl⟩
  rcases exists_build hload hbuildable with ⟨v, m, _, _, hbuild⟩
  exact ⟨_, hbuild⟩

/-- Without pipelining, building always succeeds. -/
theorem exists_build_noPipeline
    (hload : perform (load g) (fresh .noPipeline solver sameBlockOnly) = (.ok ⟨⟩, e)) :
    ∃ e', perform build e = (.ok ⟨⟩, e') := by
  rcases exists_build hload fun _ _ => trivial with ⟨v, m, _, _, hbuild⟩
  exact ⟨_, hbuild⟩

end Engine

/-! ### Reading -/

/-- A map gives the sinks of a view their start cycles, and has no other entries. -/
def View.EndsAt (v : View Rat) (ends : NameMap Int) (y : String → Rat) : Prop :=
  ∀ name (c : Int), ends.get? name = some c ↔
    (∃ n ∈ v.sinks, n.name = name) ∧ y (startVar name) = c

namespace Engine

variable {t : Discipline} {solver : Solver Rat} {sameBlockOnly : Bool} {v : View Rat}
  {m : Model Rat} {e e' : Engine Rat} {outcome : Outcome} {x : Nat → Rat} {s : Solution Rat}

/-- The start cycle of a sink in a solution, if there is one. -/
def endOf (s : Solution Rat) (n : View.Node Rat) : Except (SchedulingError Rat) (String × Int) :=
  match s.int? (startVar n.name) with
  | some cycle => .ok (n.name, cycle)
  | none => .error (.graph (.unknownNode n.name))

theorem endCycles_eq (hphase : e.phase = .solved) (hs : e.solution = some s)
    (hv : e.view = some v) :
    e.endCycles = (v.sinks.mapM (endOf s)).map NameMap.ofList := by
  have hstep : e.endCycles = (do return .ofList (← v.sinks.mapM (endOf s))) := by
    rw [endCycles, solved, hphase, hs, hv]
    rfl
  rw [hstep]
  cases v.sinks.mapM (endOf s) <;> rfl

theorem endOf_eq_ok_iff {n : View.Node Rat} {entry : String × Int} :
    endOf s n = .ok entry ↔ entry.1 = n.name ∧ s.int? (startVar n.name) = some entry.2 := by
  rw [endOf]
  cases s.int? (startVar n.name) with
  | none => simp
  | some cycle =>
      rw [Except.ok.injEq, Option.some.injEq]
      exact ⟨fun h => h ▸ ⟨rfl, rfl⟩, fun ⟨hname, hcycle⟩ => Prod.ext hname.symm hcycle⟩

/-- The ends that are read from a solution are the start cycles of the sinks, under their
    names. -/
theorem get?_ends_iff (hnames : (v.nodes.map (·.name)).Nodup) {entries : List (String × Int)}
    (hloop : v.sinks.mapM (endOf s) = .ok entries) {name : String} {c : Int} :
    (NameMap.ofList entries).get? name = some c ↔
      ∃ n ∈ v.sinks, n.name = name ∧ s.int? (startVar name) = some c := by
  rcases mapM_ok_iff.mp hloop with ⟨entryOf, hall, rfl⟩
  have hentry := fun n hn => endOf_eq_ok_iff.mp (hall n hn)
  have hkeys : (v.sinks.map entryOf).map (·.1) = v.sinks.map (·.name) := by
    rw [List.map_map]
    exact List.map_congr_left fun n hn => (hentry n hn).1
  have hnodup : ((v.sinks.map entryOf).map (·.1)).Nodup :=
    hkeys ▸ (List.filter_sublist.map _).nodup hnames
  rw [NameMap.get?_ofList_iff hnodup, List.mem_map]
  constructor
  · rintro ⟨n, hn, heq⟩
    rcases hentry n hn with ⟨hname, hvalue⟩
    rw [heq] at hname hvalue
    cases hname
    exact ⟨n, hn, rfl, hvalue⟩
  · rintro ⟨n, hn, rfl, hc⟩
    rcases hentry n hn with ⟨hname, hvalue⟩
    exact ⟨n, hn, Prod.ext hname (Option.some.inj (hvalue.symm.trans hc))⟩

/-- The ends of a solved engine are the values of the solution. -/
theorem solved_ends (hnames : (v.nodes.map (·.name)).Nodup)
    (hm : m.Renders (t.program v sameBlockOnly))
    (hrun : Reaches Model.Adds (builtWith t solver sameBlockOnly v m) e)
    (hsolve : perform solve e = (.ok outcome, e')) (hassign : outcome.hasAssignment = true)
    (hcarries : (solver e.asked e.model).Carries e.model x)
    (hintegral : e.model.IsIntegral x) :
    ∃ ends, e'.endCycles = .ok ends ∧ v.EndsAt ends (m.valueOf x) := by
  rcases continues_of_reaches hrun with ⟨hview, hsolver, hadds⟩
  rcases perform_solve_ok_iff.mp hsolve with ⟨_, _, rfl⟩
  -- Borrowers may have added variables, but the start cycles are still read.
  have hreads : ∀ n ∈ v.sinks, (solver e.asked e.model).Reads m x (startVar n.name) := by
    intro n hn
    have hmem := Discipline.startVariable_mem_of_renders hm n (View.mem_sinks_iff.mp hn).1
    exact reads_of_adds hadds hcarries hintegral hmem rfl
  choose! c hvalue hread using hreads
  have hloop : v.sinks.mapM (endOf (e.solver e.asked e.model))
      = .ok (v.sinks.map fun n => (n.name, c n)) := by
    refine mapM_ok_iff.mpr ⟨fun n => (n.name, c n), fun n hn => ?_, rfl⟩
    rw [endOf, hsolver, hread n hn]
  have hends := endCycles_eq (e := { e with
      phase := phaseAfter outcome, solution := some (e.solver e.asked e.model),
      outcome := some outcome, asked := e.asked + 1 })
    (phaseAfter_of_hasAssignment hassign) rfl hview
  rw [hloop] at hends
  refine ⟨_, hends, fun name k => ?_⟩
  rw [get?_ends_iff hnames hloop]
  constructor
  · rintro ⟨n, hn, rfl, hk⟩
    rw [hsolver, hread n hn] at hk
    cases hk
    exact ⟨⟨n, hn, rfl⟩, hvalue n hn⟩
  · rintro ⟨⟨n, hn, rfl⟩, hk⟩
    refine ⟨n, hn, rfl, ?_⟩
    rw [hvalue n hn] at hk
    rw [hsolver, hread n hn, Int.cast_injective hk]

/-- A schedule has the objective value that the solver reports. -/
theorem schedule_objective {found : Schedule Rat} (hview : e.view = some v)
    (hsolve : perform solve e = (.ok outcome, e')) (hassign : outcome.hasAssignment = true)
    (hschedule : e'.schedule = .ok found) :
    found.objective = (e.solver e.asked e.model).objective := by
  rcases perform_solve_ok_iff.mp hsolve with ⟨_, _, rfl⟩
  have hread := schedule_solved (e := { e with
      phase := phaseAfter outcome, solution := some (e.solver e.asked e.model),
      outcome := some outcome, asked := e.asked + 1 })
    (phaseAfter_of_hasAssignment hassign) rfl hview rfl
  rw [← Except.ok.inj (hread.symm.trans hschedule)]

/-- A graph is taken, built and solved with an outcome, and its schedule and its ends can
    be read. -/
def Solves (t : Discipline) (solver : Solver Rat) (sameBlockOnly : Bool) (g : Graph Rat)
    (outcome : Outcome) (s : Schedule Rat) (ends : NameMap Int) : Prop :=
  ∃ e₁ e₂ e₃, perform (load g) (fresh t solver sameBlockOnly) = (.ok ⟨⟩, e₁) ∧
    perform build e₁ = (.ok ⟨⟩, e₂) ∧ perform solve e₂ = (.ok outcome, e₃) ∧
    e₃.schedule = .ok s ∧ e₃.endCycles = .ok ends

/-- With an exact solver, a program that has a best solution is solved by one. -/
theorem exists_solves {g : Graph Rat} {e₁ e₂ : Engine Rat} {y : String → Rat}
    (hexact : solver.Exact)
    (hload : perform (load g) (fresh t solver sameBlockOnly) = (.ok ⟨⟩, e₁))
    (hbuild : perform build e₁ = (.ok ⟨⟩, e₂)) (hview : View.ofGraph g = .ok v)
    (hbest : (t.program v sameBlockOnly).IsBest y) :
    ∃ s ends z, Solves t solver sameBlockOnly g .optimal s ends ∧
      (t.program v sameBlockOnly).IsBest z ∧ s.Realizes v z ∧ v.EndsAt ends z ∧
      (solver.ReportsObjective → s.objective = some (Row.sum (t.goal v) z)) := by
  have hnames := (Graph.fit_of_defects (load_ok_iff.mp hload).1).node_names_nodup hview
  rcases build_renders hload hbuild with ⟨w, m, hw, hm, rfl⟩
  cases hview.symm.trans hw
  rcases exists_solve_optimal hexact hm hbest with ⟨e₃, x, hsolve, hcarries, hoptimum⟩
  rcases solved_realizes hnames hm .start hsolve rfl hcarries hoptimum.integral with
    ⟨s, hschedule, _, _, hreal⟩
  rcases solved_ends hnames hm .start hsolve rfl hcarries hoptimum.integral with
    ⟨ends, hends, hat⟩
  refine ⟨s, ends, m.valueOf x, ⟨e₁, _, e₃, hload, hbuild, hsolve, hschedule, hends⟩,
    (hm.isOptimum_iff x).mp hoptimum, hreal, hat, fun hreports => ?_⟩
  -- Whatever assignment the value belongs to, it gives the variables the same values.
  have hstatus := (hexact.optimal 0 m ⟨x, hoptimum⟩).1
  rcases hreports 0 m (by rw [hstatus]; rfl) with ⟨x', hcarries', hvalue⟩
  rw [schedule_objective rfl hsolve rfl hschedule]
  change (solver 0 m).objective = _
  rw [hvalue, hm.value]
  refine congrArg some (Row.sum_congr fun t ht => ?_)
  have hsame := (hcarries'.value? (hm.known t ht)).symm.trans (hcarries.value? (hm.known t ht))
  exact Option.some.inj hsame

/-- With an exact solver, scheduling as soon as possible starts the nodes at their longest
    paths. -/
theorem exists_solves_asap {g : Graph Rat} {e₁ : Engine Rat} {d : View.Node Rat → Int}
    (hexact : solver.Exact)
    (hload : perform (load g) (fresh .asap solver sameBlockOnly) = (.ok ⟨⟩, e₁))
    (hview : View.ofGraph g = .ok v)
    (hd : ∀ n, Arc.IsLongest (v.forwardArcs sameBlockOnly) (View.lag 0) n (d n)) :
    ∃ s ends a, Solves .asap solver sameBlockOnly g .optimal s ends ∧ s.Realizes v a ∧
      v.EndsAt ends a ∧ Discipline.StartsHold v sameBlockOnly a ∧ v.Times d a := by
  have hnames := (Graph.fit_of_defects (load_ok_iff.mp hload).1).node_names_nodup hview
  rcases exists_build_asap hload with ⟨e₂, hbuild⟩
  rcases View.exists_times hnames d 0 with ⟨x, hx, _⟩
  have hleast := Discipline.asap_isLeast hd hx
  rcases exists_solves hexact hload hbuild hview (hleast.isBest Discipline.asap_sumsStarts) with
    ⟨s, ends, a, hsolves, hbest, hreal, hends, _⟩
  refine ⟨s, ends, a, hsolves, hreal, hends, Discipline.asap_isSolution_iff.mp hbest.solution,
    fun n hn => ?_⟩
  rw [hleast.eq_of_isBest Discipline.asap_sumsStarts hbest n hn, hx n hn]

end Engine

end CyclePlan
