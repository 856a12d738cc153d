import CyclePlan.Proofs.DerivedHorizon
import CyclePlan.Proofs.Engine.Ordered
import CyclePlan.Proofs.Resource.Waiting

/-!
# Ordered Problems

Ordering never makes a problem unsolvable that has no intervals.

Without intervals nothing keeps start cycles from above, so a model has points as long
as its arcs have a potential, and the arcs of ordering and those of the dependencies
have one together. The only way to lose all points is a class without any units, with
an operation that takes time (`Discipline.ordered_solvable_iff`). Limits that are made
from entries never have such a class.

What is wanted to be small is a natural number at every point, so there is an optimum
as well. As soon as possible, it starts every operation after the longest path of
dependencies and operations that wait (`Discipline.ordered_asap_isLeast`).

## Theorems

* `Discipline.ordered_solvable_iff`: When there is a solution.
* `Discipline.ordered_asap_isLeast`: The earliest one.
* `Engine.OrderedBy.exists_solve`: An exact solver finds an optimum.
* `Engine.ordering_keeps_solvable`: What solving an ordered problem leads to.
-/

namespace CyclePlan

open Arc View

/-- Limits that are made from entries have units for every class. -/
theorem View.freeUnits_of_entries {v : View Rat} {ls : List Limits}
    (hentries : ∀ limits ∈ ls, ∃ entries, limits = (Limits.ofEntries entries).1) :
    v.FreeUnits ls := by
  intro limits hlimits n _ hzero
  rcases hentries limits hlimits with ⟨entries, rfl⟩
  exact absurd hzero (Limits.capacityOf?_ofEntries_ne_zero entries n.kind)

namespace Discipline

variable {t : Discipline} {v : View Rat} {sameBlockOnly : Bool} {ls : List Limits}
  {g : Graph Rat} {d : View.Node Rat → Int} {y : String → Rat}

/-- Ordered problems have a solution exactly if operations without units take no time. -/
theorem ordered_solvable_iff (ht : t = .asap ∨ t = .noPipeline) (hfit : g.Fit)
    (hview : View.ofGraph g = .ok v) :
    (∃ y, ((t.program v sameBlockOnly).withRows (ls.flatMap (waitingRows v))).IsSolution y) ↔
      v.FreeUnits ls := by
  have hnames := hfit.node_names_nodup hview
  constructor
  · rintro ⟨y, hy⟩
    rcases Program.isSolution_withRows_iff.mp hy with ⟨hbase, hrows⟩
    have hstarts := startsHold_of_isSolution hbase
    have hmeets := (startsHold_and_waits_iff (times_floor hstarts.whole)).mp ⟨hstarts, hrows⟩
    exact freeUnits_of_meets hfit hview hmeets.2
  · intro hfree
    rcases exists_longest_ordered sameBlockOnly hfit hview hfree with ⟨d, hd⟩
    rcases exists_times hnames d 0 with ⟨y, hy, _⟩
    have hmeets := And.intro (fun n (_ : n ∈ v.nodes) => (hd n).nonneg) (meets_of_longest hd)
    -- The other variables can be chosen so that the discipline is satisfied too.
    rcases exists_solution_of_startsHold ht hnames ((startsHold_and_waits_iff hy).mpr hmeets).1
      with ⟨z, hz, hsame⟩
    have htimes : v.Times d z := fun n hn => (hsame n hn).trans (hy n hn)
    exact ⟨z, Program.isSolution_withRows_iff.mpr
      ⟨hz, ((startsHold_and_waits_iff htimes).mpr hmeets).2⟩⟩

/-- As soon as possible, the longest paths of dependencies and operations that wait are
    the least solution. -/
theorem ordered_asap_isLeast
    (hd : ∀ n, IsLongest (v.orderedArcs sameBlockOnly ls) cycles n (d n)) (hy : v.Times d y) :
    ((program .asap v sameBlockOnly).withRows (ls.flatMap (waitingRows v))).IsLeast v y := by
  refine ⟨?_, fun z hz n hn => ?_⟩
  · have hstarts := (startsHold_and_waits_iff hy).mpr
      ⟨fun n _ => (hd n).nonneg, meets_of_longest hd⟩
    exact Program.isSolution_withRows_iff.mpr ⟨asap_isSolution_iff.mpr hstarts.1, hstarts.2⟩
  · -- Any other solution is a potential too, and the longest paths are below it.
    rcases Program.isSolution_withRows_iff.mp hz with ⟨hbase, hrows⟩
    have hstarts := asap_isSolution_iff.mp hbase
    have hc := times_floor hstarts.whole
    rcases (startsHold_and_waits_iff hc).mp ⟨hstarts, hrows⟩ with ⟨hnonneg, hmeets⟩
    have hle := (hd n).le hmeets (hnonneg n hn) fun a ha =>
      hnonneg _ (orderedArcs_mem_nodes ha).1
    rw [hy n hn, hc n hn]
    exact_mod_cast hle

end Discipline

namespace Engine

variable {t : Discipline} {solver : Solver Rat} {sameBlockOnly : Bool} {g : Graph Rat}
  {v : View Rat} {m : Model Rat} {ls : List Limits} {e e' e₁ : Engine Rat}

/-- An ordered problem that has points has an optimum. -/
theorem OrderedBy.exists_isOptimum (ht : t = .asap ∨ t = .noPipeline)
    (hm : m.Renders (t.program v sameBlockOnly))
    (hordered : OrderedBy (builtWith t solver sameBlockOnly v m) ls e)
    (hsome : ∃ x, e.model.IsPoint x ∧ e.model.IsIntegral x) : ∃ x, e.model.IsOptimum x := by
  have hprogram := hordered.renders hm
  refine Model.exists_isOptimum_of_nat hprogram.direction (fun x hx hint => ?_) hsome
  rw [hprogram.value]
  have hbase := (Program.isSolution_withRows_iff.mp
    ((hprogram.isSolution_iff x).mp ⟨hx, hint⟩)).1
  exact Discipline.exists_nat_goal ht hbase

/-- An exact solver finds an optimum unless an operation that takes time has no unit. -/
theorem OrderedBy.exists_solve (ht : t = .asap ∨ t = .noPipeline) (hexact : solver.Exact)
    (hfit : g.Fit) (hview : View.ofGraph g = .ok v)
    (hm : m.Renders (t.program v sameBlockOnly))
    (hordered : OrderedBy (builtWith t solver sameBlockOnly v m) ls e) (hfree : v.FreeUnits ls) :
    ∃ e' x, perform solve e = (.ok .optimal, e') ∧
      (solver e.asked e.model).Carries e.model x ∧ e.model.IsOptimum x := by
  have hsolver := (continues_of_reaches hordered.reaches).2.1
  have hsome := (hordered.renders hm).feasible_iff.mpr
    ((Discipline.ordered_solvable_iff ht hfit hview).mpr hfree)
  exact exists_solve_of_isOptimum hexact hordered.settled hsolver
    (hordered.exists_isOptimum ht hm hsome)

/-- As soon as possible, an optimum starts every operation after the longest path. -/
theorem OrderedBy.starts_of_isOptimum
    (hm : m.Renders (Discipline.program .asap v sameBlockOnly))
    (hordered : OrderedBy (builtWith .asap solver sameBlockOnly v m) ls e)
    (hnames : (v.nodes.map (·.name)).Nodup) {d : View.Node Rat → Int}
    (hd : ∀ n, IsLongest (v.orderedArcs sameBlockOnly ls) cycles n (d n)) {x : Nat → Rat}
    (hx : e.model.IsOptimum x) : v.Times d (e.model.valueOf x) := by
  have hprogram := hordered.renders hm
  rcases exists_times hnames d 0 with ⟨y, hy, _⟩
  have hleast := Discipline.ordered_asap_isLeast hd hy
  have hsame := hleast.eq_of_isBest (Discipline.asap_sumsStarts.withRows _)
    ((hprogram.isOptimum_iff x).mp hx)
  exact fun n hn => (hsame n hn).trans (hy n hn)

/-- As soon as possible and without pipelining, any number of ordering calls leaves a
    model that has points, unless an operation that takes time is left without any unit,
    which limits that are made from entries never bring about. Then an exact solver finds
    an optimum, and as soon as possible its schedule is that of the longest paths of
    dependencies and operations that wait, with latencies rounded up. -/
theorem ordering_keeps_solvable (ht : t = .asap ∨ t = .noPipeline) (hexact : solver.Exact)
    (hload : perform (load g) (fresh t solver sameBlockOnly) = (.ok ⟨⟩, e₁)) :
    ∃ v e₂, View.ofGraph g = .ok v ∧ perform build e₁ = (.ok ⟨⟩, e₂) ∧
      ∀ ls e, OrderedBy e₂ ls e →
        e.view = some v ∧
        (∀ limits, ∃ ids h, perform (addResources limits .ordering) (e.handle v) = (.ok ids, h)) ∧
        ((∃ x, e.model.IsPoint x ∧ e.model.IsIntegral x) ↔ v.FreeUnits ls) ∧
        ((∀ limits ∈ ls, ∃ entries, limits = (Limits.ofEntries entries).1) → v.FreeUnits ls) ∧
        (v.FreeUnits ls → ∃ e', perform solve e = (.ok .optimal, e') ∧
          (t = .asap → ∃ (s : Schedule Rat) (d : View.Node Rat → Int), e'.schedule = .ok s ∧
            (∀ n, IsLongest (v.orderedArcs sameBlockOnly ls) cycles n (d n)) ∧
            ∀ n ∈ v.nodes, s.cycle? n.name = some (d n))) := by
  have hfit := Graph.fit_of_defects (load_ok_iff.mp hload).1
  have hbuild : ∃ e₂, perform build e₁ = (.ok ⟨⟩, e₂) := by
    rcases ht with rfl | rfl
    · exact exists_build_asap hload
    · exact exists_build_noPipeline hload
  rcases hbuild with ⟨e₂, hbuild⟩
  rcases build_renders hload hbuild with ⟨v, m, hview, hm, rfl⟩
  have hnames := hfit.node_names_nodup hview
  refine ⟨v, _, hview, hbuild, fun ls e hordered => ?_⟩
  have hprogram := hordered.renders hm
  rcases continues_of_reaches hordered.reaches with ⟨hsame, _, hadds⟩
  have hsolvable : (∃ x, e.model.IsPoint x ∧ e.model.IsIntegral x) ↔ v.FreeUnits ls :=
    hprogram.feasible_iff.trans (Discipline.ordered_solvable_iff ht hfit hview)
  refine ⟨hsame, fun limits => ⟨_, _, perform_addOrdering (fun n hn => ?_) limits⟩,
    hsolvable, freeUnits_of_entries, fun hfree => ?_⟩
  · exact (Discipline.knows_startVar_of_renders hm n hn).of_isPrefix hadds.vars
  · rcases hordered.exists_solve ht hexact hfit hview hm hfree with
      ⟨e', x, hsolve, hcarries, hoptimum⟩
    refine ⟨e', hsolve, ?_⟩
    rintro rfl
    rcases exists_longest_ordered sameBlockOnly hfit hview hfree with ⟨d, hd⟩
    have htimes := hordered.starts_of_isOptimum hm hnames hd hoptimum
    rcases solved_realizes hnames hm hordered.reaches hsolve rfl hcarries hoptimum.integral with
      ⟨s, hschedule, _, _, hreal⟩
    rw [hordered.valueOf_eq hm] at htimes
    exact ⟨s, d, hschedule, hd, fun n hn =>
      (hreal.cycle_iff n.name (d n)).mpr ⟨⟨n, hn, rfl⟩, htimes n hn⟩⟩

/-- Three additions in two blocks, ordered for one adder and then once more. -/
theorem ordering_keeps_solvable_additions :
    oracle.Exact ∧ ∃ e₁,
      perform (load Graph.additions) (fresh .asap oracle true) = (.ok ⟨⟩, e₁) ∧
      ∃ v e₂, View.ofGraph Graph.additions = .ok v ∧ perform build e₁ = (.ok ⟨⟩, e₂) ∧
        ∃ e e', OrderedBy e₂ [Limits.oneAdder, Limits.oneAdder] e ∧
          perform solve e = (.ok .optimal, e') ∧
          ∃ (s : Schedule Rat) (d : View.Node Rat → Int), e'.schedule = .ok s ∧
            (∀ n, IsLongest (v.orderedArcs true [Limits.oneAdder, Limits.oneAdder]) cycles n
              (d n)) ∧
            ∀ n ∈ v.nodes, s.cycle? n.name = some (d n) := by
  rcases exists_load .asap oracle true Graph.additions_defects with ⟨e₁, hload⟩
  rcases ordering_keeps_solvable (.inl rfl) oracle_exact hload with
    ⟨v, e₂, hview, hbuild, hordered⟩
  -- The second call is made after a solve, on a handle of its own.
  have hcalls := ((OrderedBy.start (e := e₂)).ordered [Limits.oneAdder]).solved.ordered
    [Limits.oneAdder]
  rcases hordered _ _ hcalls with ⟨_, _, _, hentries, hsolve⟩
  have hmade : ∀ limits ∈ [Limits.oneAdder, Limits.oneAdder], ∃ entries,
      limits = (Limits.ofEntries entries).1 := by
    intro limits hlimits
    rw [List.mem_cons, List.mem_singleton, or_self] at hlimits
    exact ⟨[("add", 1)], hlimits.trans rfl⟩
  rcases hsolve (hentries hmade) with ⟨e', hoptimal, hschedule⟩
  exact ⟨oracle_exact, e₁, hload, v, e₂, hview, hbuild, _, e', hcalls, hoptimal, hschedule rfl⟩

end Engine

end CyclePlan
