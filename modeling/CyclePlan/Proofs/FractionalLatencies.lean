import Mathlib.Algebra.Group.Ext
import Mathlib.Data.List.Permutation
import CyclePlan.Proofs.Lp.NearlyWhole
import CyclePlan.Proofs.Soundness

/-!
# Fractional Latencies

Where the solver of every run can be trusted with latencies that are not whole.

The solver takes start cycles that are within a millionth of whole numbers for
whole and rounds them, and the check of a schedule grants no tolerance at all. So
a latency that is a little more than a whole number is lost, and the check finds
the dependency (`exists_rounded_latency`).

Without overlap, a timing model only bounds differences of start cycles, from
below by latencies (`Discipline.isDifferential`). If all latencies are multiples of
one fraction that is more than a millionth, such as the thousandth part of a
cycle, start cycles are such multiples, too, and those that pass for whole are
whole. Then no dependency is broken (`builtIn_schedule_checks`).

## Main definitions

* `Row.IsDifference`, `Program.IsDifferential`: Programs that bound differences.
* `Graph.chain`: A latency that is lost.

## Theorems

* `Model.Renders.isDifferential`: Models of such programs.
* `Discipline.isDifferential`: The programs of disciplines without overlap.
* `Engine.builtIn_schedule_checks`: Schedules pass the check.
-/

namespace CyclePlan

/-- The left side of a row is the value of one name less that of another, where either
    may be missing. -/
def Row.IsDifference (r : Row) : Prop :=
  ∃ u v : Option String, ∀ y, sum r.terms y = u.elim 0 y - v.elim 0 y

/-- All variables have whole bounds, all rows bound differences by numbers on a grid, and
    the goal is whole. -/
structure Program.IsDifferential (f : Program) (D : Nat) : Prop where
  bounds : ∀ v ∈ f.vars, Bounds.IsWhole ⟨v.lower, v.upper⟩
  difference : ∀ r ∈ f.rows, r.IsDifference
  rhs : ∀ r ∈ f.rows, OnGrid D r.rhs
  goal : ∀ t ∈ f.goal, OnGrid 1 t.2

variable {D : Nat}

/-- Stored by number, a row is still a difference. -/
theorem Model.isDifference_stored (m : Model Rat) {r : Row} (h : r.IsDifference) :
    (m.stored r).IsDifference := by
  rcases h with ⟨u, v, hsum⟩
  have hname : ∀ (name : Option String) (x : Nat → Rat),
      name.elim 0 (m.valueOf x) = valueAt x (name.map m.indexOf) := by
    intro name x
    cases name <;> rfl
  refine ⟨u.map m.indexOf, v.map m.indexOf, fun x => ?_⟩
  rw [stored, m.evaluate_merge, hsum, hname, hname]

/-- The model of a program that bounds differences does so, too. -/
theorem Model.Renders.isDifferential {m : Model Rat} {f : Program} (h : m.Renders f)
    (hf : f.IsDifferential D) : m.IsDifferential D := by
  have hstored : ∀ c ∈ m.constraints, ∃ r ∈ f.rows, c.2 = m.stored r := by
    intro c hc
    have hmem : c.2 ∈ f.rows.map m.stored := by
      rw [← h.consists.stored]
      exact List.mem_map_of_mem hc
    rcases List.mem_map.mp hmem with ⟨r, hr, heq⟩
    exact ⟨r, hr, heq.symm⟩
  refine ⟨h.vars ▸ hf.bounds, fun c hc => ?_, fun c hc => ?_, fun x hx => ?_⟩
  · rcases hstored c hc with ⟨r, hr, heq⟩
    rw [heq]
    exact m.isDifference_stored (hf.difference r hr)
  · rcases hstored c hc with ⟨r, hr, heq⟩
    rw [heq]
    exact hf.rhs r hr
  · rw [h.value, Row.sum]
    refine .sum fun z hz => ?_
    rcases List.mem_map.mp hz with ⟨t, ht, rfl⟩
    exact (hf.goal t ht).mul (hx _)

namespace Discipline

variable {t : Discipline} {v : View Rat} {sameBlockOnly : Bool}

theorem isWhole_lower (n : Int) : Bounds.IsWhole ⟨some (n : Rat), none⟩ :=
  ⟨⟨n, rfl, .intCast n⟩, fun u hu => by cases hu⟩

/-- Start cycles begin with zero, and intervals with one. -/
theorem isWhole_bounds : ∀ w ∈ (t.program v sameBlockOnly).vars,
    Bounds.IsWhole ⟨w.lower, w.upper⟩ := by
  intro w hw
  rcases List.mem_append.mp hw with hw | hw
  · rcases List.mem_map.mp hw with ⟨n, _, rfl⟩
    exact isWhole_lower 0
  · rcases t with _ | _ | _ | ⟨_ | _⟩
    · cases hw
    · cases hw
    · cases List.mem_singleton.mp hw
      exact isWhole_lower 0
    · cases List.mem_singleton.mp hw
      exact isWhole_lower 1
    · rcases List.mem_cons.mp hw with rfl | hw
      · exact isWhole_lower 1
      · rcases List.mem_map.mp hw with ⟨b, _, rfl⟩
        exact isWhole_lower 1

theorem startTerms_whole {c : Rat} (hc : OnGrid 1 c) : ∀ t ∈ startTerms v c, OnGrid 1 t.2 := by
  intro t ht
  rcases List.mem_map.mp ht with ⟨n, _, rfl⟩
  exact hc

/-- The left side of the rows that compare two variables. -/
theorem isDifference_pair (a b : String) (relation : Relation) (rhs : Rat) :
    Row.IsDifference ⟨[(a, 1), (b, -1)], relation, rhs⟩ := by
  refine ⟨some a, some b, fun y => ?_⟩
  simp only [Row.sum, List.map_cons, List.map_nil, List.sum_cons, List.sum_nil, Option.elim_some]
  ring

/-- Without overlap, a discipline bounds differences of variables. -/
theorem isDifferential (ht : t.isPipelined = false) (hgrid : ∀ n ∈ v.nodes, OnGrid D n.latency) :
    (t.program v sameBlockOnly).IsDifferential D := by
  have hrows : ∀ r ∈ (t.program v sameBlockOnly).rows, r.IsDifference ∧ OnGrid D r.rhs := by
    intro r hr
    rcases List.mem_append.mp hr with hr | hr
    · rcases List.mem_map.mp hr with ⟨p, hp, rfl⟩
      have hproducer := (View.mem_nodes_of_forwardPairs (List.mem_of_mem_filter hp)).1
      exact ⟨isDifference_pair _ _ _ _, hgrid _ hproducer⟩
    · rcases t with _ | bounds | _ | _ <;> cases ht
      · cases hr
      · rcases List.mem_map.mp hr with ⟨sink, _, rfl⟩
        refine ⟨⟨some (startVar sink.name), none, fun y => ?_⟩, .intCast _⟩
        simp only [Row.sinkBound, Row.sum, List.map_cons, List.map_nil, List.sum_cons,
          List.sum_nil, Option.elim_some, Option.elim_none]
        ring
      · rcases List.mem_map.mp hr with ⟨sink, _, rfl⟩
        exact ⟨isDifference_pair _ _ _ _, .zero⟩
  have hgoal : ∀ s ∈ (t.program v sameBlockOnly).goal, OnGrid 1 s.2 := by
    rcases t with _ | _ | _ | _ <;> cases ht
    · exact startTerms_whole (.intCast 1)
    · exact startTerms_whole (.intCast (-1))
    · exact List.forall_mem_singleton.mpr (.intCast 1)
  exact ⟨isWhole_bounds, fun r hr => (hrows r hr).1, fun r hr => (hrows r hr).2, hgoal⟩

end Discipline

namespace Engine

variable {t : Discipline} {g : Graph Rat} {e₁ e₂ e₃ : Engine Rat} {outcome : Outcome}

/-- Without overlap, schedules of the solver of every run pass the check if latencies are
    multiples of one fraction of a cycle that is more than a millionth. -/
theorem builtIn_schedule_checks (hpos : 0 < D) (hfine : D < 1000000)
    (ht : t.isPipelined = false) (hgrid : ∀ op ∈ g.ops, OnGrid D op.latency)
    (hload : perform (load g) (fresh t (builtInSolver .standard) false) = (.ok ⟨⟩, e₁))
    (hbuild : perform build e₁ = (.ok ⟨⟩, e₂)) (hsolve : perform solve e₂ = (.ok outcome, e₃))
    (hassign : outcome.hasAssignment = true) :
    ∃ s, e₃.schedule = .ok s ∧ s.outcome = outcome ∧ s.checkDependencies g = .ok [] := by
  have hfit := Graph.fit_of_defects (load_ok_iff.mp hload).1
  rcases build_renders hload hbuild with ⟨v, m, hview, hm, rfl⟩
  have hlatency : ∀ n ∈ v.nodes, OnGrid D n.latency := by
    intro n hn
    rcases (View.mem_nodes_iff hview).mp hn with ⟨op, hop, _, heq⟩
    rw [heq]
    exact hgrid op (List.mem_of_getElem? hop)
  have hstatus : (builtInSolver .standard 0 m).status.hasAssignment = true := by
    rw [← hasAssignment_outcomeOf]
    exact (perform_solve_ok_iff.mp hsolve).2.1 ▸ hassign
  have hsmall : IsSmall D (SearchConfig.standard : SearchConfig Rat).tolerance :=
    isSmall_of_le hfine (by norm_num [SearchConfig.standard]) (le_refl _)
  rcases BranchAndBound.exists_isIntegralPoint_of_solve
    (hm.isDifferential (Discipline.isDifferential ht hlatency))
    (Tolerances.standard_isFine hpos hfine) hsmall pivotLimit hstatus with
    ⟨values, hcarries, hpoint⟩
  rcases solved_realizes (hfit.node_names_nodup hview) hm .start hsolve hassign hcarries
    hpoint.integral with ⟨s, hschedule, hout, hinterval, hreal⟩
  have hy := (hm.isSolution_iff _).mp ⟨hpoint.point, hpoint.integral⟩
  rw [achievedInterval?_plain ht (builtInSolver_keepsToVariables _) hm .start hsolve hassign]
    at hinterval
  refine ⟨s, hschedule, hout, hreal.checkDependencies_eq_nil hfit hview
    (fun p hp => hy.meets _ (Discipline.dependency_mem hp)) fun interval h => ?_⟩
  cases hinterval.symm.trans h

end Engine

/-! ### Two additions -/

/-- An addition of the given latency, and another one that needs its result. -/
def Graph.chain (latency : Rat) : Graph Rat where
  name := "chain"
  ops := [{ name := "a", kind := .add, block := 0, latency }, .ofKind "c" .add 0,
    .ofKind "ssrc_0" .superSource 0, .ofKind "ssink_0" .superSink 0]
  register := ["a", "c", "ssrc_0", "ssink_0"]
  edges := [⟨0, 1, false⟩, ⟨2, 0, false⟩, ⟨1, 3, false⟩]
  blocks := [{ id := 0, name := "b", members := [0, 1], source := some 2, sink := some 3 }]

/-- Its view. -/
def View.chain (latency : Rat) : View Rat where
  nodes := [⟨0, "a", .add, 0, latency⟩, ⟨1, "c", .add, 0, 1⟩, ⟨2, "ssrc_0", .superSource, 0, 0⟩,
    ⟨3, "ssink_0", .superSink, 0, 0⟩]
  forward := [⟨0, 1⟩, ⟨1, 3⟩, ⟨2, 0⟩]
  back := []
  order := [2, 0, 1, 3]
  stripped := []

theorem View.ofGraph_chain (latency : Rat) :
    View.ofGraph (Graph.chain latency) = .ok (View.chain latency) := by
  cbv

namespace Engine

/-- Where an engine ends up that takes a graph with a given view, builds its model as soon
    as possible and solves it. -/
def solvedFrom (name : String) (v : View Rat) : Engine Rat :=
  match allocate name v with
  | .ok m =>
    (perform solve (perform build (loadedWith .asap (builtInSolver .standard) false v m)).2).2
  | .error _ => fresh .asap (builtInSolver .standard) false

theorem exists_solvedFrom {v : View Rat} (hdefects : g.defects = [])
    (hview : View.ofGraph g = .ok v) :
    ∃ e₁ e₂ outcome,
      perform (load g) (fresh .asap (builtInSolver .standard) false) = (.ok ⟨⟩, e₁) ∧
      perform build e₁ = (.ok ⟨⟩, e₂) ∧
      perform solve e₂ = (.ok outcome, solvedFrom (g.name ++ "_" ++ Discipline.asap.name) v) ∧
      (solvedFrom (g.name ++ "_" ++ Discipline.asap.name) v).outcome = some outcome :=
  exists_solvedWith (builtInSolver .standard) false hdefects hview trivial

/-- Two and a half cycles are not lost. -/
theorem builtIn_schedule_checks_chain :
    0 < 2 ∧ 2 < 1000000 ∧ Discipline.asap.isPipelined = false ∧
      (∀ op ∈ (Graph.chain (5 / 2)).ops, OnGrid 2 op.latency) ∧
      ∃ e₁ e₂ e₃,
        perform (load (Graph.chain (5 / 2))) (fresh .asap (builtInSolver .standard) false)
          = (.ok ⟨⟩, e₁) ∧
        perform build e₁ = (.ok ⟨⟩, e₂) ∧ perform solve e₂ = (.ok .optimal, e₃) ∧
        Outcome.optimal.hasAssignment = true ∧
        ∃ s, e₃.schedule = .ok s ∧ s.outcome = .optimal ∧
          s.checkDependencies (Graph.chain (5 / 2)) = .ok [] := by
  have hdefects : (Graph.chain (5 / 2)).defects = [] := by decide +kernel
  have hgrid : ∀ op ∈ (Graph.chain (5 / 2)).ops, OnGrid 2 op.latency := by
    simp only [Graph.chain, List.forall_mem_cons]
    refine ⟨⟨5, by norm_num⟩, ⟨2, ?_⟩, ⟨0, ?_⟩, ⟨0, ?_⟩, fun _ h => absurd h List.not_mem_nil⟩ <;>
      decide +kernel
  rcases exists_solvedFrom hdefects (View.ofGraph_chain _) with
    ⟨e₁, e₂, outcome, hload, hbuild, hsolve, hout⟩
  have hoptimal : (solvedFrom "chain_asap" (View.chain (5 / 2))).outcome = some .optimal := by
    decide +kernel
  cases hout.symm.trans hoptimal
  exact ⟨by decide, by decide, rfl, hgrid, e₁, e₂, _, hload, hbuild, hsolve, rfl,
    builtIn_schedule_checks (by decide) (by decide) rfl hgrid hload hbuild hsolve rfl⟩

/-- Half a millionth of a cycle is lost. -/
theorem exists_rounded_latency :
    ∃ e₁ e₂ e₃ s vs,
      perform (load (Graph.chain 1.0000005)) (fresh .asap (builtInSolver .standard) false)
        = (.ok ⟨⟩, e₁) ∧
      perform build e₁ = (.ok ⟨⟩, e₂) ∧ perform solve e₂ = (.ok .optimal, e₃) ∧
      e₃.schedule = .ok s ∧ s.checkDependencies (Graph.chain 1.0000005) = .ok vs ∧ vs ≠ [] := by
  have hdefects : (Graph.chain 1.0000005).defects = [] := by decide +kernel
  rcases exists_solvedFrom hdefects (View.ofGraph_chain _) with
    ⟨e₁, e₂, outcome, hload, hbuild, hsolve, hout⟩
  have hoptimal : (solvedFrom "chain_asap" (View.chain 1.0000005)).outcome = some .optimal := by
    decide +kernel
  have hfound : ((solvedFrom "chain_asap" (View.chain 1.0000005)).schedule.toOption.bind fun s =>
      (s.checkDependencies (Graph.chain 1.0000005)).toOption.map (·.length)) = some 1 := by
    decide +kernel
  cases hout.symm.trans hoptimal
  rcases Option.bind_eq_some_iff.mp hfound with ⟨s, hs, hfound⟩
  rcases Option.map_eq_some_iff.mp hfound with ⟨vs, hvs, hlength⟩
  refine ⟨e₁, e₂, _, s, vs, hload, hbuild, hsolve, eq_ok_of_toOption hs,
    eq_ok_of_toOption hvs, ?_⟩
  rintro rfl
  cases hlength

end Engine

end CyclePlan
