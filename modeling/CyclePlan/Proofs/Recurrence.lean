import Mathlib.Algebra.Order.BigOperators.Group.List
import CyclePlan.IntervalSearch
import CyclePlan.Proofs.Engine.Potentials
import CyclePlan.Proofs.Engine.Solved
import CyclePlan.Proofs.Lp.Oracle

/-!
# The Recurrence Interval

How fast a loop can be restarted, and that the search finds it.

A value that is passed on to the next iteration has one interval to spare for
every back-edge on its way. A dependency that comes back to its operation is a
closed walk, and the cycles that it takes have to fit into the intervals that it
spans. So an interval suffices if this holds for all closed walks (`Suffices`).
That closed walks are all that can stand in the way is the theory of systems of
differences, applied to the arcs of a view.

The search tries intervals from one upwards and needs no knowledge of walks. If
its solver is exact, it denies every interval that does not suffice and
schedules the first that does, and since more time never hurts
(`Suffices.mono`), that one is the least.

There always is an interval that suffices: forward arcs alone have no closed
walk, and back-edges can be given as much as their producers take.

## Main definitions

* `View.Suffices`: All closed walks fit into an interval.
* `IntervalSearch.denied`: Attempts that were in vain.

## Theorems

* `View.exists_recurrence`: There is a least interval that suffices.
* `Discipline.fixed_solvable_iff`: Solvable at an interval exactly if it suffices.
* `IntervalSearch.runFrom_scheduled`, `IntervalSearch.runFrom_exhausted`: How the
  search ends.
* `IntervalSearch.run_finds_recurrence`: The search finds the least interval.
-/

namespace CyclePlan

namespace View

open Arc

/-- On every closed walk, the cycles that it takes fit into the intervals that it
    spans, one for each back-edge. -/
def Suffices (v : View Rat) (sameBlockOnly : Bool) (interval : Int) : Prop :=
  ∀ u p, IsWalk (v.arcs sameBlockOnly) u p u → total cycles p ≤ interval * p.countP (·.back)

variable {v : View Rat} {sameBlockOnly : Bool} {interval : Int} {g : Graph Rat}

theorem total_lag (p : List (Arc (Node Rat))) :
    total (lag interval) p = total cycles p - interval * p.countP (·.back) := by
  induction p with
  | nil => simp
  | cons a p ih =>
      rw [total_cons, total_cons, ih, List.countP_cons, lag]
      cases a.back with
      | false =>
          simp only [Bool.false_eq_true, if_false, Nat.add_zero]
          omega
      | true =>
          have hspan : interval * ((p.countP (·.back) + 1 : Nat) : Int)
              = interval * p.countP (·.back) + interval := by
            push_cast
            ring
          simp only [if_true, hspan]
          omega

theorem suffices_iff_noGain :
    v.Suffices sameBlockOnly interval ↔ NoGain (lag interval) (v.arcs sameBlockOnly) := by
  refine forall₃_congr fun u p _ => ?_
  rw [total_lag, sub_nonpos]

/-- A larger interval suffices as well. -/
theorem Suffices.mono {longer : Int} (h : v.Suffices sameBlockOnly interval)
    (hle : interval ≤ longer) : v.Suffices sameBlockOnly longer := by
  intro u p hp
  have hspan : interval * p.countP (·.back) ≤ longer * p.countP (·.back) :=
    Int.mul_le_mul_of_nonneg_right hle (Int.natCast_nonneg _)
  exact le_trans (h u p hp) hspan

/-- Some interval suffices. -/
theorem exists_suffices (sameBlockOnly : Bool) (hfit : g.Fit) (hview : View.ofGraph g = .ok v) :
    ∃ interval, 1 ≤ interval ∧ v.Suffices sameBlockOnly interval := by
  rcases exists_longest_forward sameBlockOnly hfit hview with ⟨d, hd⟩
  -- Each back-edge gets the time until its producer is done, and all of them get the sum.
  let done : Node Rat × Node Rat → Int := fun p => d p.1 + ⌈p.1.latency⌉
  have hdone : ∀ k ∈ v.backPairs.map done, 0 ≤ k := by
    intro k hk
    rcases List.mem_map.mp hk with ⟨p, hp, rfl⟩
    have hlatency := hfit.node_latency hview _ (mem_nodes_of_backPairs hp).1
    exact Int.add_nonneg (hd p.1).nonneg (Int.ceil_nonneg hlatency)
  have hsum := List.sum_nonneg hdone
  refine ⟨(v.backPairs.map done).sum + 1, by omega, suffices_iff_noGain.mpr ?_⟩
  refine Meets.noGain (c := d) (meets_arcs_iff.mpr ⟨?_, ?_⟩)
  · intro a ha
    have hstep := meets_of_longest hd a ha
    rcases List.mem_map.mp ha with ⟨p, _, rfl⟩
    rw [lag_arcOf_false] at hstep ⊢
    exact hstep
  · intro a ha
    rcases List.mem_map.mp ha with ⟨p, hp, rfl⟩
    have hpart := List.single_le_sum hdone (done p) (List.mem_map_of_mem hp)
    have htarget := (hd p.2).nonneg
    rw [lag_arcOf_true]
    change d p.1 + (⌈p.1.latency⌉ - _) ≤ d p.2
    change d p.1 + ⌈p.1.latency⌉ ≤ _ at hpart
    omega

/-- Without back-edges, every interval does. -/
theorem suffices_of_forward (hfit : g.Fit) (hview : View.ofGraph g = .ok v)
    (hforward : ∀ e ∈ g.edges, e.backEdge = false) : v.Suffices sameBlockOnly interval := by
  have hnone : v.backPairs = [] := by
    rw [List.eq_nil_iff_forall_not_mem]
    intro p hp
    rcases (mem_backPairs_iff hview).mp hp with ⟨_, _, hedge⟩
    cases hforward _ hedge
  rw [suffices_iff_noGain, arcs, hnone, List.map_nil, List.append_nil]
  exact forwardArcs_noGain hfit hview _

/-- There is a least interval that suffices. -/
theorem exists_recurrence (sameBlockOnly : Bool) (hfit : g.Fit) (hview : View.ofGraph g = .ok v) :
    ∃ interval, IsLeast {i | 1 ≤ i ∧ v.Suffices sameBlockOnly i} interval := by
  rcases exists_suffices sameBlockOnly hfit hview with ⟨some, hsome⟩
  rcases Int.exists_least_of_bdd (P := fun i => 1 ≤ i ∧ v.Suffices sameBlockOnly i)
    ⟨1, fun _ h => h.1⟩ ⟨some, hsome⟩ with ⟨least, hleast, hbelow⟩
  exact ⟨least, hleast, fun i hi => hbelow i hi⟩

/-- From the least one on, every interval suffices. -/
theorem suffices_iff_le {least : Int}
    (hleast : IsLeast {i | 1 ≤ i ∧ v.Suffices sameBlockOnly i} least) (hpos : 1 ≤ interval) :
    v.Suffices sameBlockOnly interval ↔ least ≤ interval :=
  ⟨fun h => hleast.2 ⟨hpos, h⟩, fun h => hleast.1.2.mono h⟩

end View

namespace Discipline

open Arc View

variable {v : View Rat} {sameBlockOnly : Bool} {interval : Int} {g : Graph Rat}

/-- There is a best solution at every interval that suffices. -/
theorem fixed_exists_best (hfit : g.Fit) (hview : View.ofGraph g = .ok v) (hpos : 1 ≤ interval)
    (h : v.Suffices sameBlockOnly interval) :
    ∃ y, (program (.pipelined (.fixed interval)) v sameBlockOnly).IsBest y := by
  have hcap := arcs_isCapped sameBlockOnly (hfit.node_latency hview)
    (by omega : 0 ≤ interval)
  choose d hd using (suffices_iff_noGain.mp h).exists_longest hcap
  rcases exists_times (hfit.node_names_nodup hview) d interval with ⟨y, hy, hinterval⟩
  exact ⟨y, (fixed_isLeast hpos hd hy hinterval).isBest (fixed_sumsStarts hpos)⟩

/-- Solvable at an interval exactly if it suffices. -/
theorem fixed_solvable_iff (hfit : g.Fit) (hview : View.ofGraph g = .ok v)
    (hpos : 1 ≤ interval) :
    (∃ y, (program (.pipelined (.fixed interval)) v sameBlockOnly).IsSolution y) ↔
      v.Suffices sameBlockOnly interval := by
  constructor
  · rintro ⟨y, hy⟩
    rcases (fixed_isSolution_iff hpos).mp hy with ⟨hstarts, hinterval, _⟩
    have htimes := times_floor hstarts.whole
    rcases (fixed_isSolution_iff_meets hpos htimes hinterval).mp hy with ⟨_, hmeets⟩
    exact suffices_iff_noGain.mpr hmeets.noGain
  · intro h
    rcases fixed_exists_best hfit hview hpos h with ⟨y, hy⟩
    exact ⟨y, hy.solution⟩

end Discipline

/-- An engine that is solved at a fixed interval achieves it. -/
theorem Engine.Continues.achievesFixed {v : View Rat} {m : Model Rat} {solver : Solver Rat}
    {sameBlockOnly : Bool} {interval : Int} {e e' : Engine Rat} {outcome : Outcome}
    {x : Nat → Rat} (hpos : 1 ≤ interval)
    (hm : m.Renders (Discipline.program (.pipelined (.fixed interval)) v sameBlockOnly))
    (hcont : Continues Model.Adds
      (builtWith (.pipelined (.fixed interval)) solver sameBlockOnly v m) e)
    (hsolve : perform solve e = (.ok outcome, e')) (hassign : outcome.hasAssignment = true)
    (hcarries : (solver e.asked e.model).Carries e.model x) (hpoint : e.model.IsPoint x)
    (hintegral : e.model.IsIntegral x) : e'.achievedInterval? = some interval := by
  rcases hcont.achievedInterval? hm hsolve hassign hcarries hintegral (fun h => nomatch h) with
    ⟨found, hfound, hvalue⟩
  have hadds : m.Adds e.model := hcont.model
  have hy := (hm.isSolution_iff x).mp ⟨hadds.isPoint hpoint, hadds.isIntegral hintegral⟩
  -- The interval variable is pinned, so its value is no news.
  rcases (Discipline.fixed_isSolution_iff hpos).mp hy with ⟨_, hpinned, _⟩
  have heq : found = interval := Int.cast_injective (hvalue.symm.trans hpinned)
  rwa [heq] at hfound

namespace IntervalSearch

open Engine

variable {s : IntervalSearch Rat} {g : Graph Rat} {e e₁ e₂ e₃ : Engine Rat}

/-- A number of attempts in a row, all of them in vain. -/
def denied (first : Int) (count : Nat) : List Attempt :=
  (List.range count).map fun k : Nat => ⟨first + k, .infeasible⟩

theorem denied_succ (first : Int) (count : Nat) :
    denied first (count + 1) = ⟨first, .infeasible⟩ :: denied (first + 1) count := by
  rw [denied, List.range_succ_eq_map, List.map_cons, List.map_map, denied]
  refine congrArg₂ List.cons (by rw [Nat.cast_zero, add_zero]) ?_
  refine List.map_congr_left fun k _ => ?_
  simp only [Function.comp, Nat.succ_eq_add_one, Nat.cast_add, Nat.cast_one, Attempt.mk.injEq,
    and_true]
  omega

/-- Without limits, an attempt is decided by its only solve. -/
theorem perform_attempt {interval : Int} {outcome : Outcome} (hlimits : s.limits = none)
    (hload : perform (load g) (s.engine interval) = (.ok ⟨⟩, e₁))
    (hbuild : perform build e₁ = (.ok ⟨⟩, e₂)) (hsolve : perform solve e₂ = (.ok outcome, e₃)) :
    perform (s.attempt g interval) (s.engine interval) =
      (.ok (match outcome with
        | .infeasible => .infeasible
        | .failed reason => .solverFailed reason
        | _ => .scheduled), e₃) := by
  rw [attempt, perform_bind_of_ok hload, perform_bind_of_ok hbuild, perform_bind_of_ok hsolve,
    hlimits]
  cases outcome <;> rfl

/-- One round of the search. -/
theorem runFrom_succ {count : Nat} {first : Int} {attempts : List Attempt}
    {verdict : IntervalVerdict}
    (h : perform (s.attempt g first) (s.engine first) = (.ok verdict, e)) :
    s.runFrom g (count + 1) first attempts =
      if verdict = .scheduled then .ok ⟨first, e, attempts ++ [⟨first, verdict⟩]⟩
      else s.runFrom g count (first + 1) (attempts ++ [⟨first, verdict⟩]) := by
  change Id.run ((s.attempt g first).run.run (s.engine first)) = _ at h
  rw [runFrom, h]

/-- An attempt that is refused ends the search. -/
theorem runFrom_of_error {count : Nat} {first : Int} {attempts : List Attempt}
    {cause : SchedulingError Rat}
    (h : perform (s.attempt g first) (s.engine first) = (.error cause, e)) :
    s.runFrom g (count + 1) first attempts = .error cause := by
  change Id.run ((s.attempt g first).run.run (s.engine first)) = _ at h
  rw [runFrom, h]

/-- The search goes past the intervals that are denied and stops at the first
    that is scheduled. -/
theorem runFrom_scheduled {count n : Nat} {first : Int} (attempts : List Attempt)
    (hdenied : ∀ k : Nat, k < n → ∃ e', perform (s.attempt g (first + k)) (s.engine (first + k))
      = (.ok .infeasible, e'))
    (hfound : perform (s.attempt g (first + n)) (s.engine (first + n)) = (.ok .scheduled, e))
    (hcount : n < count) :
    s.runFrom g count first attempts =
      .ok ⟨first + n, e, attempts ++ (denied first n ++ [⟨first + n, .scheduled⟩])⟩ := by
  rcases Nat.exists_eq_add_of_lt hcount with ⟨rest, rfl⟩
  induction n generalizing first attempts with
  | zero =>
      rw [Nat.cast_zero, add_zero] at hfound ⊢
      exact (runFrom_succ hfound).trans (if_pos rfl)
  | succ n ih =>
      have hshift : ∀ k : Nat, first + ((k + 1 : Nat) : Int) = first + 1 + k := by
        intro k
        push_cast
        omega
      -- The first interval is denied, and the hypotheses shift by one for the rest.
      rcases hdenied 0 (Nat.succ_pos n) with ⟨e', hfirst⟩
      rw [Nat.cast_zero, add_zero] at hfirst
      have hlater : ∀ k : Nat, k < n → ∃ e', perform (s.attempt g (first + 1 + k))
          (s.engine (first + 1 + k)) = (.ok .infeasible, e') := by
        intro k hk
        rw [← hshift]
        exact hdenied (k + 1) (Nat.succ_lt_succ hk)
      rw [hshift] at hfound
      have hcount : n + 1 + rest + 1 = n + rest + 1 + 1 := by omega
      rw [hcount, runFrom_succ hfirst, if_neg (by decide), ih _ hlater hfound (by omega),
        denied_succ, hshift, List.append_assoc]
      rfl

/-- If all intervals are denied, the search has nothing to show. -/
theorem runFrom_exhausted {count : Nat} {first : Int} {attempts : List Attempt}
    (hdenied : ∀ k : Nat, k < count →
      ∃ e', perform (s.attempt g (first + k)) (s.engine (first + k)) = (.ok .infeasible, e')) :
    s.runFrom g count first attempts = .error (.intervalsExhausted s.maxInterval) := by
  induction count generalizing first attempts with
  | zero => rfl
  | succ count ih =>
      rcases hdenied 0 (Nat.succ_pos count) with ⟨e', hfirst⟩
      rw [Nat.cast_zero, add_zero] at hfirst
      rw [runFrom_succ hfirst, if_neg (by decide)]
      refine ih fun k hk => ?_
      have hlater := hdenied (k + 1) (Nat.succ_lt_succ hk)
      have hshift : first + ((k + 1 : Nat) : Int) = first + 1 + k := by
        push_cast
        omega
      rwa [hshift] at hlater

variable {v : View Rat} {interval : Int}

/-- A graph without defects can be built at every interval. -/
theorem exists_built (s : IntervalSearch Rat) (hdefects : g.defects = [])
    (hview : View.ofGraph g = .ok v) (hpos : 1 ≤ interval) :
    ∃ e₁ m, perform (load g) (s.engine interval) = (.ok ⟨⟩, e₁) ∧
      perform build e₁ = (.ok ⟨⟩, builtWith (.pipelined (.fixed interval)) s.solver
        s.sameBlockOnly v m) ∧
      m.Renders (Discipline.program (.pipelined (.fixed interval)) v s.sameBlockOnly) := by
  rcases exists_load (.pipelined (.fixed interval)) s.solver s.sameBlockOnly hdefects with
    ⟨e₁, hload⟩
  rcases exists_build_fixed hpos hload with ⟨e₂, hbuild⟩
  rcases build_renders hload hbuild with ⟨w, m, hw, hm, rfl⟩
  cases hview.symm.trans hw
  exact ⟨e₁, m, hload, hbuild, hm⟩

/-- An interval that suffices is scheduled, and achieved. -/
theorem attempt_scheduled (hexact : s.solver.Exact) (hlimits : s.limits = none)
    (hdefects : g.defects = []) (hview : View.ofGraph g = .ok v) (hpos : 1 ≤ interval)
    (h : v.Suffices s.sameBlockOnly interval) :
    ∃ e, perform (s.attempt g interval) (s.engine interval) = (.ok .scheduled, e) ∧
      e.phase = .solved ∧ e.achievedInterval? = some interval := by
  have hfit := Graph.fit_of_defects hdefects
  rcases exists_built s hdefects hview hpos with ⟨e₁, m, hload, hbuild, hm⟩
  rcases Discipline.fixed_exists_best hfit hview hpos h with ⟨y, hy⟩
  rcases exists_solve_optimal hexact hm hy with ⟨e₃, x, hsolve, hcarries, hoptimum⟩
  refine ⟨e₃, perform_attempt hlimits hload hbuild hsolve, phase_of_solve hsolve rfl, ?_⟩
  exact (Continues.refl Model.Adds.refl builtWith_settled).achievesFixed hpos hm hsolve rfl
    hcarries hoptimum.point hoptimum.integral

/-- An interval that does not suffice is denied. -/
theorem attempt_denied (hexact : s.solver.Exact) (hlimits : s.limits = none)
    (hdefects : g.defects = []) (hview : View.ofGraph g = .ok v) (hpos : 1 ≤ interval)
    (h : ¬ v.Suffices s.sameBlockOnly interval) :
    ∃ e, perform (s.attempt g interval) (s.engine interval) = (.ok .infeasible, e) := by
  rcases exists_built s hdefects hview hpos with ⟨e₁, m, hload, hbuild, hm⟩
  rw [← Discipline.fixed_solvable_iff (Graph.fit_of_defects hdefects) hview hpos] at h
  rcases exists_solve_infeasible hexact hm h with ⟨e₃, hsolve⟩
  exact ⟨e₃, perform_attempt hlimits hload hbuild hsolve⟩

/-- Without limits and with an exact solver, the search finds the least interval
    that suffices, after all smaller ones have been denied, and it gives up only
    if that interval is out of its range. Models are feasible from that interval
    on. -/
theorem run_finds_recurrence (hexact : s.solver.Exact) (hlimits : s.limits = none)
    (hmax : 1 ≤ s.maxInterval) (hload : perform (load g) (s.engine 1) = (.ok ⟨⟩, e)) :
    ∃ v least, View.ofGraph g = .ok v ∧
      IsLeast {i | 1 ≤ i ∧ v.Suffices s.sameBlockOnly i} least ∧
      (least ≤ s.maxInterval → ∃ found, s.run g = .ok found ∧ found.interval = least ∧
        found.attempts = denied 1 (least - 1).toNat ++ [⟨least, .scheduled⟩] ∧
        found.engine.phase = .solved ∧ found.engine.achievedInterval? = some least) ∧
      (s.maxInterval < least → s.run g = .error (.intervalsExhausted s.maxInterval)) ∧
      ∀ i, 1 ≤ i → ∃ e₁ e₂, perform (load g) (s.engine i) = (.ok ⟨⟩, e₁) ∧
        perform build e₁ = (.ok ⟨⟩, e₂) ∧
        ((∃ x, e₂.model.IsPoint x ∧ e₂.model.IsIntegral x) ↔ least ≤ i) := by
  have hdefects := (load_ok_iff.mp hload).1
  have hfit := Graph.fit_of_defects hdefects
  rcases hfit.exists_view with ⟨v, hview⟩
  rcases View.exists_recurrence s.sameBlockOnly hfit hview with ⟨least, hleast⟩
  have hpos : 1 ≤ least := hleast.1.1
  have hrun : s.run g = s.runFrom g s.maxInterval.toNat 1 [] := if_neg (by omega)
  -- Whatever is below the least interval is denied.
  have hdenied : ∀ k : Nat, (1 : Int) + k < least → ∃ e',
      perform (s.attempt g (1 + k)) (s.engine (1 + k)) = (.ok .infeasible, e') := by
    intro k hk
    refine attempt_denied hexact hlimits hdefects hview (by omega) ?_
    rw [View.suffices_iff_le hleast (by omega)]
    omega
  refine ⟨v, least, hview, hleast, fun hrange => ?_, fun hrange => ?_, fun i hi => ?_⟩
  · rcases attempt_scheduled hexact hlimits hdefects hview hpos hleast.1.2 with
      ⟨e', hattempt, hphase, hachieved⟩
    have hlast : (1 : Int) + ((least - 1).toNat : Int) = least := by omega
    rw [← hlast] at hattempt
    have hfound := runFrom_scheduled [] (fun k hk => hdenied k (by omega)) hattempt
      (by omega : (least - 1).toNat < s.maxInterval.toNat)
    rw [hlast, List.nil_append, ← hrun] at hfound
    exact ⟨_, hfound, rfl, rfl, hphase, hachieved⟩
  · rw [hrun]
    exact runFrom_exhausted fun k hk => hdenied k (by omega)
  · rcases exists_built s hdefects hview hi with ⟨e₁, m, hload, hbuild, hm⟩
    refine ⟨e₁, _, hload, hbuild, ?_⟩
    exact hm.feasible_iff.trans ((Discipline.fixed_solvable_iff hfit hview hi).trans
      (View.suffices_iff_le hleast hi))

/-- The search for the smallest loop. -/
theorem run_finds_recurrence_selfLoop :
    oracle.Exact ∧ ∃ e, (1 : Int) ≤ 40 ∧
      perform (load Graph.selfLoop) (engine { solver := oracle } 1) = (.ok ⟨⟩, e) ∧
      ∃ v least, View.ofGraph Graph.selfLoop = .ok v ∧
        IsLeast {i | 1 ≤ i ∧ v.Suffices true i} least ∧
        (least ≤ 40 → ∃ found, run { solver := oracle } Graph.selfLoop = .ok found ∧
          found.interval = least ∧
          found.attempts = denied 1 (least - 1).toNat ++ [⟨least, .scheduled⟩] ∧
          found.engine.phase = .solved ∧ found.engine.achievedInterval? = some least) ∧
        (40 < least → run { solver := oracle } Graph.selfLoop = .error (.intervalsExhausted 40)) ∧
        ∀ i, 1 ≤ i → ∃ e₁ e₂,
          perform (load Graph.selfLoop) (engine { solver := oracle } i) = (.ok ⟨⟩, e₁) ∧
          perform build e₁ = (.ok ⟨⟩, e₂) ∧
          ((∃ x, e₂.model.IsPoint x ∧ e₂.model.IsIntegral x) ↔ least ≤ i) := by
  rcases exists_load (.pipelined (.fixed 1)) oracle true Graph.selfLoop_defects with ⟨e, hload⟩
  exact ⟨oracle_exact, e, by decide, hload,
    run_finds_recurrence (s := { solver := oracle }) oracle_exact rfl (by decide) hload⟩

end IntervalSearch

end CyclePlan
