import Mathlib.Logic.Relation
import CyclePlan.Proofs.Simplex.Rows
import CyclePlan.Lp.Search
import CyclePlan.Proofs.Lp.Oracle

/-!
# Rounds of a Search

Branch and bound, one box at a time.

A search goes from state to state: a round takes the top box off the stack and,
if the search goes on, leaves the next state (`Round`). Whatever a round keeps
holds of the state at which the search ends, and the way it ends says what that
state looks like (`exists_end`).

One such thing needs nothing of the way relaxations are solved. An assignment
that the search has found is the answer to the relaxation of some box, and its
integer variables are whole as far as the search can tell (`Incumbent.IsFrom`).
Which boxes there are depends on the first one and on how boxes are split, so a
property of boxes that splitting keeps is known of that box.

## Main definitions

* `State`, `Round`: Where a search stands, and how it goes on.
* `State.IsEnd`: What the end of a search says about the state there.
* `Incumbent.IsFrom`, `State.IsWithin`: Where found assignments come from.

## Theorems

* `exists_end`: A search ends at a state that rounds lead to.
* `nodes_search_le`: It solves no more relaxations than it is allowed to.
* `State.IsWithin.round`: What a round keeps.
* `exists_isFrom_of_solve`: What is answered has been found.
* `carries_solutionOf`: A solution gives the found assignment.
* `builtInSolver_keepsToVariables`: Nothing but variables has a value.
-/

namespace CyclePlan

namespace BranchAndBound

/-- Where a search stands. -/
structure State where
  nodes : Nat
  best : Option (Incumbent Rat)
  stack : List (Box Rat)

/-- The number of relaxations that a search has solved. -/
def Verdict.nodes : Verdict Rat → Nat
  | exhausted _ nodes | truncated _ nodes | unbounded nodes | stalled nodes => nodes

variable (relax : Relaxer Rat) (tolerance margin : Rat) (m : Model Rat)

/-- A round of a search that goes on. -/
inductive Round : State → State → Prop
  | infeasible {nodes best box stack} (answer : relax m box = .infeasible) :
      Round ⟨nodes, best, box :: stack⟩ ⟨nodes + 1, best, stack⟩
  | unbounded {nodes best box stack} (answer : relax m box = .unbounded) (later : nodes ≠ 0) :
      Round ⟨nodes, best, box :: stack⟩ ⟨nodes + 1, best, stack⟩
  | pruned {nodes best box stack values objective}
      (answer : relax m box = .optimal values objective)
      (worse : isPruned margin best (flip m * objective) = true) :
      Round ⟨nodes, best, box :: stack⟩ ⟨nodes + 1, best, stack⟩
  | found {nodes best box stack values objective}
      (answer : relax m box = .optimal values objective)
      (better : isPruned margin best (flip m * objective) = false)
      (whole : fractional? tolerance m values = none) :
      Round ⟨nodes, best, box :: stack⟩
        ⟨nodes + 1, some ⟨values, flip m * objective⟩, stack⟩
  | branched {nodes best box stack values objective j x}
      (answer : relax m box = .optimal values objective)
      (better : isPruned margin best (flip m * objective) = false)
      (fraction : fractional? tolerance m values = some (j, x)) :
      Round ⟨nodes, best, box :: stack⟩
        ⟨nodes + 1, best, (split box j x).1 :: (split box j x).2 :: stack⟩

/-- What the end of a search says about the state there. -/
def State.IsEnd (s : State) : Verdict Rat → Prop
  | .exhausted best nodes => s = ⟨nodes, best, []⟩
  | .truncated best nodes => s.best = best ∧ s.nodes = nodes
  | .unbounded _ => s.nodes = 0 ∧ ∃ box stack, s.stack = box :: stack ∧ relax m box = .unbounded
  | .stalled _ => True

/-- A search ends at a state that rounds lead to. -/
theorem exists_end (allowance : Nat) (s : State) :
    ∃ s', Relation.ReflTransGen (Round relax tolerance margin m) s s' ∧
      s'.IsEnd relax m (search relax tolerance margin m allowance s.nodes s.best s.stack) := by
  induction allowance generalizing s with
  | zero =>
      rcases s with ⟨nodes, best, _ | ⟨box, stack⟩⟩
      · exact ⟨_, .refl, rfl⟩
      · exact ⟨_, .refl, rfl, rfl⟩
  | succ allowance ih =>
      rcases s with ⟨nodes, best, _ | ⟨box, stack⟩⟩
      · exact ⟨_, .refl, rfl⟩
      · -- A round that goes on leaves the rest of the allowance.
        have hgoes : ∀ s', Round relax tolerance margin m ⟨nodes, best, box :: stack⟩ s' →
            ∃ s'', Relation.ReflTransGen (Round relax tolerance margin m)
                ⟨nodes, best, box :: stack⟩ s'' ∧
              s''.IsEnd relax m
                (search relax tolerance margin m allowance s'.nodes s'.best s'.stack) := by
          intro s' hround
          rcases ih s' with ⟨s'', hrounds, hend⟩
          exact ⟨s'', .head hround hrounds, hend⟩
        cases hanswer : relax m box with
        | infeasible =>
            simp only [search, hanswer]
            exact hgoes _ (.infeasible hanswer)
        | stalled =>
            simp only [search, hanswer]
            exact ⟨_, .refl, trivial⟩
        | unbounded =>
            simp only [search, hanswer]
            by_cases hnodes : nodes = 0
            · rw [if_pos hnodes]
              exact ⟨_, .refl, hnodes, box, stack, rfl, hanswer⟩
            · rw [if_neg hnodes]
              exact hgoes _ (.unbounded hanswer hnodes)
        | optimal values objective =>
            cases hpruned : isPruned margin best (flip m * objective) with
            | true =>
                simp only [search, hanswer, hpruned, if_true]
                exact hgoes _ (.pruned hanswer hpruned)
            | false =>
                cases hfraction : fractional? tolerance m values with
                | none =>
                    simp only [search, hanswer, hpruned, hfraction, Bool.false_eq_true, if_false]
                    exact hgoes _ (.found hanswer hpruned hfraction)
                | some p =>
                    simp only [search, hanswer, hpruned, hfraction, Bool.false_eq_true, if_false]
                    exact hgoes _ (.branched hanswer hpruned hfraction)

/-- A search solves no more relaxations than it is allowed to. -/
theorem nodes_search_le (allowance nodes : Nat) (best : Option (Incumbent Rat))
    (stack : List (Box Rat)) :
    (search relax tolerance margin m allowance nodes best stack).nodes ≤ nodes + allowance := by
  fun_induction search <;> simp_all [Verdict.nodes] <;> omega

/-! ### Found assignments -/

/-- A found assignment is the answer to the relaxation of a box of some kind, and its
    integer variables are whole. -/
def Incumbent.IsFrom (P : Box Rat → Prop) (b : Incumbent Rat) : Prop :=
  ∃ box objective, P box ∧ relax m box = .optimal b.values objective ∧
    fractional? tolerance m b.values = none ∧ b.bound = flip m * objective

/-- All boxes are of some kind, and the found assignment comes from one that is. -/
structure State.IsWithin (P : Box Rat → Prop) (s : State) : Prop where
  stack : ∀ box ∈ s.stack, P box
  best : ∀ b ∈ s.best, b.IsFrom relax tolerance m P

variable {relax tolerance margin m} {P : Box Rat → Prop} {s s' : State}

/-- A round stays within boxes of a kind that splitting keeps. -/
theorem State.IsWithin.round
    (hsplit : ∀ box values objective j x, P box → relax m box = .optimal values objective →
      fractional? tolerance m values = some (j, x) → P (split box j x).1 ∧ P (split box j x).2)
    (h : s.IsWithin relax tolerance m P) (hround : Round relax tolerance margin m s s') :
    s'.IsWithin relax tolerance m P := by
  cases hround with
  | infeasible | unbounded | pruned =>
      exact ⟨fun b hb => h.stack b (List.mem_cons_of_mem _ hb), h.best⟩
  | found answer better whole =>
      refine ⟨fun b hb => h.stack b (List.mem_cons_of_mem _ hb), fun b hb => ?_⟩
      cases hb
      exact ⟨_, _, h.stack _ List.mem_cons_self, answer, whole, rfl⟩
  | branched answer better fraction =>
      rcases hsplit _ _ _ _ _ (h.stack _ List.mem_cons_self) answer fraction with ⟨hbelow, habove⟩
      exact ⟨List.forall_mem_cons.mpr ⟨hbelow, List.forall_mem_cons.mpr
        ⟨habove, fun b hb => h.stack b (List.mem_cons_of_mem _ hb)⟩⟩, h.best⟩

/-- What a round keeps, rounds keep. -/
theorem State.IsWithin.rounds
    (hsplit : ∀ box values objective j x, P box → relax m box = .optimal values objective →
      fractional? tolerance m values = some (j, x) → P (split box j x).1 ∧ P (split box j x).2)
    (h : s.IsWithin relax tolerance m P)
    (hrounds : Relation.ReflTransGen (Round relax tolerance margin m) s s') :
    s'.IsWithin relax tolerance m P := by
  induction hrounds with
  | refl => exact h
  | tail _ hround ih => exact ih.round hsplit hround

/-- A search that starts with a box of some kind stays within the kind. -/
theorem State.IsWithin.start {box : Box Rat} (h : P box) :
    State.IsWithin relax tolerance m P ⟨0, none, [box]⟩ :=
  ⟨List.forall_mem_singleton.mpr h, fun b hb => by cases hb⟩

/-- What is answered as an assignment has been found. -/
theorem exists_isFrom_of_solve (config : SearchConfig Rat)
    (hsplit : ∀ box values objective j x, P box → relax m box = .optimal values objective →
      fractional? config.tolerance m values = some (j, x) →
        P (split box j x).1 ∧ P (split box j x).2)
    (hroot : P (rootBox config.tolerance m))
    (hassign : (solve relax config m).status.hasAssignment = true) :
    ∃ b status nodes, b.IsFrom relax config.tolerance m P ∧
      solve relax config m = solutionOf m status nodes b := by
  rcases exists_end relax config.tolerance (if hasIntegralObjective m then 1 - config.tolerance
    else config.tolerance) m config.maxNodes ⟨0, none, [rootBox config.tolerance m]⟩ with
    ⟨s, hrounds, hend⟩
  have hwithin := (State.IsWithin.start hroot).rounds hsplit hrounds
  rw [solve] at hassign ⊢
  dsimp only at hend hassign ⊢
  split at hassign
  · next b nodes heq =>
    rw [heq] at hend
    cases hend
    exact ⟨b, .optimal, nodes, hwithin.best b rfl, rfl⟩
  · next b nodes heq =>
    rw [heq] at hend
    exact ⟨b, .feasible, nodes, hwithin.best b hend.1, rfl⟩
  · cases hassign
  · cases hassign
  · cases hassign
  · cases hassign

theorem exists_mem_of_find? {name : String} {entries : List (String × Rat)}
    (h : (NameMap.find? name entries).isSome) : ∃ x, (name, x) ∈ entries := by
  induction entries with
  | nil => cases h
  | cons e rest ih =>
      rw [NameMap.find?] at h
      split at h
      · next heq => exact ⟨e.2, heq ▸ List.mem_cons_self⟩
      · rcases ih h with ⟨x, hx⟩
        exact ⟨x, List.mem_cons_of_mem _ hx⟩

/-- A solution has values under the names of variables only. -/
theorem exists_var_of_solutionOf {status : SolverStatus} {nodes : Nat} {b : Incumbent Rat}
    {name : String} (h : ((solutionOf m status nodes b).value? name).isSome) :
    ∃ v ∈ m.vars, v.name = name := by
  rcases exists_mem_of_find? h with ⟨x, hx⟩
  rcases List.mem_map.mp hx with ⟨⟨v, y⟩, hmem, heq⟩
  cases heq
  exact ⟨v, (List.of_mem_zip hmem).1, rfl⟩

/-- So has whatever a search answers. -/
theorem exists_var_of_solve {config : SearchConfig Rat} {name : String}
    (h : ((solve relax config m).value? name).isSome) : ∃ v ∈ m.vars, v.name = name := by
  rw [solve] at h
  dsimp only at h
  split at h
  · exact exists_var_of_solutionOf h
  · exact exists_var_of_solutionOf h
  · cases h
  · cases h
  · cases h
  · cases h

/-! ### Whole values -/

/-- Where no value is found to be fractional, all integer variables are nearly whole. -/
theorem abs_sub_round_le {values : List Rat} (h : fractional? tolerance m values = none) {i : Nat}
    {v : Variable Rat} {x : Rat} (hv : m.vars[i]? = some v) (hx : values[i]? = some x)
    (hkind : v.isIntegral = true) : |x - Scalar.round x| ≤ tolerance := by
  have hmem : ((v, x), i) ∈ (m.vars.zip values).zipIdx := by
    rw [List.mem_zipIdx_iff_getElem?, List.getElem?_zip_eq_some]
    exact ⟨hv, hx⟩
  have hnone := List.findSome?_eq_none_iff.mp h _ hmem
  by_contra hfraction
  rw [← Scalar.abs_rat, not_le] at hfraction
  dsimp only at hnone
  rw [if_pos ⟨hkind, hfraction⟩] at hnone
  cases hnone

/-- A value that is found to be fractional is that of an integer variable. -/
theorem exists_of_fractional? {values : List Rat} {j : Nat} {x : Rat}
    (h : fractional? tolerance m values = some (j, x)) :
    ∃ v, m.vars[j]? = some v ∧ values[j]? = some x ∧ v.isIntegral = true := by
  rcases List.exists_of_findSome?_eq_some h with ⟨⟨⟨v, y⟩, i⟩, hmem, hsome⟩
  rw [List.mem_zipIdx_iff_getElem?, List.getElem?_zip_eq_some] at hmem
  dsimp only at hsome
  split at hsome
  · next hkind =>
    cases hsome
    exact ⟨v, hmem.1, hmem.2, hkind.1⟩
  · cases hsome

/-- A solution gives the found assignment if rounding leaves its integer variables. -/
theorem carries_solutionOf {values : List Rat} (hlength : values.length = m.vars.length)
    (hwhole : ∀ (i : Nat) (v : Variable Rat) (x : Rat), m.vars[i]? = some v →
      values[i]? = some x → v.isIntegral = true → Scalar.round x = x) (status : SolverStatus)
    (nodes : Nat) (bound : Rat) :
    (solutionOf m status nodes ⟨values, bound⟩).Carries m fun v => values.getD v 0 := by
  have hround : ((m.vars.zip values).map fun (v, x) =>
      if v.isIntegral = true then Scalar.round x else x) = values := by
    refine List.ext_getElem (by simp [hlength]) fun i hi hi' => ?_
    rw [List.getElem_map, List.getElem_zip]
    dsimp only
    split
    · next hkind =>
      exact hwhole i _ _ (List.getElem?_eq_getElem (hlength ▸ hi'))
        (List.getElem?_eq_getElem hi') hkind
    · rfl
  refine Model.carries_of_listed ?_
  rw [solutionOf]
  dsimp only
  rw [hround, Model.listed]
  refine List.ext_getElem (by simp [hlength]) fun i hi hi' => ?_
  have hv := List.getElem?_eq_getElem (l := m.vars) (i := i) (by simpa using hi')
  rw [List.getElem_map, List.getElem_zip, List.getElem_map, Model.valueOf, m.indexOf_of_getElem? hv]
  rw [List.getD_eq_getElem?_getD,
    List.getElem?_eq_getElem (by simpa [hlength, Model.listed] using hi'), Option.getD_some]

end BranchAndBound

theorem builtInSolver_keepsToVariables (config : SearchConfig Rat) :
    (builtInSolver config).KeepsToVariables :=
  fun _ _ _ h => BranchAndBound.exists_var_of_solve h

end CyclePlan
