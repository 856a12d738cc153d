import CyclePlan.Proofs.Lp.Rounds
import CyclePlan.Proofs.Lp.BranchAndBound

/-!
# The Node Limit

What the allowance of relaxations does to an answer.

A round takes one relaxation of the allowance and leaves the rest to the next
state (`search_of_round`), and whether there is a round does not depend on the
allowance at all. A search with more of it therefore does the same rounds and
then some. Two cases follow (`search_cases`): either the search has ended by
itself, after a number of relaxations that any allowance from there on covers,
or it stands at a state from which a greater allowance goes on.

The found assignment only gets better on the way. It is replaced only by one
that is not pruned, and the margin is not negative, so its bound does not rise
(`State.Improves`).

Nothing is asked of the relaxations: they may be wrong, but each has to be a
function of the model and the box.

## Main definitions

* `verdict`, `Verdict.solution`: The search behind an answer, and the answer.
* `SolverStatus.IsCut`: The status of an answer that the limit cut short.
* `State.EndsWith`: A search ends by itself, after so many relaxations.
* `State.Improves`: What is found later is no worse.

## Theorems

* `search_cases`: A search has ended by itself, or a greater allowance goes on.
* `node_limit_exact`: The limit changes an answer only by cutting it short, and
  what a greater limit finds is no worse.
-/

namespace CyclePlan

/-- The status of an answer that the limit cut short. -/
def SolverStatus.IsCut (limit : Nat) (status : SolverStatus) : Prop :=
  status = .feasible ∨
    status = .failed s!"node limit {limit} reached without an integral solution"

instance (limit : Nat) (status : SolverStatus) : Decidable (status.IsCut limit) :=
  inferInstanceAs (Decidable (_ ∨ _))

namespace BranchAndBound

/-! ### The search behind an answer -/

/-- How much better an assignment has to be. -/
def marginFor (tolerance : Rat) (m : Model Rat) : Rat :=
  if hasIntegralObjective m then 1 - tolerance else tolerance

/-- How the search behind an answer ends. -/
def verdict (relax : Relaxer Rat) (config : SearchConfig Rat) (m : Model Rat) : Verdict Rat :=
  search relax config.tolerance (marginFor config.tolerance m) m config.maxNodes 0 none
    [rootBox config.tolerance m]

/-- The assignment that a search has found. -/
def Verdict.best? : Verdict Rat → Option (Incumbent Rat)
  | exhausted best _ | truncated best _ => best
  | unbounded _ | stalled _ => none

/-- Whether the allowance ended a search. -/
def Verdict.isTruncated : Verdict Rat → Bool
  | truncated _ _ => true
  | exhausted _ _ | unbounded _ | stalled _ => false

/-- The answer after a search with a limit. -/
def Verdict.solution (limit : Nat) (m : Model Rat) : Verdict Rat → Solution Rat
  | exhausted (some best) nodes => solutionOf m .optimal nodes best
  | truncated (some best) nodes => solutionOf m .feasible nodes best
  | exhausted none nodes => { status := .infeasible, nodes }
  | truncated none nodes =>
    { status := .failed s!"node limit {limit} reached without an integral solution", nodes }
  | unbounded nodes => { status := .unbounded, nodes }
  | stalled nodes => { status := .failed "simplex pivot limit reached", nodes }

variable {relax : Relaxer Rat} {tolerance margin : Rat} {m : Model Rat} {s s' : State}
  {v : Verdict Rat} {k : Nat}

theorem solve_eq_solution (config : SearchConfig Rat) :
    solve relax config m = (verdict relax config m).solution config.maxNodes m := by
  unfold solve verdict marginFor
  dsimp only
  generalize search relax config.tolerance _ m config.maxNodes 0 none _ = v
  rcases v with ⟨_ | best, nodes⟩ | ⟨_ | best, nodes⟩ | nodes | nodes <;> rfl

theorem Verdict.nodes_solution (limit : Nat) : (v.solution limit m).nodes = v.nodes := by
  rcases v with ⟨_ | best, nodes⟩ | ⟨_ | best, nodes⟩ | nodes | nodes <;> rfl

/-- The two refusals of a search are told apart by their first letter. -/
theorem stalled_text_ne (limit : Nat) :
    "simplex pivot limit reached" ≠
      s!"node limit {limit} reached without an integral solution" := by
  intro h
  have hfirst := congrArg (fun text : String => text.toList.head?) h
  have hnode : (toString "node limit ").toList.head? = some 'n' := by decide
  simp [String.toList_append, hnode] at hfirst

/-- An answer says whether the limit cut the search short. -/
theorem Verdict.isCut_solution_iff (limit : Nat) :
    (v.solution limit m).status.IsCut limit ↔ v.isTruncated = true := by
  unfold SolverStatus.IsCut
  rcases v with ⟨_ | best, nodes⟩ | ⟨_ | best, nodes⟩ | nodes | nodes
  case stalled =>
    simp only [solution, isTruncated, reduceCtorEq, false_or, SolverStatus.failed.injEq,
      Bool.false_eq_true, iff_false]
    exact stalled_text_ne limit
  all_goals simp [solution, isTruncated, solutionOf]

/-- Without the limit, an answer does not speak of it. -/
theorem Verdict.solution_congr (h : v.isTruncated = false) (limit limit' : Nat) :
    v.solution limit m = v.solution limit' m := by
  rcases v with ⟨_ | best, nodes⟩ | ⟨_ | best, nodes⟩ | nodes | nodes
  case truncated.none | truncated.some => cases h
  all_goals rfl

/-! ### One round -/

/-- A round takes one relaxation of the allowance. -/
theorem search_of_round (h : Round relax tolerance margin m s s') (allowance : Nat) :
    search relax tolerance margin m (allowance + 1) s.nodes s.best s.stack =
      search relax tolerance margin m allowance s'.nodes s'.best s'.stack := by
  cases h with
  | infeasible answer => simp only [search, answer]
  | unbounded answer later => simp only [search, answer, if_neg later]
  | pruned answer worse => simp only [search, answer, worse, if_true]
  | found answer better whole =>
      simp only [search, answer, better, whole, Bool.false_eq_true, if_false]
  | branched answer better fraction =>
      simp only [search, answer, better, fraction, Bool.false_eq_true, if_false]

theorem Round.nodes_eq (h : Round relax tolerance margin m s s') : s'.nodes = s.nodes + 1 := by
  cases h <;> rfl

/-- What is found later is no worse. -/
def State.Improves (s s' : State) : Prop :=
  ∀ b ∈ s.best, ∃ b' ∈ s'.best, b'.bound ≤ b.bound

/-- A round does not make the found assignment worse. -/
theorem Round.improves (hmargin : 0 ≤ margin) (h : Round relax tolerance margin m s s') :
    s.Improves s' := by
  intro b hb
  cases h with
  | infeasible | unbounded | pruned | branched => exact ⟨b, hb, le_rfl⟩
  | found answer better whole =>
      cases hb
      -- The new assignment was not pruned against the old one.
      have hnew := not_lt.mp (of_decide_eq_false better)
      exact ⟨_, rfl, hnew.trans (sub_le_self _ hmargin)⟩

/-- Nor do rounds. -/
theorem State.Improves.of_rounds (hmargin : 0 ≤ margin)
    (h : Relation.ReflTransGen (Round relax tolerance margin m) s s') : s.Improves s' := by
  induction h with
  | refl => exact fun b hb => ⟨b, hb, le_rfl⟩
  | tail _ hround ih =>
      intro b hb
      rcases ih b hb with ⟨b', hb', hle⟩
      rcases hround.improves hmargin b' hb' with ⟨b'', hb'', hle'⟩
      exact ⟨b'', hb'', hle'.trans hle⟩

/-- Rounds only add to the count of relaxations. -/
theorem nodes_le_of_rounds (h : Relation.ReflTransGen (Round relax tolerance margin m) s s') :
    s.nodes ≤ s'.nodes := by
  induction h with
  | refl => exact le_rfl
  | tail _ hround ih => exact ih.trans (hround.nodes_eq ▸ Nat.le_succ _)

/-! ### All rounds -/

variable (relax tolerance margin m) in
/-- A search ends by itself, after so many relaxations, as soon as the allowance covers
    them. -/
structure State.EndsWith (s : State) (k : Nat) (v : Verdict Rat) : Prop where
  itself : v.isTruncated = false
  nodes : v.nodes = s.nodes + k
  search : ∀ allowance, k ≤ allowance →
    search relax tolerance margin m allowance s.nodes s.best s.stack = v

variable (relax tolerance margin m) in
/-- A search with no box left has ended. -/
theorem State.EndsWith.of_nil (h : s.stack = []) :
    s.EndsWith relax tolerance margin m 0 (.exhausted s.best s.nodes) where
  itself := rfl
  nodes := rfl
  search allowance _ := by
    rw [h]
    cases allowance <;> rfl

/-- A search that has ended after a round needs one more relaxation before it. -/
theorem State.EndsWith.of_round (hround : Round relax tolerance margin m s s')
    (h : s'.EndsWith relax tolerance margin m k v) :
    s.EndsWith relax tolerance margin m (k + 1) v where
  itself := h.itself
  nodes := by
    have hnodes := h.nodes
    rw [hround.nodes_eq] at hnodes
    omega
  search allowance hk := by
    obtain ⟨rest, rfl⟩ : ∃ rest, allowance = rest + 1 := ⟨allowance - 1, by omega⟩
    rw [search_of_round hround]
    exact h.search rest (by omega)

variable (relax tolerance margin m) in
/-- Where boxes are left, there is a round, or the next relaxation ends the search. -/
theorem round_or_endsWith (h : s.stack ≠ []) :
    (∃ s', Round relax tolerance margin m s s') ∨
      ∃ v, s.EndsWith relax tolerance margin m 1 v := by
  -- What the next relaxation leads to does not depend on how many may follow.
  have hends : ∀ v : Verdict Rat, v.isTruncated = false → v.nodes = s.nodes + 1 →
      (∀ rest, search relax tolerance margin m (rest + 1) s.nodes s.best s.stack = v) →
        s.EndsWith relax tolerance margin m 1 v := by
    intro v hitself hnodes hsearch
    refine ⟨hitself, hnodes, fun allowance hone => ?_⟩
    obtain ⟨rest, rfl⟩ : ∃ rest, allowance = rest + 1 := ⟨allowance - 1, by omega⟩
    exact hsearch rest
  rcases s with ⟨nodes, best, _ | ⟨box, stack⟩⟩
  · exact absurd rfl h
  · cases hanswer : relax m box with
    | infeasible => exact .inl ⟨_, .infeasible hanswer⟩
    | stalled =>
        refine .inr ⟨_, hends (.stalled (nodes + 1)) rfl rfl fun rest => ?_⟩
        simp only [search, hanswer]
    | unbounded =>
        by_cases hfirst : nodes = 0
        · refine .inr ⟨_, hends (.unbounded 1) rfl (by rw [hfirst]; rfl) fun rest => ?_⟩
          simp only [search, hanswer, if_pos hfirst]
        · exact .inl ⟨_, .unbounded hanswer hfirst⟩
    | optimal values objective =>
        cases hpruned : isPruned margin best (flip m * objective) with
        | true => exact .inl ⟨_, .pruned hanswer hpruned⟩
        | false =>
            cases hfraction : fractional? tolerance m values with
            | none => exact .inl ⟨_, .found hanswer hpruned hfraction⟩
            | some p => exact .inl ⟨_, .branched hanswer hpruned hfraction⟩

variable (relax tolerance margin m) in
/-- A search has ended by itself, or it stands where a greater allowance goes on. -/
theorem search_cases (allowance : Nat) (s : State) :
    (∃ k ≤ allowance, s.EndsWith relax tolerance margin m k
        (search relax tolerance margin m allowance s.nodes s.best s.stack)) ∨
      ∃ s', Relation.ReflTransGen (Round relax tolerance margin m) s s' ∧
        s'.nodes = s.nodes + allowance ∧
        search relax tolerance margin m allowance s.nodes s.best s.stack =
          .truncated s'.best s'.nodes ∧
        ∀ more, search relax tolerance margin m (allowance + more) s.nodes s.best s.stack =
          search relax tolerance margin m more s'.nodes s'.best s'.stack := by
  induction allowance generalizing s with
  | zero =>
      by_cases hstack : s.stack = []
      · have hends := State.EndsWith.of_nil relax tolerance margin m hstack
        exact .inl ⟨0, le_rfl, (hends.search 0 le_rfl).symm ▸ hends⟩
      · refine .inr ⟨s, .refl, rfl, ?_, fun more => by rw [Nat.zero_add]⟩
        obtain ⟨box, stack, hcons⟩ := List.exists_cons_of_ne_nil hstack
        rw [hcons]
        rfl
  | succ allowance ih =>
      by_cases hstack : s.stack = []
      · have hends := State.EndsWith.of_nil relax tolerance margin m hstack
        exact .inl ⟨0, Nat.zero_le _, (hends.search _ (Nat.zero_le _)).symm ▸ hends⟩
      · rcases round_or_endsWith relax tolerance margin m hstack with
          ⟨s', hround⟩ | ⟨v, hends⟩
        · rw [search_of_round hround]
          rcases ih s' with ⟨k, hk, hends⟩ | ⟨s'', hrounds, hnodes, hcut, hmore⟩
          · exact .inl ⟨k + 1, by omega, hends.of_round hround⟩
          · refine .inr ⟨s'', .head hround hrounds, ?_, hcut, fun more => ?_⟩
            · rw [hnodes, hround.nodes_eq]
              omega
            · rw [show allowance + 1 + more = allowance + more + 1 by omega,
                search_of_round hround]
              exact hmore more
        · exact .inl ⟨1, by omega, (hends.search (allowance + 1) (by omega)).symm ▸ hends⟩

/-! ### Answers with different limits -/

/-- Where the search behind an answer starts. -/
def State.root (tolerance : Rat) (m : Model Rat) : State := ⟨0, none, [rootBox tolerance m]⟩

theorem marginFor_nonneg (hnonneg : 0 ≤ tolerance) (hone : tolerance < 1) :
    0 ≤ marginFor tolerance m := by
  unfold marginFor
  split
  · linarith
  · exact hnonneg

/-- An answer that the limit did not cut short comes from a search that has ended by itself. -/
theorem endsWith_of_not_isCut {limit : Nat}
    (h : ¬ (solve relax ⟨limit, tolerance⟩ m).status.IsCut limit) :
    ∃ k ≤ limit, (State.root tolerance m).EndsWith relax tolerance (marginFor tolerance m) m k
      (verdict relax ⟨limit, tolerance⟩ m) := by
  rcases search_cases relax tolerance (marginFor tolerance m) m limit
    (State.root tolerance m) with
    hends | ⟨s', _, _, hcut, _⟩
  · exact hends
  · -- The search stands where a greater allowance goes on, so it was cut short.
    rw [solve_eq_solution, Verdict.isCut_solution_iff, verdict] at h
    exact absurd (hcut ▸ rfl) h

/-- An answer of a search that ends by itself is the answer with every limit that covers it,
    and every lesser limit cuts the search short. -/
theorem solve_of_endsWith {limit : Nat} (hk : k ≤ limit)
    (h : (State.root tolerance m).EndsWith relax tolerance (marginFor tolerance m) m k
      (verdict relax ⟨limit, tolerance⟩ m)) (limit' : Nat) :
    (k ≤ limit' → solve relax ⟨limit', tolerance⟩ m = solve relax ⟨limit, tolerance⟩ m) ∧
      (limit' < k → (solve relax ⟨limit', tolerance⟩ m).status.IsCut limit') := by
  constructor
  · intro hk'
    have hsame : verdict relax ⟨limit', tolerance⟩ m = verdict relax ⟨limit, tolerance⟩ m :=
      h.search limit' hk'
    rw [solve_eq_solution, solve_eq_solution, hsame]
    exact Verdict.solution_congr h.itself limit' limit
  · intro hless
    by_contra hcut
    -- Both searches would be the one with the greater limit, and count differently.
    obtain ⟨k', hk', hends⟩ := endsWith_of_not_isCut hcut
    have hsame := (hends.search limit (by omega)).symm.trans (h.search limit hk)
    have hnodes := (congrArg Verdict.nodes hsame).symm.trans hends.nodes
    rw [h.nodes] at hnodes
    omega

/-- An answer that the limit cut short has used it up, and what a greater limit finds
    continues what was found. -/
theorem verdict_of_isCut {limit : Nat}
    (h : (solve relax ⟨limit, tolerance⟩ m).status.IsCut limit) :
    ∃ s, Relation.ReflTransGen (Round relax tolerance (marginFor tolerance m) m)
        (State.root tolerance m) s ∧ s.nodes = limit ∧
      verdict relax ⟨limit, tolerance⟩ m = .truncated s.best limit ∧
      ∀ more, verdict relax ⟨limit + more, tolerance⟩ m =
        search relax tolerance (marginFor tolerance m) m more s.nodes s.best s.stack := by
  rw [solve_eq_solution, Verdict.isCut_solution_iff] at h
  rcases search_cases relax tolerance (marginFor tolerance m) m limit
    (State.root tolerance m) with
    ⟨k, _, hends⟩ | ⟨s, hrounds, hnodes, hcut, hmore⟩
  · exact absurd (hends.itself.symm.trans h) (by simp)
  · have hlimit : s.nodes = limit := hnodes.trans (Nat.zero_add limit)
    exact ⟨s, hrounds, hlimit, hcut.trans (by rw [hlimit]), hmore⟩

/-- Nothing has been found before the first relaxation. -/
theorem best_eq_none_of_rounds
    (h : Relation.ReflTransGen (Round relax tolerance margin m) (State.root tolerance m) s)
    (hnodes : s.nodes = 0) : s.best = none := by
  cases h with
  | refl => rfl
  | tail _ hround =>
      rw [hround.nodes_eq] at hnodes
      cases hnodes

/-- What a search goes on to find is no worse, unless a relaxation cannot be solved. -/
theorem verdict_improves (hmargin : 0 ≤ margin) {b : Incumbent Rat}
    (hrounds : Relation.ReflTransGen (Round relax tolerance margin m) (State.root tolerance m) s)
    (hbest : s.best = some b) (more : Nat)
    (hv : search relax tolerance margin m more s.nodes s.best s.stack = v) :
    (∃ nodes, v = .stalled nodes) ∨ ∃ b' nodes, b'.bound ≤ b.bound ∧
      (v = .exhausted (some b') nodes ∨ v = .truncated (some b') nodes) := by
  obtain ⟨s', hmore, hend⟩ := exists_end relax tolerance margin m more s
  rw [hv] at hend
  obtain ⟨b', hb', hle⟩ := State.Improves.of_rounds hmargin hmore b hbest
  cases v with
  | exhausted best nodes =>
      cases hend
      cases hb'
      exact .inr ⟨b', nodes, hle, .inl rfl⟩
  | truncated best nodes =>
      have hsome : best = some b' := hend.1.symm.trans hb'
      exact .inr ⟨b', nodes, hle, .inr (by rw [hsome])⟩
  | unbounded nodes =>
      -- Only the first relaxation ends a search so, and nothing was found before it.
      have hzero : s.nodes = 0 := Nat.le_zero.mp (hend.1 ▸ nodes_le_of_rounds hmore)
      exact absurd ((best_eq_none_of_rounds hrounds hzero).symm.trans hbest) (by simp)
  | stalled nodes => exact .inl ⟨nodes, rfl⟩

/-- The limit is exact, and the search can be stopped at any time.

    An answer that the limit did not cut short, an optimum proven with the last relaxation
    included, is the answer with every limit that covers its relaxations, and no lesser limit
    gives it. An answer that the limit cut short has used it up. If it is an assignment, a
    greater limit gives one with a bound that is no greater, unless a relaxation cannot be
    solved. -/
theorem node_limit_exact (relax : Relaxer Rat) (m : Model Rat) (tolerance : Rat)
    (hnonneg : 0 ≤ tolerance) (hone : tolerance < 1) (limit : Nat) :
    (¬ (solve relax ⟨limit, tolerance⟩ m).status.IsCut limit →
      (solve relax ⟨limit, tolerance⟩ m).nodes ≤ limit ∧
      (∀ limit', (solve relax ⟨limit, tolerance⟩ m).nodes ≤ limit' →
        solve relax ⟨limit', tolerance⟩ m = solve relax ⟨limit, tolerance⟩ m) ∧
      ∀ limit' < (solve relax ⟨limit, tolerance⟩ m).nodes,
        (solve relax ⟨limit', tolerance⟩ m).status.IsCut limit') ∧
    ((solve relax ⟨limit, tolerance⟩ m).status.IsCut limit →
      (solve relax ⟨limit, tolerance⟩ m).nodes = limit) ∧
    ((solve relax ⟨limit, tolerance⟩ m).status = .feasible →
      ∃ b, (verdict relax ⟨limit, tolerance⟩ m).best? = some b ∧
        solve relax ⟨limit, tolerance⟩ m = solutionOf m .feasible limit b ∧
        ∀ limit', limit ≤ limit' →
          (solve relax ⟨limit', tolerance⟩ m).status = .failed "simplex pivot limit reached" ∨
          ∃ b' status nodes, (verdict relax ⟨limit', tolerance⟩ m).best? = some b' ∧
            solve relax ⟨limit', tolerance⟩ m = solutionOf m status nodes b' ∧
            (status = .optimal ∨ status = .feasible) ∧ b'.bound ≤ b.bound) := by
  refine ⟨fun hwhole => ?_, fun hcut => ?_, fun hfeasible => ?_⟩
  · obtain ⟨k, hk, hends⟩ := endsWith_of_not_isCut hwhole
    have hnodes : (solve relax ⟨limit, tolerance⟩ m).nodes = k := by
      rw [solve_eq_solution, Verdict.nodes_solution, hends.nodes]
      exact Nat.zero_add k
    rw [hnodes]
    exact ⟨hk, fun limit' => (solve_of_endsWith hk hends limit').1,
      fun limit' => (solve_of_endsWith hk hends limit').2⟩
  · obtain ⟨s, _, _, hverdict, _⟩ := verdict_of_isCut hcut
    rw [solve_eq_solution, Verdict.nodes_solution, hverdict]
    rfl
  · obtain ⟨s, hrounds, hnodes, hverdict, hmore⟩ := verdict_of_isCut (.inl hfeasible)
    rw [solve_eq_solution, hverdict] at hfeasible
    -- An answer that is feasible has an assignment behind it.
    cases hbest : s.best with
    | none =>
        rw [hbest] at hfeasible
        cases hfeasible
    | some b =>
        rw [hbest] at hverdict
        refine ⟨b, by rw [hverdict]; rfl, by rw [solve_eq_solution, hverdict]; rfl, ?_⟩
        intro limit' hle
        obtain ⟨more, rfl⟩ := Nat.exists_eq_add_of_le hle
        rcases verdict_improves (marginFor_nonneg hnonneg hone) hrounds hbest more
          (hmore more).symm with ⟨nodes, hv⟩ | ⟨b', nodes, hbound, hv | hv⟩
        · exact .inl (by rw [solve_eq_solution, hv]; rfl)
        · exact .inr ⟨b', .optimal, nodes, by rw [hv]; rfl, by rw [solve_eq_solution, hv]; rfl,
            .inl rfl, hbound⟩
        · exact .inr ⟨b', .feasible, nodes, by rw [hv]; rfl, by rw [solve_eq_solution, hv]; rfl,
            .inr rfl, hbound⟩

/-- The last of the relaxations proves the optimum: one fewer, and the same assignment is
    only feasible. -/
theorem knapsack_limits :
    (0 : Rat) ≤ 1 / 1000000 ∧ (1 / 1000000 : Rat) < 1 ∧
    (solve (Model.relax .exact 20) ⟨30, 1 / 1000000⟩ knapsack).nodes = 13 ∧
    solve (Model.relax .exact 20) ⟨13, 1 / 1000000⟩ knapsack =
      solve (Model.relax .exact 20) ⟨30, 1 / 1000000⟩ knapsack ∧
    (solve (Model.relax .exact 20) ⟨13, 1 / 1000000⟩ knapsack).status = .optimal ∧
    (solve (Model.relax .exact 20) ⟨12, 1 / 1000000⟩ knapsack).status = .feasible ∧
    (solve (Model.relax .exact 20) ⟨12, 1 / 1000000⟩ knapsack).nodes = 12 := by
  have hnonneg : (0 : Rat) ≤ 1 / 1000000 := by norm_num
  have hone : (1 / 1000000 : Rat) < 1 := by norm_num
  have hnodes : (solve (Model.relax .exact 20) ⟨30, 1 / 1000000⟩ knapsack).nodes = 13 := by
    decide +kernel
  have hoptimal : (solve (Model.relax .exact 20) ⟨30, 1 / 1000000⟩ knapsack).status = .optimal := by
    decide +kernel
  have hfeasible : (solve (Model.relax .exact 20) ⟨12, 1 / 1000000⟩ knapsack).status =
      .feasible := by
    decide +kernel
  have hwhole : ¬ (solve (Model.relax .exact 20) ⟨30, 1 / 1000000⟩ knapsack).status.IsCut 30 := by
    rw [hoptimal]
    decide
  have hsame := ((node_limit_exact (Model.relax .exact 20) knapsack (1 / 1000000) hnonneg hone
    30).1 hwhole).2.1 13 hnodes.le
  exact ⟨hnonneg, hone, hnodes, hsame, by rw [hsame, hoptimal], hfeasible,
    (node_limit_exact (Model.relax .exact 20) knapsack (1 / 1000000) hnonneg hone 12).2.1
      (.inl hfeasible)⟩

end BranchAndBound

end CyclePlan
