import CyclePlan.Proofs.Engine.Accepting
import CyclePlan.Proofs.Engine.Rows
import CyclePlan.Proofs.Graph.Fit

/-!
# Building Timing Models

The steps of a discipline lead to its program.

Every step is followed once. If it succeeds, the model has grown by exactly the
variables and the rows that the program lists for it. That it succeeds is proved
elsewhere, for every number type. The steps of the engine only decide when a step
of the discipline runs, so their equations say which phase and which flags a call
needs and hand the model on.

## Main definitions

* `Discipline.StartsKnown`: The timing variables exist.

## Theorems

* `allocate_growsBy`: The timing variables.
* `Discipline.addIntervals_growsBy`: The interval constraints.
* `Discipline.addObjective_growsBy`: The auxiliary constraints and the goal.
-/

namespace CyclePlan

namespace Engine

/-! ### Timing variables -/

theorem perform_addStart_ok_iff {n : View.Node Rat} {m m' : Model Rat} :
    perform (addStart n) m = (.ok ⟨⟩, m') ↔
      ∃ fresh : m.variableId? (startVar n.name) = none,
        m' = m.withVariable (startVariable n) fresh := by
  rw [addStart, perform_bind_ok_iff]
  constructor
  · rintro ⟨id, t, hadd, hrest⟩
    rcases (Model.perform_addVariable_ok_iff (by decide)).mp hadd with ⟨_, fresh, rfl⟩
    cases hrest
    exact ⟨fresh, rfl⟩
  · rintro ⟨fresh, rfl⟩
    exact ⟨_, _, (Model.perform_addVariable_ok_iff (by decide)).mpr ⟨rfl, fresh, rfl⟩, rfl⟩

theorem addStarts_growsBy {nodes : List (View.Node Rat)} {m m' : Model Rat}
    (h : perform (nodes.forM addStart) m = (.ok ⟨⟩, m')) :
    m.GrowsBy m' (nodes.map startVariable) [] := by
  induction nodes generalizing m with
  | nil =>
      cases h
      exact Model.GrowsBy.refl _
  | cons n nodes ih =>
      rcases perform_forM_cons_ok_iff.mp h with ⟨t, hfirst, hrest⟩
      rcases perform_addStart_ok_iff.mp hfirst with ⟨fresh, rfl⟩
      exact (Model.GrowsBy.withVariable m (startVariable n) fresh).trans (ih hrest)

/-- A fresh model has the timing variables and nothing else. -/
theorem allocate_growsBy {name : String} {v : View Rat} {m : Model Rat}
    (h : allocate name v = .ok m) :
    (Model.named name : Model Rat).GrowsBy m (v.nodes.map startVariable) [] := by
  rw [allocate] at h
  split at h
  · next hrun =>
    cases h
    exact addStarts_growsBy hrun
  · cases h

end Engine

/-! ### Steps of a discipline -/

namespace Discipline

/-- All timing variables of a view exist. -/
def StartsKnown {α : Type} (v : View α) (m : Model α) : Prop :=
  ∀ n ∈ v.nodes, m.Knows (startVar n.name)

theorem StartsKnown.of_isPrefix {α : Type} {v : View α} {m m' : Model α} (h : StartsKnown v m)
    (hvars : m.vars <+: m'.vars) : StartsKnown v m' :=
  fun n hn => (h n hn).of_isPrefix hvars

theorem perform_boundSink_ok_iff {bounds : NameMap Int} (n : View.Node Rat)
    (m m' : Model Rat) :
    perform (boundSink bounds n) m = (.ok ⟨⟩, m') ↔
      (bounds.get? n.name).isSome ∧ (Row.sinkBound bounds n).IsKnown m ∧
        m' = m.withRow (Row.sinkBound bounds n) := by
  rw [boundSink]
  cases hbound : bounds.get? n.name with
  | none =>
      constructor
      · intro h
        cases h
      · rintro ⟨h, _⟩
        cases h
  | some bound =>
      rw [Option.isSome_some, eq_self, true_and, ← BuildM.perform_addRow_ok_iff, Row.sinkBound,
        hbound, Option.getD_some]
      rfl

theorem addBlockInterval_growsBy {b : Nat} {m m' : Model Rat}
    (h : perform (addBlockInterval b) m = (.ok ⟨⟩, m')) :
    m.GrowsBy m' [intervalVariable (blockIntervalVar b)] [Row.blockInterval b] := by
  rcases perform_bind_ok_iff.mp h with ⟨id, t, hvar, hrow⟩
  exact (BuildM.addVariable_growsBy hvar).trans
    (BuildM.addRow_growsBy (r := Row.blockInterval b) hrow)

theorem addBlockIntervals_growsBy {bs : List Nat} {m m' : Model Rat}
    (h : perform (bs.forM (addBlockInterval (α := Rat))) m = (.ok ⟨⟩, m')) :
    m.GrowsBy m' (bs.map fun b => intervalVariable (blockIntervalVar b))
      (bs.map Row.blockInterval) := by
  induction bs generalizing m with
  | nil =>
      cases h
      exact Model.GrowsBy.refl _
  | cons b bs ih =>
      rcases perform_forM_cons_ok_iff.mp h with ⟨t, hfirst, hrest⟩
      exact (addBlockInterval_growsBy hfirst).trans (ih hrest)

theorem addIntervalVars_growsBy {target : IntervalTarget} {v : View Rat} {m m' : Model Rat}
    (h : perform (addIntervalVars target v) m = (.ok ⟨⟩, m')) :
    m.GrowsBy m' (intervalVariables v target) (intervalPins v target) := by
  cases target with
  | fixed interval =>
      rw [addIntervalVars] at h
      by_cases hsmall : interval < 1
      · simp only [hsmall, if_true] at h
        cases h
      · simp only [hsmall, if_false] at h
        rcases perform_bind_ok_iff.mp h with ⟨id, t, hvar, hrow⟩
        exact (BuildM.addVariable_growsBy hvar).trans
          (BuildM.addRow_growsBy (r := Row.pin intervalVar interval) hrow)
  | perBlock =>
      rcases perform_bind_ok_iff.mp h with ⟨id, t, hvar, hblocks⟩
      exact (BuildM.addVariable_growsBy hvar).trans (addBlockIntervals_growsBy hblocks)

/-- The interval constraints that are accepted are those of the program. -/
theorem addIntervals_growsBy {target : IntervalTarget} {v : View Rat} {m m' : Model Rat}
    {k : Nat} (h : perform (addIntervals (.pipelined target) v) m = (.ok k, m')) :
    m.GrowsBy m' (intervalVariables v target) (intervalRows v target) := by
  rw [addIntervals] at h
  split at h
  · -- A back pair leaves its block.
    cases h
  · rcases perform_bind_ok_iff.mp h with ⟨_, t, hvars, hrest⟩
    rcases perform_bind_ok_iff.mp hrest with ⟨_, t', hback, hanswer⟩
    cases hanswer
    rcases BuildM.perform_forM_addRow_ok_iff (f := Row.backEdge target).mp hback with
      ⟨hknown, rfl⟩
    have hrows : t.GrowsBy (t.withRows (v.backPairs.map (Row.backEdge target))) []
        (v.backPairs.map (Row.backEdge target)) := by
      refine Model.GrowsBy.withRows _ fun r hr => ?_
      rcases List.mem_map.mp hr with ⟨p, hp, rfl⟩
      exact hknown p hp
    have hboth := (addIntervalVars_growsBy hvars).trans hrows
    rwa [List.append_nil] at hboth

/-! ### Goals -/

theorem startTerms_known {α : Type} {v : View α} {m : Model α} (h : StartsKnown v m) (c : α) :
    ∀ t ∈ startTerms v c, m.Knows t.1 := by
  intro t ht
  rcases List.mem_map.mp ht with ⟨n, hn, rfl⟩
  exact h n hn

theorem perform_setGoal_ok_iff {terms : List (String × Rat)} {m m' : Model Rat} :
    perform (BuildM.step (Model.setObjective terms .minimize)) m = (.ok ⟨⟩, m') ↔
      (∀ t ∈ terms, m.Knows t.1) ∧ m' = m.withObjective .minimize terms := by
  rw [BuildM.perform_step_ok_iff, Model.perform_setObjective_ok_iff]

/-- For overlapping iterations the objective is all that is added, once there
    is an interval variable. -/
theorem addObjective_pipelined {target : IntervalTarget} {v : View Rat} {m m' : Model Rat}
    (h : perform (addObjective (.pipelined target) v) m = (.ok ⟨⟩, m')) :
    (∀ t ∈ goal v (.pipelined target), m.Knows t.1) ∧
      m' = m.withObjective .minimize (goal v (.pipelined target)) := by
  cases target with
  | fixed interval =>
      rcases perform_bind_ok_iff.mp h with ⟨_, t, hreq, hgoal⟩
      rcases perform_requireVar_ok_iff.mp hreq with ⟨_, rfl⟩
      exact perform_setGoal_ok_iff.mp hgoal
  | perBlock =>
      rcases perform_bind_ok_iff.mp h with ⟨_, t, hreq, hgoal⟩
      rcases perform_requireVar_ok_iff.mp hreq with ⟨_, rfl⟩
      exact perform_setGoal_ok_iff.mp hgoal

/-- Otherwise the auxiliary variables and rows come first. -/
theorem addObjective_growsBy {t : Discipline} (ht : t.isPipelined = false) {v : View Rat}
    {m m' : Model Rat} (h : perform (t.addObjective v) m = (.ok ⟨⟩, m')) :
    ∃ m₁, m.GrowsBy m₁ (t.auxiliaries v) (t.auxiliaryRows v) ∧
      (∀ x ∈ t.goal v, m₁.Knows x.1) ∧ m' = m₁.withObjective .minimize (t.goal v) := by
  cases t with
  | asap => exact ⟨m, Model.GrowsBy.refl m, perform_setGoal_ok_iff.mp h⟩
  | alap bounds =>
      rcases perform_bind_ok_iff.mp h with ⟨_, m₁, hbounds, hgoal⟩
      rcases (BuildM.perform_forM_row_ok_iff perform_boundSink_ok_iff).mp hbounds with
        ⟨hknown, rfl⟩
      refine ⟨_, Model.GrowsBy.withRows _ fun r hr => ?_, perform_setGoal_ok_iff.mp hgoal⟩
      rcases List.mem_map.mp hr with ⟨n, hn, rfl⟩
      exact (hknown n hn).2
  | noPipeline =>
      rcases perform_bind_ok_iff.mp h with ⟨_, t, hvar, hrest⟩
      rcases perform_bind_ok_iff.mp hrest with ⟨_, m₁, hcover, hgoal⟩
      rcases BuildM.perform_forM_addRow_ok_iff (f := Row.sinkCover).mp hcover with
        ⟨hknown, rfl⟩
      have hrows : t.GrowsBy (t.withRows (v.sinks.map Row.sinkCover)) []
          (v.sinks.map Row.sinkCover) := by
        refine Model.GrowsBy.withRows _ fun r hr => ?_
        rcases List.mem_map.mp hr with ⟨n, hn, rfl⟩
        exact hknown n hn
      exact ⟨_, (BuildM.addVariable_growsBy hvar).trans hrows, perform_setGoal_ok_iff.mp hgoal⟩
  | pipelined target => cases ht

end Discipline

end CyclePlan
