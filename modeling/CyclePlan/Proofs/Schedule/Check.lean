import Mathlib.Tactic.Linarith
import CyclePlan.Scalar.Rational
import CyclePlan.Schedule.Check

/-!
# What Checks Report

The dependency check, edge by edge, and the check of what is issued, slot by slot.

The dependency check visits every edge and collects what it finds. Since it never fails on
a graph whose edges all join two operations, its answer is a list, and an item
is on that list exactly if some edge accounts for it (`exists_checkDependencies`).
An edge accounts for something only if both of its ends have a start cycle, and
a back-edge only if there is an interval as well.

The other check goes through the slots in use. A slot that is not in use has no
operations, so that the check finds nothing exactly if no slot at all has more than the
capacity of its class (`checkIssue_eq_nil_iff`).

## Main definitions

* `Schedule.reported?`: What is reported about an edge.

## Theorems

* `exists_checkDependencies`: What is on the list.
* `slack?_forward_iff`, `slack?_back_iff`: What an edge has to spare.
* `slotOf?_eq_some_iff`, `mem_slots_iff`, `checkIssue_eq_nil_iff`: What is issued where.
-/

namespace CyclePlan

/-- A loop whose rounds all succeed collects their answers. -/
theorem exists_mapM {ε β γ : Type} {f : β → Except ε γ} {answer : β → γ} {bs : List β}
    (h : ∀ b ∈ bs, f b = .ok (answer b)) : bs.mapM f = .ok (bs.map answer) := by
  induction bs with
  | nil => rfl
  | cons b bs ih =>
      rw [List.mapM_cons, h b List.mem_cons_self,
        ih fun b' hb' => h b' (List.mem_cons_of_mem _ hb')]
      rfl

namespace Schedule

variable {s : Schedule Rat} {g : Graph Rat} {a b : Operation Rat}

/-- What is reported about an edge between two operations. -/
def reported? (s : Schedule Rat) (back : Bool) (a b : Operation Rat) : Option Violation :=
  match s.slack? back a b with
  | some slack => if slack < 0 then some (dependencyViolation back a b slack) else none
  | none => none

theorem reported?_eq_some_iff {back : Bool} {w : Violation} :
    s.reported? back a b = some w ↔
      ∃ slack, s.slack? back a b = some slack ∧ slack < 0 ∧
        w = dependencyViolation back a b slack := by
  rw [reported?]
  cases s.slack? back a b with
  | none =>
      constructor
      · intro h
        cases h
      · rintro ⟨_, h, _⟩
        cases h
  | some slack =>
      by_cases hneg : slack < 0
      · simp only [hneg, if_true]
        constructor
        · intro h
          cases h
          exact ⟨slack, rfl, hneg, rfl⟩
        · rintro ⟨_, h, _, rfl⟩
          cases h
          rfl
      · simp only [hneg, if_false]
        constructor
        · intro h
          cases h
        · rintro ⟨_, h, hneg', _⟩
          cases h
          exact absurd hneg' hneg

theorem checkDependency_eq {e : Dependency} (ha : g.node? e.source = some a)
    (hb : g.node? e.target = some b) :
    s.checkDependency g e = .ok (s.reported? e.backEdge a b) := by
  simp only [checkDependency, ha, hb, reported?]
  cases s.slack? e.backEdge a b with
  | none => rfl
  | some slack => rfl

/-- The check succeeds where all edges join two operations, and reports what
    the edges account for. -/
theorem exists_checkDependencies (s : Schedule Rat)
    (hjoined : ∀ e ∈ g.edges, e.source < g.size ∧ e.target < g.size) :
    ∃ vs, s.checkDependencies g = .ok vs ∧ ∀ w, w ∈ vs ↔
      ∃ e ∈ g.edges, ∃ a b, g.node? e.source = some a ∧ g.node? e.target = some b ∧
        s.reported? e.backEdge a b = some w := by
  have hends : ∀ e ∈ g.edges, ∃ a b, g.node? e.source = some a ∧ g.node? e.target = some b := by
    intro e he
    rcases hjoined e he with ⟨hsource, htarget⟩
    exact ⟨_, _, List.getElem?_eq_getElem hsource, List.getElem?_eq_getElem htarget⟩
  -- The two ends are looked up once more, so that the answer is a function of the edge.
  let answer (e : Dependency) : Option Violation := do
    s.reported? e.backEdge (← g.node? e.source) (← g.node? e.target)
  have hanswer : ∀ e ∈ g.edges, s.checkDependency g e = .ok (answer e) := by
    intro e he
    rcases hends e he with ⟨a, b, ha, hb⟩
    rw [checkDependency_eq ha hb]
    simp only [answer, ha, hb, Option.bind_eq_bind, Option.bind_some]
  refine ⟨(g.edges.map answer).filterMap id, ?_, fun w => ?_⟩
  · rw [checkDependencies, exists_mapM hanswer]
    rfl
  · rw [List.filterMap_map, List.mem_filterMap]
    refine exists_congr fun e => and_congr_right fun he => ?_
    rcases hends e he with ⟨a, b, ha, hb⟩
    simp only [answer, Function.comp_apply, id_eq, ha, hb, Option.bind_eq_bind, Option.bind_some]
    constructor
    · intro hw
      exact ⟨a, b, rfl, rfl, hw⟩
    · rintro ⟨_, _, ⟨⟩, ⟨⟩, hw⟩
      exact hw

/-- A forward dependency lacks nothing if the consumer starts late enough. -/
theorem slack?_forward_iff {slack : Rat} :
    s.slack? false a b = some slack ↔
      ∃ ca cb, s.cycle? a.name = some ca ∧ s.cycle? b.name = some cb ∧
        slack = (cb : Rat) - ca - a.latency := by
  rw [slack?]
  cases s.cycle? a.name with
  | none => simp
  | some ca =>
      cases s.cycle? b.name with
      | none => simp
      | some cb =>
          have hvalue : (Scalar.ofInt (cb - ca) : Rat) = cb - ca := by
            change ((cb - ca : Int) : Rat) = _
            push_cast
            rfl
          simp [hvalue, eq_comm]

/-- A loop-carried one has the interval to spare. -/
theorem slack?_back_iff {slack : Rat} :
    s.slack? true a b = some slack ↔
      ∃ ca cb interval, s.cycle? a.name = some ca ∧ s.cycle? b.name = some cb ∧
        s.interval = some interval ∧ slack = (cb : Rat) - ca + interval - a.latency := by
  rw [slack?]
  cases s.cycle? a.name with
  | none => simp
  | some ca =>
      cases s.cycle? b.name with
      | none => simp
      | some cb =>
          cases s.interval with
          | none => simp
          | some interval =>
              have hvalue : (Scalar.ofInt (cb - ca + loopDistance * interval) : Rat)
                  = cb - ca + interval := by
                change ((cb - ca + loopDistance * interval : Int) : Rat) = _
                rw [loopDistance]
                push_cast
                ring
              simp [hvalue, eq_comm]

/-! ### Slots -/

section

variable {α : Type} {s : Schedule α} {g : Graph α} {limits : Limits} {slot : IssueSlot}
  {op : Operation α}

/-- An operation is issued in the slot of its block, cycle and class. -/
theorem slotOf?_eq_some_iff :
    s.slotOf? op = some slot ↔
      op.block = slot.block ∧ op.kind.unit? = some slot.unit ∧
        s.cycle? op.name = some slot.cycle := by
  rw [slotOf?]
  constructor
  · intro h
    rcases Option.bind_eq_some_iff.mp h with ⟨unit, hunit, h⟩
    rcases Option.bind_eq_some_iff.mp h with ⟨cycle, hcycle, h⟩
    cases h
    exact ⟨rfl, hunit, hcycle⟩
  · rintro ⟨hblock, hunit, hcycle⟩
    rw [hunit, hcycle, hblock]
    rfl

theorem length_issuedIn (s : Schedule α) (g : Graph α) (slot : IssueSlot) :
    (s.issuedIn g slot).length = g.ops.countP fun op => s.slotOf? op == some slot := by
  rw [issuedIn, List.length_map, List.countP_eq_length_filter]

theorem mem_slots_iff : slot ∈ s.slots g ↔ ∃ op ∈ g.ops, s.slotOf? op = some slot := by
  rw [slots, List.mem_mergeSort, List.mem_eraseDups, List.mem_filterMap]

/-- The check finds nothing if no slot has more operations than the capacity. -/
theorem checkIssue_eq_nil_iff :
    s.checkIssue g limits = [] ↔
      ∀ slot capacity, limits.capacity? slot.unit = some capacity →
        g.ops.countP (fun op => s.slotOf? op == some slot) ≤ capacity := by
  rw [checkIssue, List.filterMap_eq_nil_iff]
  refine forall_congr' fun slot => ?_
  rw [← length_issuedIn]
  by_cases hused : slot ∈ s.slots g
  · cases limits.capacity? slot.unit with
    | none => simp
    | some capacity =>
        by_cases hover : capacity < (s.issuedIn g slot).length
        · simp [hused, hover]
        · simp [hused, hover, Nat.le_of_not_lt hover]
  · -- A slot that is not in use has no operations.
    have hnone : (s.issuedIn g slot).length = 0 := by
      rw [length_issuedIn, List.countP_eq_zero]
      intro op hop hslot
      exact hused (mem_slots_iff.mpr ⟨op, hop, beq_iff_eq.mp hslot⟩)
    simp [hused, hnone]

end

end Schedule

end CyclePlan
