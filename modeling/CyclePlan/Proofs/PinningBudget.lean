import CyclePlan.Proofs.FractionalLatencies
import CyclePlan.Proofs.Pinning
import CyclePlan.Proofs.Resource.Looks

/-!
# The Budget of Pinning

How many passes pinning takes.

Pinning that succeeds is a number of looks, and each look is a pass. So the passes that it
reports are exactly those that it needs: with as many or more, and with the same bound on
cycles or a later one, it does the same and reports the same. With fewer, it gives up when
they are used up, at an operation that is looked at once more in the longer run. What is
reported as waiting is the rest of the class in turn, the operation itself included; the
operations of later classes are not counted.

Neither the handle nor the solver has to be right about anything for this, and the numbers
may be doubles.

## Theorems

* `exists_perform_pinToColumns_error`: A refusal is answered, with nothing in its way.
* `pinning_budget_exact`: Pinning takes the passes that it reports.
-/

namespace CyclePlan

section

variable {α : Type} [Scalar α] {limits : Limits} {interval : Int} {budget : PinningBudget}
  {h h' : Handle α} {report : PinningReport}

/-- A refusal of placing is the answer. What was added can always be taken back. -/
theorem exists_perform_pinToColumns_error (hassign : h.hasAssignment = true)
    {cause : SchedulingError α} {t : Trial α}
    (hplace : (Placing.start limits h).finish budget interval budget.iterations
      = (.error cause, t)) :
    ∃ h'', perform (pinToColumns limits interval budget) h = (.error cause, h'') := by
  rw [Placing.finish_start] at hplace
  have hlists : t.Lists :=
    (placeAll_lists budget interval h.view limits.toList _).of_perform hplace (.start h)
  rcases exists_perform_attempt_error hplace hlists with ⟨h'', hattempt⟩
  refine ⟨h'', ?_⟩
  rw [pinToColumns, perform_bind_of_ok (perform_get h), hassign]
  exact perform_bind_of_error hattempt _

/-- Pinning takes the passes that it reports: it does and reports the same with any budget
    of at least as many passes and a bound on cycles that is no earlier, and with fewer
    passes it gives up when they are used up. Then the classes before the one in turn are
    placed, and so are the first operations of that class; the others, at least one, are
    reported as waiting. -/
theorem pinning_budget_exact
    (hrun : perform (pinToColumns limits interval budget) h = (.ok report, h')) :
    (∀ budget', report.passes ≤ budget'.iterations → budget.maxLatency ≤ budget'.maxLatency →
      perform (pinToColumns limits interval budget') h = (.ok report, h')) ∧
    ∀ iterations < report.passes, ∃ before unit capacity after pinned waiting s h'',
      limits.toList = before ++ (unit, capacity) :: after ∧
      h.view.unitQueue unit = pinned ++ waiting ∧ 1 ≤ waiting.length ∧
      Looks budget interval iterations (.start limits h) s ∧
      s.placed.reverse = before.flatMap (fun e => h.view.unitQueue e.1) ++ pinned ∧
      perform (pinToColumns limits interval { budget with iterations }) h =
        (.error (.pinning (.budgetExhausted iterations waiting.length)), h'') := by
  rcases perform_pinToColumns_ok_iff.mp hrun with ⟨hassign, p, t, hplace, rfl, rfl⟩
  rw [← Placing.finish_start] at hplace
  rcases exists_looks budget.iterations _ hplace with ⟨used, hused, hlooks⟩
  have hpasses : budget.iterations - p.remaining = used := by omega
  simp only [hpasses]
  constructor
  · intro budget' hcovers hle
    obtain ⟨spare, hspare⟩ := Nat.exists_eq_add_of_le hcovers
    refine perform_pinToColumns_ok_iff.mpr ⟨hassign, ⟨spare, p.placed, p.pushes⟩, t, ?_, rfl, ?_⟩
    · rw [← Placing.finish_start, hspare, (hlooks.later hle).finish_eq]
      exact Placing.finish_nil
    · rw [hspare, Nat.add_sub_cancel]
  · intro iterations hless
    -- The run is cut after as many looks, where an operation still waits.
    rcases hlooks.exists_prefix hless with
      ⟨t₁, placed, pushes, unit, capacity, node, queue, classes, hcut⟩
    have hfollows := (Placing.follows_start limits h).looks hcut
    generalize hwaiting : node :: queue = waiting at hcut hfollows
    cases hfollows with
    | @within _ _ _ before _ _ after pinned _ hentries hqueue hplaced =>
        have hsame : Looks { budget with iterations } interval iterations (.start limits h) _ :=
          hcut.later (le_refl budget.maxLatency)
        have hstop : (Placing.start limits h).finish { budget with iterations } interval iterations
            = (.error (.pinning (.budgetExhausted iterations waiting.length)), t₁) := by
          rw [← hwaiting] at hsame ⊢
          exact (hsame.finish_eq 0).trans Placing.finish_zero
        rcases exists_perform_pinToColumns_error hassign hstop with ⟨h'', herror⟩
        refine ⟨before, unit, capacity, after, pinned, waiting, _, h'', hentries, hqueue, ?_, hcut,
          hplaced, herror⟩
        rw [← hwaiting]
        exact Nat.succ_le_succ (Nat.zero_le _)

end

/-- Two additions, one after the other, as soon as possible. -/
def Handle.chain : Handle Rat :=
  (Engine.solvedFrom "chain_asap" (View.chain 2)).handle (View.chain 2)

/-- With one adder and an interval of two cycles, the second addition falls into the column
    of the first and is pushed once. So there are three passes. Two are too few, and a thousand
    change nothing. -/
theorem pinning_budget_exact_chain :
    ∃ h', perform (pinToColumns Limits.oneAdder 2 ⟨3, 3⟩) Handle.chain
        = (.ok ⟨3, 2, 1, [4, 5, 6]⟩, h') ∧
      perform (pinToColumns Limits.oneAdder 2 ⟨1000, 1000⟩) Handle.chain
        = (.ok ⟨3, 2, 1, [4, 5, 6]⟩, h') ∧
      ∃ waiting h'', 1 ≤ waiting ∧ perform (pinToColumns Limits.oneAdder 2 ⟨2, 3⟩) Handle.chain
        = (.error (.pinning (.budgetExhausted 2 waiting)), h'') := by
  have hreport : (perform (pinToColumns Limits.oneAdder 2 ⟨3, 3⟩) Handle.chain).1.toOption
      = some ⟨3, 2, 1, [4, 5, 6]⟩ := by
    decide +kernel
  have hrun := Prod.ext (x := (perform (pinToColumns Limits.oneAdder 2 ⟨3, 3⟩) Handle.chain))
    (y := (.ok ⟨3, 2, 1, [4, 5, 6]⟩, _)) (eq_ok_of_toOption hreport) rfl
  rcases pinning_budget_exact hrun with ⟨hmore, hless⟩
  rcases hless 2 (by decide) with
    ⟨_, _, _, _, _, waiting, _, h'', _, _, hwaits, _, _, hexhausted⟩
  exact ⟨_, hrun, hmore ⟨1000, 1000⟩ (by decide) (by decide), waiting.length, h'', hwaits,
    hexhausted⟩

end CyclePlan
