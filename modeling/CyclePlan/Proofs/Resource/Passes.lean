import Mathlib.Logic.Relation
import CyclePlan.Proofs.Resource.Growth
import CyclePlan.Proofs.Resource.Trial

/-!
# Passes

Pinning, one look at an operation at a time.

The procedure is written class by class. Here it is taken apart into its passes. A
`Standing` says which operations wait, class by class, and a `Pass` looks at the first of
them: it is pinned, or it is pushed and stays where it is. A class without waiting
operations is left for the next one.

What pinning ends with is not changed by a pass (`Pass.finish_eq`), and where there is no
pass, pinning stops (`exists_pass_or_stops`). Since passes use up a budget, every run is a
sequence of passes with a stop at its end, whether it is refused or not (`exists_stop`).
So whatever a pass preserves holds at all times, also in runs that are taken back later.

## Main definitions

* `WaitingClass`, `Standing`: Where pinning stands.
* `Pass`: How it goes on.
* `Stops`: How it stops.
* `Standing.finish`: What is left to be done.
* `Standing.start`: Where it begins.

## Theorems

* `Pass.finish_eq`: A pass does not change the result.
* `exists_pass_or_stops`: Pinning goes on or stops.
* `exists_stop`: It stops somewhere.
* `exists_passes_of_ok`: Where it stops if it succeeds.
-/

namespace CyclePlan

/-- The operations of a class that wait to be placed. -/
structure WaitingClass where
  unit : String
  capacity : Nat
  queue : List String

/-- Where pinning stands. -/
structure Standing where
  trial : Trial Rat
  progress : Progress
  /-- The classes that are not done, the one in turn first. -/
  classes : List WaitingClass

/-- A pass that pins or pushes the first operation, or the change to the next class. -/
inductive Pass (budget : PinningBudget) (interval : Int) : Standing → Standing → Prop
  | pin {t remaining placed pushes unit capacity node queue classes cycle}
      (hcycle : t.handle.cycle? node = some cycle)
      (hroom : fits t.handle interval unit capacity placed node cycle = true)
      (hknown : t.handle.model.Knows (startVar node)) :
      Pass budget interval
        ⟨t, ⟨remaining + 1, placed, pushes⟩, ⟨unit, capacity, node :: queue⟩ :: classes⟩
        ⟨t.withRow (Row.pin (startVar node) cycle), ⟨remaining, node :: placed, pushes⟩,
          ⟨unit, capacity, queue⟩ :: classes⟩
  | push {t remaining placed pushes unit capacity node queue classes cycle}
      (hcycle : t.handle.cycle? node = some cycle)
      (hfull : fits t.handle interval unit capacity placed node cycle = false)
      (hbound : cycle + 1 ≤ budget.maxLatency)
      (hknown : t.handle.model.Knows (startVar node))
      (hassign : (t.pushed node (cycle + 1)).handle.hasAssignment = true) :
      Pass budget interval
        ⟨t, ⟨remaining + 1, placed, pushes⟩, ⟨unit, capacity, node :: queue⟩ :: classes⟩
        ⟨t.pushed node (cycle + 1), ⟨remaining, placed, pushes + 1⟩,
          ⟨unit, capacity, node :: queue⟩ :: classes⟩
  | next {t p unit capacity classes} :
      Pass budget interval ⟨t, p, ⟨unit, capacity, []⟩ :: classes⟩ ⟨t, p, classes⟩

/-- Any number of passes. -/
abbrev Passes (budget : PinningBudget) (interval : Int) : Standing → Standing → Prop :=
  Relation.ReflTransGen (Pass budget interval)

/-- Pinning stops where it stands, with an answer and a trial. -/
inductive Stops (budget : PinningBudget) (interval : Int) :
    Standing → Except (SchedulingError Rat) Progress × Trial Rat → Prop
  | done {t p} : Stops budget interval ⟨t, p, []⟩ (.ok p, t)
  | exhausted {t placed pushes unit capacity node queue classes} :
      Stops budget interval ⟨t, ⟨0, placed, pushes⟩, ⟨unit, capacity, node :: queue⟩ :: classes⟩
        (.error (.pinning (.budgetExhausted budget.iterations (node :: queue).length)), t)
  | unsolved {t remaining placed pushes unit capacity node queue classes}
      (hcycle : t.handle.cycle? node = none) :
      Stops budget interval
        ⟨t, ⟨remaining + 1, placed, pushes⟩, ⟨unit, capacity, node :: queue⟩ :: classes⟩
        (.error (.pinning .unsolved), t)
  /-- The operation has no variable, so no row about it is accepted. -/
  | unknown {t remaining placed pushes unit capacity node queue classes cause}
      (hunknown : ¬ t.handle.model.Knows (startVar node)) :
      Stops budget interval
        ⟨t, ⟨remaining + 1, placed, pushes⟩, ⟨unit, capacity, node :: queue⟩ :: classes⟩
        (.error cause, t)
  | late {t remaining placed pushes unit capacity node queue classes cycle}
      (hcycle : t.handle.cycle? node = some cycle)
      (hfull : fits t.handle interval unit capacity placed node cycle = false)
      (hlate : budget.maxLatency < cycle + 1) :
      Stops budget interval
        ⟨t, ⟨remaining + 1, placed, pushes⟩, ⟨unit, capacity, node :: queue⟩ :: classes⟩
        (.error (.pinning (.latencyBoundExceeded node (cycle + 1) budget.maxLatency)), t)
  | infeasible {t remaining placed pushes unit capacity node queue classes cycle}
      (hcycle : t.handle.cycle? node = some cycle)
      (hfull : fits t.handle interval unit capacity placed node cycle = false)
      (hbound : cycle + 1 ≤ budget.maxLatency)
      (hdenied : (t.pushed node (cycle + 1)).handle.hasAssignment = false) :
      Stops budget interval
        ⟨t, ⟨remaining + 1, placed, pushes⟩, ⟨unit, capacity, node :: queue⟩ :: classes⟩
        (.error (.pinning (.infeasible node (cycle + 1))), t.pushed node (cycle + 1))

namespace Standing

/-- What is left to be done for the classes that are not done. -/
def place {α : Type} [Scalar α] (budget : PinningBudget) (interval : Int) :
    List WaitingClass → Progress → TrialM α Progress
  | [], p => return p
  | c :: classes, p => do
    let p ← CyclePlan.place budget interval c.unit c.capacity p.remaining p.placed p.pushes c.queue
    place budget interval classes p

/-- What pinning ends with from where it stands. -/
def finish (budget : PinningBudget) (interval : Int) (s : Standing) :
    Except (SchedulingError Rat) Progress × Trial Rat :=
  perform (place budget interval s.classes s.progress) s.trial

/-- Where pinning begins. -/
def start (limits : Limits) (budget : PinningBudget) (h : Handle Rat) : Standing where
  trial := { handle := h }
  progress := { remaining := budget.iterations }
  classes := limits.toList.map fun e => ⟨e.1, e.2, h.view.unitQueue e.1⟩

/-- Placing class by class is what is left to be done at the beginning. -/
theorem placeAll_eq {α : Type} [Scalar α] (budget : PinningBudget) (interval : Int) (v : View α)
    (entries : List (String × Nat)) (p : Progress) :
    placeAll budget interval v entries p =
      place budget interval (entries.map fun e => ⟨e.1, e.2, v.unitQueue e.1⟩) p := by
  induction entries generalizing p with
  | nil => rfl
  | cons e entries ih =>
      rw [placeAll, List.map_cons, place]
      simp only [ih]

theorem finish_start (limits : Limits) (interval : Int) (budget : PinningBudget) (h : Handle Rat) :
    (start limits budget h).finish budget interval =
      perform (placeAll budget interval h.view limits.toList { remaining := budget.iterations })
        { handle := h } := by
  rw [placeAll_eq]
  rfl

/-- Every pass uses up one of these. -/
def left (s : Standing) : Nat := s.progress.remaining + s.classes.length

end Standing

section

variable {budget : PinningBudget} {interval : Int} {t : Trial Rat} {unit node : String}
  {capacity remaining pushes : Nat} {placed queue : List String} {classes : List WaitingClass}
  {cycle : Int} {s s' : Standing}

/-! ### Single steps -/

/-- A row that is not accepted changes nothing. -/
theorem exists_constrain_error {r : Row} (h : ¬ r.IsKnown t.handle.model) :
    ∃ cause, perform (TrialM.constrain r.terms r.relation r.rhs) t = (.error cause, t) := by
  rcases hadd : perform (Model.addConstraint r.terms r.relation r.rhs) t.handle.model with
    ⟨answer, m⟩
  cases answer with
  | ok id => exact absurd (Model.perform_addConstraint_ok_iff.mp hadd).1 h
  | error cause =>
      have hstep := perform_trial_onModel (Model.addConstraint r.terms r.relation r.rhs) t
      rw [hadd, (Model.perform_addConstraint_error hadd).1] at hstep
      exact ⟨.lp cause, perform_bind_of_error hstep _⟩

/-- Within the bound on cycles, a push adds a row and looks at the new answer. -/
theorem perform_push {target : Int} (hbound : target ≤ budget.maxLatency)
    (hknown : t.handle.model.Knows (startVar node)) :
    perform (push budget node target) t =
      (if (t.pushed node target).handle.hasAssignment then .ok ⟨⟩
        else .error (.pinning (.infeasible node target)), t.pushed node target) := by
  have hrow : perform (TrialM.constrain [(startVar node, 1)] .ge (Scalar.ofInt target)) t
      = (.ok ⟨⟩, t.withRow (Row.notBefore (startVar node) target)) :=
    (perform_constrain_ok_iff (r := Row.notBefore (startVar node) target)).mpr
      ⟨List.forall_mem_singleton.mpr hknown, rfl⟩
  have hlate : ¬ budget.maxLatency < target := by omega
  rw [push, if_neg hlate, perform_bind_of_ok hrow, perform_bind_of_ok (perform_modify _ _),
    perform_bind_of_ok (perform_get _)]
  change perform (if (t.pushed node target).handle.hasAssignment = true then pure PUnit.unit else _)
    (t.pushed node target) = _
  cases hassign : (t.pushed node target).handle.hasAssignment with
  | true => rfl
  | false => rfl

/-- Where there is no room, an operation is pushed and stays where it is. -/
theorem perform_place_of_full (hcycle : t.handle.cycle? node = some cycle)
    (hfull : fits t.handle interval unit capacity placed node cycle = false) :
    perform (place budget interval unit capacity (remaining + 1) placed pushes (node :: queue)) t =
      perform (push budget node (cycle + 1) >>= fun _ =>
        place budget interval unit capacity remaining placed (pushes + 1) (node :: queue)) t := by
  rw [place, perform_bind_of_ok (perform_get t)]
  simp only [hcycle, hfull, Bool.false_eq_true, if_false]

/-- A pass within a class is a step of what is left to be done. -/
theorem finish_congr {t' : Trial Rat} {remaining' pushes' : Nat} {placed' queue' : List String}
    (h : perform (place budget interval unit capacity remaining placed pushes queue) t =
      perform (place budget interval unit capacity remaining' placed' pushes' queue') t') :
    Standing.finish budget interval
        ⟨t, ⟨remaining, placed, pushes⟩, ⟨unit, capacity, queue⟩ :: classes⟩ =
      Standing.finish budget interval
        ⟨t', ⟨remaining', placed', pushes'⟩, ⟨unit, capacity, queue'⟩ :: classes⟩ :=
  perform_bind_congr h _

/-- A refusal of the class in turn is a refusal of the rest. -/
theorem finish_of_error {cause : SchedulingError Rat} {t' : Trial Rat}
    (h : perform (place budget interval unit capacity remaining placed pushes queue) t
      = (.error cause, t')) :
    Standing.finish budget interval
      ⟨t, ⟨remaining, placed, pushes⟩, ⟨unit, capacity, queue⟩ :: classes⟩ = (.error cause, t') :=
  perform_bind_of_error h _

/-! ### Passes -/

/-- A pass does not change what pinning ends with. -/
theorem Pass.finish_eq (h : Pass budget interval s s') :
    s.finish budget interval = s'.finish budget interval := by
  cases h with
  | pin hcycle hroom hknown => exact finish_congr (perform_place_of_fits hcycle hroom hknown)
  | push hcycle hfull hbound hknown hassign =>
      refine finish_congr ((perform_place_of_full hcycle hfull).trans ?_)
      have hpush := perform_push hbound hknown
      rw [if_pos hassign] at hpush
      exact perform_bind_of_ok hpush _
  | @next t p unit capacity classes =>
      have hnone : perform (place budget interval unit capacity p.remaining p.placed p.pushes []) t
          = (.ok p, t) := by
        rw [place]
        rfl
      exact perform_bind_of_ok hnone _

/-- An operation that has room is pinned, unless it has no variable. -/
theorem pass_or_stops_of_fits (hcycle : t.handle.cycle? node = some cycle)
    (hroom : fits t.handle interval unit capacity placed node cycle = true) :
    let s : Standing :=
      ⟨t, ⟨remaining + 1, placed, pushes⟩, ⟨unit, capacity, node :: queue⟩ :: classes⟩
    (∃ s', Pass budget interval s s') ∨ Stops budget interval s (s.finish budget interval) := by
  intro s
  by_cases hknown : t.handle.model.Knows (startVar node)
  · exact .inl ⟨_, .pin hcycle hroom hknown⟩
  · right
    have hrow : ¬ (Row.pin (startVar node) cycle).IsKnown t.handle.model :=
      fun h => hknown (h _ List.mem_cons_self)
    rcases exists_constrain_error hrow with ⟨cause, hrefused⟩
    have hstop : perform (place budget interval unit capacity (remaining + 1) placed pushes
        (node :: queue)) t = (.error cause, t) := by
      rw [place, perform_bind_of_ok (perform_get t)]
      simp only [hcycle, hroom, if_true]
      exact perform_bind_of_error hrefused _
    rw [finish_of_error hstop]
    exact .unknown hknown

/-- An operation that has no room is pushed, unless it would start too late, or it has no
    variable, or nothing satisfies the model then. -/
theorem pass_or_stops_of_full (hcycle : t.handle.cycle? node = some cycle)
    (hfull : fits t.handle interval unit capacity placed node cycle = false) :
    let s : Standing :=
      ⟨t, ⟨remaining + 1, placed, pushes⟩, ⟨unit, capacity, node :: queue⟩ :: classes⟩
    (∃ s', Pass budget interval s s') ∨ Stops budget interval s (s.finish budget interval) := by
  intro s
  have hstop : ∀ {cause t'}, perform (push budget node (cycle + 1)) t = (.error cause, t') →
      s.finish budget interval = (.error cause, t') := fun h =>
    finish_of_error ((perform_place_of_full hcycle hfull).trans (perform_bind_of_error h _))
  by_cases hbound : cycle + 1 ≤ budget.maxLatency
  · by_cases hknown : t.handle.model.Knows (startVar node)
    · have hpush := perform_push hbound hknown
      cases hassign : (t.pushed node (cycle + 1)).handle.hasAssignment with
      | true => exact .inl ⟨_, .push hcycle hfull hbound hknown hassign⟩
      | false =>
          rw [hassign] at hpush
          rw [hstop hpush]
          exact .inr (.infeasible hcycle hfull hbound hassign)
    · have hrow : ¬ (Row.notBefore (startVar node) (cycle + 1)).IsKnown t.handle.model :=
        fun h => hknown (h _ List.mem_cons_self)
      rcases exists_constrain_error hrow with ⟨cause, hrefused⟩
      have hpush : perform (push budget node (cycle + 1)) t = (.error cause, t) := by
        rw [push, if_neg (by omega)]
        exact perform_bind_of_error hrefused _
      rw [hstop hpush]
      exact .inr (.unknown hknown)
  · have hlate : budget.maxLatency < cycle + 1 := by omega
    have hpush : perform (push budget node (cycle + 1)) t =
        (.error (.pinning (.latencyBoundExceeded node (cycle + 1) budget.maxLatency)), t) := by
      rw [push, if_pos hlate]
      rfl
    rw [hstop hpush]
    exact .inr (.late hcycle hfull hlate)

/-- Where pinning stands, it goes on with a pass or stops. -/
theorem exists_pass_or_stops (s : Standing) :
    (∃ s', Pass budget interval s s') ∨ Stops budget interval s (s.finish budget interval) := by
  rcases s with ⟨t, ⟨remaining, placed, pushes⟩, _ | ⟨⟨unit, capacity, _ | ⟨node, queue⟩⟩, classes⟩⟩
  · exact .inr .done
  · exact .inl ⟨_, .next⟩
  · rcases remaining with _ | remaining
    · have hstop : perform (place budget interval unit capacity 0 placed pushes (node :: queue)) t
          = (.error (.pinning (.budgetExhausted budget.iterations (node :: queue).length)), t) := by
        rw [place]
        rfl
      rw [finish_of_error hstop]
      exact .inr .exhausted
    · cases hcycle : t.handle.cycle? node with
      | none =>
          have hstop : perform (place budget interval unit capacity (remaining + 1) placed pushes
              (node :: queue)) t = (.error (.pinning .unsolved), t) := by
            rw [place, perform_bind_of_ok (perform_get t)]
            simp only [hcycle]
            rfl
          rw [finish_of_error hstop]
          exact .inr (.unsolved hcycle)
      | some cycle =>
          cases hroom : fits t.handle interval unit capacity placed node cycle with
          | true => exact pass_or_stops_of_fits hcycle hroom
          | false => exact pass_or_stops_of_full hcycle hroom

/-- A pass uses up budget or a class. -/
theorem Pass.left_eq (h : Pass budget interval s s') : s.left = s'.left + 1 := by
  cases h <;> simp only [Standing.left, List.length_cons] <;> omega

/-- Every run, refused or not, is a sequence of passes that stops at its end. -/
theorem exists_stop (budget : PinningBudget) (interval : Int) (s : Standing) :
    ∃ s', Passes budget interval s s' ∧ Stops budget interval s' (s.finish budget interval) := by
  induction hleft : s.left generalizing s with
  | zero =>
      rcases exists_pass_or_stops s with ⟨s', hpass⟩ | hstop
      · have hless := Pass.left_eq hpass
        omega
      · exact ⟨s, .refl, hstop⟩
  | succ left ih =>
      rcases exists_pass_or_stops s with ⟨s', hpass⟩ | hstop
      · have hless := Pass.left_eq hpass
        rcases ih s' (by omega) with ⟨s'', hpasses, hstop⟩
        rw [← hpass.finish_eq] at hstop
        exact ⟨s'', .head hpass hpasses, hstop⟩
      · exact ⟨s, .refl, hstop⟩

/-- Pinning that succeeds is made of passes that lead to its handle and count its pushes. -/
theorem exists_passes_of_ok {limits : Limits} {h h' : Handle Rat} {report : PinningReport}
    (hrun : perform (pinToColumns limits interval budget) h = (.ok report, h')) :
    ∃ s, Passes budget interval (.start limits budget h) s ∧ s.trial.handle = h' ∧
      s.progress.pushes = report.pushes := by
  rcases perform_pinToColumns_ok_iff.mp hrun with ⟨_, p, t, hplace, rfl, rfl⟩
  rcases exists_stop budget interval (.start limits budget h) with ⟨s, hpasses, hstop⟩
  rw [Standing.finish_start, hplace] at hstop
  cases hstop with
  | done => exact ⟨_, hpasses, rfl, rfl⟩

end

end CyclePlan
