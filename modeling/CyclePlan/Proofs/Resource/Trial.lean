import CyclePlan.Proofs.Engine.Reading
import CyclePlan.Proofs.Engine.Rows
import CyclePlan.Proofs.Resource.Growth

/-!
# Trials and Pins

The steps of pinning, and what they leave behind in the model.

A trial changes a model in one way only: it submits a row and notes its number.
The equations of this module say so for every step, so that nothing after them
needs to look at how steps are put together.

A row that pins a variable decides its value for good. `Forces` is what remains
of the row: every point of the model gives the variable that value, whatever rows
come later. Together with a sound solver this is what keeps operations where they
were placed, since every later solution is a point.

## Main definitions

* `Model.Forces`: A variable whose value is decided.
* `Handle.Holds`, `Handle.IsSatisfied`: The last solution satisfies the model.
* `Trial.withRow`, `Trial.pushed`: A trial after one more row, and after a push.

## Theorems

* `Model.forces_pin`, `Model.Forces.withRow`: Pins decide, and go on to.
* `Handle.IsSatisfied.solve`: Sound solvers satisfy the model.
* `perform_constrain_ok_iff`, `perform_push_ok`, `perform_place_cons_ok`,
  `perform_place_of_fits`, `perform_pinToColumns_ok_iff`: The steps.
-/

namespace CyclePlan

namespace Model

variable {m : Model Rat} {r : Row} {x : Nat → Rat} {name : String} {value : Int}

/-- The points of a model with one more row. -/
theorem isPoint_withRow_iff :
    (m.withRow r).IsPoint x ↔ m.IsPoint x ∧ r.Holds (m.valueOf x) := by
  have hrows : ∀ c, c ∈ (m.withRow r).constraints ↔
      c ∈ m.constraints ∨ c = (max m.nextConstraint 1, m.stored r) := by
    intro c
    rw [withRow, List.mem_append, List.mem_singleton]
  constructor
  · intro h
    refine ⟨⟨h.admits, fun c hc => h.meets c ((hrows c).mpr (.inl hc))⟩, ?_⟩
    exact (m.stored_holds_iff r x).mp (h.meets _ ((hrows _).mpr (.inr rfl)))
  · rintro ⟨h, hr⟩
    refine ⟨h.admits, fun c hc => ?_⟩
    rcases (hrows c).mp hc with hc | rfl
    · exact h.meets c hc
    · exact (m.stored_holds_iff r x).mpr hr

/-- Every point of a model gives a variable the same whole value. -/
structure Forces (m : Model Rat) (name : String) (value : Int) : Prop where
  known : m.Knows name
  valueOf : ∀ x, m.IsPoint x → m.valueOf x name = value

theorem Forces.withRow (h : m.Forces name value) (r : Row) : (m.withRow r).Forces name value :=
  ⟨h.known, fun x hx => h.valueOf x (isPoint_withRow_iff.mp hx).1⟩

theorem forces_pin (h : m.Knows name) (value : Int) :
    (m.withRow (Row.pin name value)).Forces name value :=
  ⟨h, fun _ hx => Row.pin_holds_iff.mp (isPoint_withRow_iff.mp hx).2⟩

end Model

namespace Handle

variable {h : Handle Rat} {x : Nat → Rat} {node : String}

/-- The last solution carries an integral point of the model. -/
def Holds (h : Handle Rat) (x : Nat → Rat) : Prop :=
  ∃ s, h.solution = some s ∧ s.status.hasAssignment = true ∧ s.Carries h.model x ∧
    h.model.IsPoint x ∧ h.model.IsIntegral x

/-- The last solution satisfies the model. -/
def IsSatisfied (h : Handle Rat) : Prop := ∃ x, h.Holds x

theorem assignment?_of_hasAssignment {s : Solution Rat} (hs : h.solution = some s)
    (hstatus : s.status.hasAssignment = true) : h.assignment? = some s := by
  rw [assignment?, hs]
  exact Option.filter_some_pos hstatus

theorem Holds.cycle? (hx : h.Holds x) (hk : h.model.Knows (startVar node)) :
    h.cycle? node = some (Scalar.roundInt (h.model.valueOf x (startVar node))) := by
  rcases hx with ⟨s, hs, hstatus, hcarries, _⟩
  rw [Handle.cycle?, int?, assignment?_of_hasAssignment hs hstatus, Option.bind_eq_bind,
    Option.bind_some, Solution.int?, hcarries.value? hk, Option.map_some]

theorem Holds.isPoint (hx : h.Holds x) : h.model.IsPoint x ∧ h.model.IsIntegral x := by
  rcases hx with ⟨_, _, _, _, hpoint⟩
  exact hpoint

/-- After a solve, a handle has an assignment if the answer has one. -/
theorem hasAssignment_solve (h : Handle Rat) :
    h.solve.hasAssignment = (h.solver h.asked h.model).status.hasAssignment := by
  change (Option.filter (fun s : Solution Rat => s.status.hasAssignment) (some _)).isSome = _
  rw [Option.filter_some]
  split
  · next hs => exact hs.symm
  · next hs => exact (Bool.eq_false_of_not_eq_true hs).symm

/-- A sound solver satisfies the model whenever it finds anything. -/
theorem IsSatisfied.solve (hsound : h.solver.Sound) (hassign : h.solve.hasAssignment = true) :
    h.solve.IsSatisfied := by
  have hstatus := (hasAssignment_solve h).symm.trans hassign
  rcases hsound h.asked h.model hstatus with ⟨x, hx⟩
  exact ⟨x, _, rfl, hstatus, hx⟩

end Handle

/-! ### Steps -/

section

variable {α β : Type}

/-- A step of the model succeeds in a trial exactly if it succeeds, and only the
    model changes. -/
theorem perform_onModel_ok_iff {t t' : Trial α} {act : ModelM α β} {b : β} :
    perform (TrialM.onModel act) t = (.ok b, t') ↔
      ∃ m, perform act t.handle.model = (.ok b, m) ∧
        t' = { t with handle := { t.handle with model := m } } := by
  rw [perform_trial_onModel]
  rcases perform act t.handle.model with ⟨answer, m⟩
  constructor
  · intro h
    cases answer with
    | ok b' =>
        cases h
        exact ⟨m, rfl, rfl⟩
    | error e => cases h
  · rintro ⟨_, hb, rfl⟩
    cases hb
    rfl

/-- A trial that is not refused leaves its handle and the numbers it noted. -/
theorem perform_attempt_ok_iff {act : TrialM α β} {b : β} {added : List Nat}
    {h h' : Handle α} :
    perform (TrialM.attempt act) h = (.ok (b, added), h') ↔
      ∃ t, perform act { handle := h } = (.ok b, t) ∧ added = t.added ∧ h' = t.handle := by
  rcases hact : perform act { handle := h } with ⟨answer, t⟩
  rw [TrialM.attempt, perform_bind_of_ok (perform_get h)]
  change Id.run (act.run.run { handle := h }) = _ at hact
  rw [hact]
  simp only []
  rw [perform_bind_of_ok (perform_set h t.handle)]
  constructor
  · intro hrun
    cases answer with
    | ok b' =>
        cases hrun
        exact ⟨t, rfl, rfl, rfl⟩
    | error e =>
        -- However the trial is taken back, it ends with a refusal.
        rcases perform_bind_ok_iff.mp hrun with ⟨_, _, _, hrest⟩
        rcases perform_bind_ok_iff.mp hrest with ⟨_, _, _, hthrow⟩
        cases hthrow
  · rintro ⟨t', hb, rfl, rfl⟩
    cases hb
    rfl

end

/-- A trial after one more row. -/
def Trial.withRow (t : Trial Rat) (r : Row) : Trial Rat where
  handle := { t.handle with model := t.handle.model.withRow r }
  added := t.added ++ [max t.handle.model.nextConstraint 1]

/-- A row that keeps a variable at or above a value. -/
def Row.notBefore (var : String) (value : Int) : Row := ⟨[(var, 1)], .ge, Scalar.ofInt value⟩

theorem Row.notBefore_holds_iff {var : String} {value : Int} {y : String → Rat} :
    (notBefore var value).Holds y ↔ (value : Rat) ≤ y var := by
  simp only [Holds, notBefore, Relation.Holds, sum, List.map_cons, List.map_nil, List.sum_cons,
    List.sum_nil, one_mul, add_zero]
  exact Iff.rfl

/-- A trial after an operation was pushed to a cycle and the model solved again. -/
def Trial.pushed (t : Trial Rat) (node : String) (target : Int) : Trial Rat where
  handle := (t.withRow (Row.notBefore (startVar node) target)).handle.solve
  added := (t.withRow (Row.notBefore (startVar node) target)).added

section

variable {t t' : Trial Rat} {u : Unit} {budget : PinningBudget} {interval : Int}
  {unit node : String} {capacity remaining pushes : Nat} {placed queue : List String}
  {p : Progress} {cycle : Int}

/-- A constraint is accepted exactly if its variables are known. -/
theorem perform_constrain_ok_iff {r : Row} :
    perform (TrialM.constrain r.terms r.relation r.rhs) t = (.ok u, t') ↔
      r.IsKnown t.handle.model ∧ t' = t.withRow r := by
  rw [TrialM.constrain, perform_bind_ok_iff]
  constructor
  · rintro ⟨id, t₁, hmodel, hrest⟩
    rcases perform_onModel_ok_iff.mp hmodel with ⟨m, hadd, rfl⟩
    rcases Model.perform_addConstraint_ok_iff.mp hadd with ⟨hknown, rfl, rfl⟩
    cases hrest
    exact ⟨hknown, rfl⟩
  · rintro ⟨hknown, rfl⟩
    exact ⟨_, _, perform_onModel_ok_iff.mpr
      ⟨_, Model.perform_addConstraint_ok_iff.mpr ⟨hknown, rfl, rfl⟩, rfl⟩, rfl⟩

theorem giveUp_ne_ok {β : Type} {cause : PinningFailure} (b : β) :
    perform (giveUp cause : TrialM Rat β) t ≠ (.ok b, t') := by
  intro h
  cases h

/-- An operation that is pushed starts later in a solution of the new model. -/
theorem perform_push_ok {target : Int} (h : perform (push budget node target) t = (.ok u, t')) :
    t' = t.pushed node target ∧ t'.handle.hasAssignment = true := by
  rw [push] at h
  -- Within the bound on cycles, the row is added and the model solved again.
  rcases (perform_guard_ok_iff (fun b t => giveUp_ne_ok b)).mp h with ⟨_, h⟩
  rcases perform_bind_ok_iff.mp h with ⟨_, t₁, hadd, h⟩
  rcases (perform_constrain_ok_iff (r := Row.notBefore (startVar node) target)).mp hadd with
    ⟨_, rfl⟩
  rw [perform_bind_of_ok (perform_modify _ _), perform_bind_of_ok (perform_get _)] at h
  split at h
  · next hassign =>
    cases h
    exact ⟨rfl, hassign⟩
  · cases h

/-- A round of placing pins the first operation of the queue where there is room,
    and pushes it otherwise. -/
theorem perform_place_cons_ok
    (h : perform (place budget interval unit capacity (remaining + 1) placed pushes
      (node :: queue)) t = (.ok p, t')) :
    ∃ cycle, t.handle.cycle? node = some cycle ∧
      ((fits t.handle interval unit capacity placed node cycle = true ∧
          t.handle.model.Knows (startVar node) ∧
          perform (place budget interval unit capacity remaining (node :: placed) pushes queue)
            (t.withRow (Row.pin (startVar node) cycle)) = (.ok p, t')) ∨
        ∃ t₁, t₁ = t.pushed node (cycle + 1) ∧ t₁.handle.hasAssignment = true ∧
          perform (place budget interval unit capacity remaining placed (pushes + 1)
            (node :: queue)) t₁ = (.ok p, t')) := by
  rw [place, perform_bind_of_ok (perform_get t)] at h
  cases hcycle : t.handle.cycle? node with
  | none =>
      simp only [hcycle] at h
      exact absurd h (giveUp_ne_ok p)
  | some cycle =>
      simp only [hcycle] at h
      refine ⟨cycle, rfl, ?_⟩
      split at h
      · next hroom =>
        rcases perform_bind_ok_iff.mp h with ⟨_, t₁, hadd, hrest⟩
        rcases (perform_constrain_ok_iff (r := Row.pin (startVar node) cycle)).mp hadd with
          ⟨hknown, rfl⟩
        exact .inl ⟨hroom, hknown (startVar node, 1) List.mem_cons_self, hrest⟩
      · rcases perform_bind_ok_iff.mp h with ⟨_, t₁, hpush, hrest⟩
        rcases perform_push_ok hpush with ⟨heq, hassign⟩
        exact .inr ⟨t₁, heq, hassign, hrest⟩

/-- Where there is room, an operation is pinned. -/
theorem perform_place_of_fits (hcycle : t.handle.cycle? node = some cycle)
    (hroom : fits t.handle interval unit capacity placed node cycle = true)
    (hknown : t.handle.model.Knows (startVar node)) :
    perform (place budget interval unit capacity (remaining + 1) placed pushes (node :: queue)) t =
      perform (place budget interval unit capacity remaining (node :: placed) pushes queue)
        (t.withRow (Row.pin (startVar node) cycle)) := by
  have hrow : perform (TrialM.constrain [(startVar node, 1)] .eq (Scalar.ofInt cycle)) t
      = (.ok ⟨⟩, t.withRow (Row.pin (startVar node) cycle)) :=
    (perform_constrain_ok_iff (r := Row.pin (startVar node) cycle)).mpr
      ⟨List.forall_mem_singleton.mpr hknown, rfl⟩
  rw [place, perform_bind_of_ok (perform_get t)]
  simp only [hcycle, hroom, if_true]
  rw [perform_bind_of_ok hrow]

/-- Pinning succeeds exactly if there is a solution to begin with and all classes
    can be placed, and this is what it reports. -/
theorem perform_pinToColumns_ok_iff {α : Type} [Scalar α] {limits : Limits}
    {report : PinningReport} {h h' : Handle α} :
    perform (pinToColumns limits interval budget) h = (.ok report, h') ↔
      h.hasAssignment = true ∧
      ∃ p t, perform (placeAll budget interval h.view limits.toList
          { remaining := budget.iterations }) { handle := h } = (.ok p, t) ∧
        h' = t.handle ∧
        report = ⟨budget.iterations - p.remaining, p.placed.length, p.pushes, t.added⟩ := by
  rw [pinToColumns, perform_bind_of_ok (perform_get h)]
  refine (perform_guard_ok_iff (fun b t hthrow => by cases hthrow)).trans ?_
  rw [Bool.not_eq_true', Bool.not_eq_false]
  refine and_congr_right fun _ => ?_
  constructor
  · intro hrun
    rcases perform_bind_ok_iff.mp hrun with ⟨⟨p, added⟩, h₁, hattempt, hreport⟩
    rcases perform_attempt_ok_iff.mp hattempt with ⟨t, hplace, rfl, rfl⟩
    cases hreport
    exact ⟨p, t, hplace, rfl, rfl⟩
  · rintro ⟨p, t, hplace, rfl, rfl⟩
    exact perform_bind_ok_iff.mpr
      ⟨_, _, perform_attempt_ok_iff.mpr ⟨t, hplace, rfl, rfl⟩, rfl⟩

end

end CyclePlan
