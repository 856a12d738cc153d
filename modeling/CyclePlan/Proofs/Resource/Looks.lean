import CyclePlan.Proofs.Resource.Passes

/-!
# Looks

What a budget of passes is spent on.

A pass is one look at the operation whose turn it is: it is pinned, or it is pushed and
stays where it is (`look`). How many looks are left plays no part in what a look does, and
neither does the bound on cycles, as long as a push keeps within it. So looks are counted
here and not the budget (`Looks`), and the budget comes in at the end: after `n` looks,
pinning with `n` passes and some to spare goes on with those to spare
(`Looks.finish_eq`), and pinning with none to spare gives up unless everything is placed.

All of this is true of any numbers and any solver.

## Main definitions

* `look`: One look at an operation.
* `Placing`: Where pinning stands, but for the budget.
* `Looks`: A number of looks.
* `Placing.Follows`: What has been placed, and what waits.

## Theorems

* `Looks.finish_eq`: What is left after some looks.
* `exists_looks`: Pinning that succeeds is a number of looks.
* `Looks.exists_prefix`: With fewer looks, an operation still waits.
* `Placing.Follows.looks`: Operations are placed in the order of the queues.
-/

namespace CyclePlan

variable {α : Type} [Scalar α]

/-- One look at an operation, and whether it is pinned. If not, it is pushed. -/
def look (budget : PinningBudget) (interval : Int) (unit : String) (capacity : Nat)
    (placed : List String) (node : String) : TrialM α Bool := do
  let h := (← get).handle
  match h.cycle? node with
  | none => giveUp .unsolved
  | some cycle =>
    if fits h interval unit capacity placed node cycle then
      TrialM.constrain [(startVar node, 1)] .eq (Scalar.ofInt cycle)
      return true
    else
      push budget node (cycle + 1)
      return false

/-- Where pinning stands, but for what is left of the budget. -/
structure Placing (α : Type) where
  trial : Trial α
  placed : List String
  pushes : Nat
  /-- The classes that are not done, the one in turn first. -/
  classes : List WaitingClass

/-- The operations of a class that no look has been taken at. -/
def View.waiting {α : Type} (v : View α) (entry : String × Nat) : WaitingClass :=
  ⟨entry.1, entry.2, v.unitQueue entry.1⟩

section

variable {budget budget' : PinningBudget} {interval : Int} {unit node : String}
  {capacity remaining pushes : Nat} {placed queue : List String} {classes : List WaitingClass}
  {t t' : Trial α}

/-! ### One look -/

/-- Placing the first operation of a queue is a look, and what follows from it. -/
theorem place_cons : (place budget interval unit capacity (remaining + 1) placed pushes
      (node :: queue) : TrialM α Progress) =
    (look budget interval unit capacity placed node >>= fun isPinned =>
      if isPinned then place budget interval unit capacity remaining (node :: placed) pushes queue
      else place budget interval unit capacity remaining placed (pushes + 1) (node :: queue)) := by
  rw [place, look, bind_assoc]
  refine congrArg _ (funext fun t => ?_)
  dsimp only
  cases t.handle.cycle? node with
  | none => rfl
  | some cycle =>
      dsimp only
      split
      · rw [bind_assoc]
        rfl
      · rw [bind_assoc]
        rfl

/-- A look does not depend on a bound that it keeps within. -/
theorem look_later {isPinned : Bool} (hle : budget.maxLatency ≤ budget'.maxLatency)
    (h : perform (look budget interval unit capacity placed node) t = (.ok isPinned, t')) :
    perform (look budget' interval unit capacity placed node) t = (.ok isPinned, t') := by
  rw [look, perform_bind_of_ok (perform_get t)] at h ⊢
  cases hcycle : t.handle.cycle? node with
  | none =>
      simp only [hcycle] at h
      cases h
  | some cycle =>
      simp only [hcycle] at h ⊢
      split at h
      · next hroom =>
        rw [if_pos hroom]
        exact h
      · next hfull =>
        rw [if_neg hfull]
        -- The push was made, so its cycle is within the bound.
        rcases perform_bind_ok_iff.mp h with ⟨u, t₁, hpush, hrest⟩
        refine perform_bind_ok_iff.mpr ⟨u, t₁, ?_, hrest⟩
        have hstop : ∀ (b : PinningBudget) (u : Unit) (t' : Trial α),
            perform (giveUp (.latencyBoundExceeded node (cycle + 1) b.maxLatency) :
              TrialM α Unit) t ≠ (.ok u, t') := fun _ _ _ heq => by cases heq
        rcases (perform_guard_ok_iff (hstop budget)).mp hpush with ⟨hwithin, hpush⟩
        exact (perform_guard_ok_iff (hstop budget')).mpr ⟨by omega, hpush⟩

/-! ### What is left -/

namespace Placing

/-- What pinning ends with, with so many passes left. -/
def finish (budget : PinningBudget) (interval : Int) (remaining : Nat) (s : Placing α) :
    Except (SchedulingError α) Progress × Trial α :=
  perform (Standing.place budget interval s.classes ⟨remaining, s.placed, s.pushes⟩) s.trial

/-- Where pinning begins. -/
def start (limits : Limits) (h : Handle α) : Placing α :=
  ⟨{ handle := h }, [], 0, limits.toList.map h.view.waiting⟩

theorem finish_start (limits : Limits) (h : Handle α) :
    finish budget interval remaining (start limits h) =
      perform (placeAll budget interval h.view limits.toList { remaining }) { handle := h } := by
  rw [Standing.placeAll_eq]
  rfl

theorem finish_nil : finish budget interval remaining ⟨t, placed, pushes, []⟩ =
    (.ok ⟨remaining, placed, pushes⟩, t) := rfl

/-- A class without waiting operations is left for the next one. -/
theorem finish_next :
    finish budget interval remaining ⟨t, placed, pushes, ⟨unit, capacity, []⟩ :: classes⟩ =
      finish budget interval remaining ⟨t, placed, pushes, classes⟩ := by
  have hnone : perform (place budget interval unit capacity remaining placed pushes []) t
      = (.ok ⟨remaining, placed, pushes⟩, t) := by
    rw [place]
    rfl
  exact perform_bind_of_ok hnone _

/-- Without passes, pinning gives up where an operation waits. -/
theorem finish_zero :
    finish budget interval 0 ⟨t, placed, pushes, ⟨unit, capacity, node :: queue⟩ :: classes⟩ =
      (.error (.pinning (.budgetExhausted budget.iterations (node :: queue).length)), t) := by
  have hstop : perform (place budget interval unit capacity 0 placed pushes (node :: queue)) t
      = (.error (.pinning (.budgetExhausted budget.iterations (node :: queue).length)), t) := by
    rw [place]
    rfl
  exact perform_bind_of_error hstop _

theorem finish_of_pinned
    (h : perform (look budget interval unit capacity placed node) t = (.ok true, t')) :
    finish budget interval (remaining + 1)
        ⟨t, placed, pushes, ⟨unit, capacity, node :: queue⟩ :: classes⟩ =
      finish budget interval remaining
        ⟨t', node :: placed, pushes, ⟨unit, capacity, queue⟩ :: classes⟩ := by
  refine perform_bind_congr ?_ _
  rw [place_cons, perform_bind_of_ok h]
  rfl

theorem finish_of_pushed
    (h : perform (look budget interval unit capacity placed node) t = (.ok false, t')) :
    finish budget interval (remaining + 1)
        ⟨t, placed, pushes, ⟨unit, capacity, node :: queue⟩ :: classes⟩ =
      finish budget interval remaining
        ⟨t', placed, pushes + 1, ⟨unit, capacity, node :: queue⟩ :: classes⟩ := by
  refine perform_bind_congr ?_ _
  rw [place_cons, perform_bind_of_ok h]
  rfl

theorem finish_of_refused {cause : SchedulingError α}
    (h : perform (look budget interval unit capacity placed node) t = (.error cause, t')) :
    finish budget interval (remaining + 1)
        ⟨t, placed, pushes, ⟨unit, capacity, node :: queue⟩ :: classes⟩ = (.error cause, t') := by
  refine perform_bind_of_error ?_ _
  rw [place_cons, perform_bind_of_error h]

end Placing

/-! ### Counted looks -/

variable (budget interval) in
/-- A number of looks. The change to the next class is not one. -/
inductive Looks : Nat → Placing α → Placing α → Prop
  | refl (s) : Looks 0 s s
  | next {n t placed pushes unit capacity classes s'}
      (rest : Looks n ⟨t, placed, pushes, classes⟩ s') :
      Looks n ⟨t, placed, pushes, ⟨unit, capacity, []⟩ :: classes⟩ s'
  | pinned {n t t' placed pushes unit capacity node queue classes s'}
      (h : perform (look budget interval unit capacity placed node) t = (.ok true, t'))
      (rest : Looks n ⟨t', node :: placed, pushes, ⟨unit, capacity, queue⟩ :: classes⟩ s') :
      Looks (n + 1) ⟨t, placed, pushes, ⟨unit, capacity, node :: queue⟩ :: classes⟩ s'
  | pushed {n t t' placed pushes unit capacity node queue classes s'}
      (h : perform (look budget interval unit capacity placed node) t = (.ok false, t'))
      (rest : Looks n ⟨t', placed, pushes + 1, ⟨unit, capacity, node :: queue⟩ :: classes⟩ s') :
      Looks (n + 1) ⟨t, placed, pushes, ⟨unit, capacity, node :: queue⟩ :: classes⟩ s'

variable {n : Nat} {s s' : Placing α}

/-- The same looks are taken with a later bound on cycles. -/
theorem Looks.later (hle : budget.maxLatency ≤ budget'.maxLatency)
    (h : Looks budget interval n s s') : Looks budget' interval n s s' := by
  induction h with
  | refl s => exact .refl s
  | next _ ih => exact .next ih
  | pinned hlook _ ih => exact .pinned (look_later hle hlook) ih
  | pushed hlook _ ih => exact .pushed (look_later hle hlook) ih

/-- Passes to spare are left after the looks. -/
theorem Looks.finish_eq (h : Looks budget interval n s s') (spare : Nat) :
    s.finish budget interval (n + spare) = s'.finish budget interval spare := by
  induction h with
  | refl s => rw [Nat.zero_add]
  | next _ ih => rw [Placing.finish_next, ih]
  | pinned hlook _ ih => rw [Nat.add_right_comm, Placing.finish_of_pinned hlook, ih]
  | pushed hlook _ ih => rw [Nat.add_right_comm, Placing.finish_of_pushed hlook, ih]

/-- Pinning that succeeds is a number of looks after which nothing waits, and the other
    passes are left. -/
theorem exists_looks {p : Progress} (remaining : Nat) (s : Placing α)
    (h : s.finish budget interval remaining = (.ok p, t')) :
    ∃ used, remaining = used + p.remaining ∧
      Looks budget interval used s ⟨t', p.placed, p.pushes, []⟩ := by
  rcases s with ⟨t, placed, pushes, classes⟩
  -- Every look uses up a pass, and every change of the class uses up a class.
  induction hleft : remaining + classes.length using Nat.strong_induction_on
    generalizing remaining t placed pushes classes with
  | _ left ih =>
      rcases classes with _ | ⟨⟨unit, capacity, _ | ⟨node, queue⟩⟩, classes⟩
      · cases h
        exact ⟨0, (Nat.zero_add _).symm, .refl _⟩
      · rw [Placing.finish_next] at h
        have hless : remaining + classes.length < left := by
          rw [← hleft, List.length_cons]
          omega
        rcases ih _ hless _ _ _ _ _ h rfl with ⟨used, hused, hlooks⟩
        exact ⟨used, hused, .next hlooks⟩
      · rcases remaining with _ | remaining
        · rw [Placing.finish_zero] at h
          cases h
        · have hless : ∀ {c : WaitingClass}, remaining + (c :: classes).length < left := by
            intro c
            rw [← hleft, List.length_cons, List.length_cons]
            omega
          rcases hlook : perform (look budget interval unit capacity placed node) t with
            ⟨answer, t₁⟩
          rcases answer with cause | _ | _
          · rw [Placing.finish_of_refused hlook] at h
            cases h
          · rw [Placing.finish_of_pushed hlook] at h
            rcases ih _ hless _ _ _ _ _ h rfl with ⟨used, hused, hlooks⟩
            exact ⟨used + 1, by omega, .pushed hlook hlooks⟩
          · rw [Placing.finish_of_pinned hlook] at h
            rcases ih _ hless _ _ _ _ _ h rfl with ⟨used, hused, hlooks⟩
            exact ⟨used + 1, by omega, .pinned hlook hlooks⟩

/-- Before the last look, an operation waits. -/
theorem Looks.exists_prefix (h : Looks budget interval n s s') {k : Nat} (hk : k < n) :
    ∃ t placed pushes unit capacity node queue classes, Looks budget interval k s
      ⟨t, placed, pushes, ⟨unit, capacity, node :: queue⟩ :: classes⟩ := by
  induction h generalizing k with
  | refl => exact absurd hk (Nat.not_lt_zero k)
  | next _ ih =>
      rcases ih hk with ⟨t, placed, pushes, unit, capacity, node, queue, classes, hlooks⟩
      exact ⟨t, placed, pushes, unit, capacity, node, queue, classes, .next hlooks⟩
  | pinned hlook _ ih =>
      cases k with
      | zero => exact ⟨_, _, _, _, _, _, _, _, .refl _⟩
      | succ k =>
          rcases ih (Nat.lt_of_succ_lt_succ hk) with
            ⟨t, placed, pushes, unit, capacity, node, queue, classes, hlooks⟩
          exact ⟨t, placed, pushes, unit, capacity, node, queue, classes, .pinned hlook hlooks⟩
  | pushed hlook _ ih =>
      cases k with
      | zero => exact ⟨_, _, _, _, _, _, _, _, .refl _⟩
      | succ k =>
          rcases ih (Nat.lt_of_succ_lt_succ hk) with
            ⟨t, placed, pushes, unit, capacity, node, queue, classes, hlooks⟩
          exact ⟨t, placed, pushes, unit, capacity, node, queue, classes, .pushed hlook hlooks⟩

/-! ### What has been placed -/

/-- The operations that are placed are those of the classes that are done, and of the class
    in turn those before the ones that wait. -/
inductive Placing.Follows (v : View α) (entries : List (String × Nat)) : Placing α → Prop
  | within {t : Trial α} {placed pushes before unit capacity after pinned waiting}
      (hentries : entries = before ++ (unit, capacity) :: after)
      (hqueue : v.unitQueue unit = pinned ++ waiting)
      (hplaced : placed.reverse = before.flatMap (fun e => v.unitQueue e.1) ++ pinned) :
      Follows v entries
        ⟨t, placed, pushes, ⟨unit, capacity, waiting⟩ :: after.map v.waiting⟩
  | done {t : Trial α} {placed : List String} {pushes : Nat}
      (hplaced : placed.reverse = entries.flatMap fun e => v.unitQueue e.1) :
      Follows v entries ⟨t, placed, pushes, []⟩

variable {v : View α} {entries before after : List (String × Nat)}

omit [Scalar α] in
/-- When the classes before are done, the next one is in turn. -/
theorem Placing.Follows.of_done (hentries : entries = before ++ after)
    (hplaced : placed.reverse = before.flatMap fun e => v.unitQueue e.1) :
    Placing.Follows v entries ⟨t, placed, pushes, after.map v.waiting⟩ := by
  cases after with
  | nil =>
      rw [List.append_nil] at hentries
      exact .done (hentries ▸ hplaced)
  | cons e after =>
      exact .within hentries (List.nil_append _).symm (by rw [hplaced, List.append_nil])

omit [Scalar α] in
theorem Placing.follows_start (limits : Limits) (h : Handle α) :
    (Placing.start limits h).Follows h.view limits.toList :=
  .of_done (List.nil_append _).symm rfl

/-- Operations are placed in the order of the queues. -/
theorem Placing.Follows.looks (h : s.Follows v entries) (hlooks : Looks budget interval n s s') :
    s'.Follows v entries := by
  induction hlooks with
  | refl => exact h
  | next _ ih =>
      cases h with
      | within hentries hqueue hplaced =>
          refine ih (.of_done (hentries.trans (List.append_cons _ _ _)) ?_)
          rw [List.flatMap_append, hplaced, List.flatMap_singleton, hqueue, List.append_nil]
  | pinned _ _ ih =>
      cases h with
      | within hentries hqueue hplaced =>
          refine ih (.within hentries (hqueue.trans (List.append_cons _ _ _)) ?_)
          rw [List.reverse_cons, hplaced, List.append_assoc]
  | pushed _ _ ih =>
      cases h with
      | within hentries hqueue hplaced => exact ih (.within hentries hqueue hplaced)

end

end CyclePlan
