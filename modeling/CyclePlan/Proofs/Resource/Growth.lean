import Mathlib.Data.List.Induction
import CyclePlan.Proofs.Lp.Operations
import CyclePlan.Resource.Pinning
import CyclePlan.Resource.TimeIndexed

/-!
# Growth of Trials

What a trial leaves behind, and how it is taken back.

A trial declares variables and adds constraints, and it notes the number of
every constraint it adds (`Trial.Grows`). No step does anything else to the
model, and a step that is refused has done nothing. So at whatever point a trial
is refused, the constraints it added are the last ones of the model, and their
numbers are the ones that it noted.

Taking a trial back removes these constraints from the last to the first. Each
of them is the last one of the model when its turn comes, and it is found under
its number, so no removal is refused (`perform_takeBack`). What is left is a
model that has more variables at most (`perform_attempt_error`).

## Main definitions

* `Trial.Grows`: New variables and noted constraints.
* `Trial.Lists`: Noted numbers are those of constraints.

## Theorems

* `placeAll_moves`: What adding constraints and solving respect, placing respects.
* `constrain_grows`, `declare_grows`, `placeAll_grows`, `addUnitCycles_grows`: Every trial
  grows, refused or not.
* `perform_takeBack`: Noted constraints can be taken back.
* `perform_attempt_error`: What a trial leaves that is refused.
* `exists_perform_attempt_error`: A refused trial answers its refusal.
-/

namespace CyclePlan

variable {α β : Type}

/-- A trial has gone on. It has declared variables of some sort, and it has added
    constraints and noted them. -/
structure Trial.Grows (P : Variable α → Prop) (t t' : Trial α) : Prop where
  edits : t.handle.model.Edits t'.handle.model
  vars : ∃ more, t'.handle.model.vars = t.handle.model.vars ++ more ∧ ∀ w ∈ more, P w
  constraints : ∃ more, t'.handle.model.constraints = t.handle.model.constraints ++ more ∧
    t'.added = t.added ++ more.map (·.1)
  objective : t'.handle.model.objective = t.handle.model.objective

namespace Trial.Grows

variable {P : Variable α → Prop}

theorem refl (t : Trial α) : t.Grows P t := by
  refine ⟨Model.Edits.refl _, ⟨[], by simp, ?_⟩, ⟨[], by simp⟩, rfl⟩
  exact fun w hw => absurd hw List.not_mem_nil

theorem trans (t t' t'' : Trial α) (h : t.Grows P t') (h' : t'.Grows P t'') :
    t.Grows P t'' := by
  rcases h.vars with ⟨vars, hvars, hP⟩
  rcases h'.vars with ⟨vars', hvars', hP'⟩
  rcases h.constraints with ⟨cs, hcs, hadded⟩
  rcases h'.constraints with ⟨cs', hcs', hadded'⟩
  refine ⟨h.edits.trans _ _ _ h'.edits, ⟨vars ++ vars', ?_, ?_⟩, ⟨cs ++ cs', ?_, ?_⟩,
    h'.objective.trans h.objective⟩
  · rw [hvars', hvars, List.append_assoc]
  · exact List.forall_mem_append.mpr ⟨hP, hP'⟩
  · rw [hcs', hcs, List.append_assoc]
  · rw [hadded', hadded, List.map_append, List.append_assoc]

end Trial.Grows

open Trial (Grows)

/-! ### Steps -/

/-- A step of the model changes the model of the handle and nothing else. -/
theorem perform_handle_onModel (act : ModelM α β) (h : Handle α) :
    perform (HandleM.onModel act) h
      = ((perform act h.model).1.mapError .lp, { h with model := (perform act h.model).2 }) := by
  rcases hact : perform act h.model with ⟨answer, m⟩
  rw [HandleM.onModel, perform_bind_of_ok (perform_get h)]
  change Id.run (act.run.run h.model) = _ at hact
  rw [hact]
  cases answer <;> rfl

theorem perform_trial_onModel (act : ModelM α β) (t : Trial α) :
    perform (TrialM.onModel act) t
      = ((perform act t.handle.model).1.mapError .lp,
        { t with handle := { t.handle with model := (perform act t.handle.model).2 } }) := by
  have hinner := perform_handle_onModel act t.handle
  unfold perform at hinner
  rw [TrialM.onModel, perform_bind_of_ok (perform_get t), hinner]
  unfold perform
  cases (Id.run (act.run.run t.handle.model)).1 <;> rfl

variable {P : Variable α → Prop}

theorem solve_grows :
    Moves (Grows P) (modify fun t => { t with handle := t.handle.solve } : TrialM α PUnit) :=
  Moves.modify fun t => ⟨Model.Edits.refl _, ⟨[], by simp [Handle.solve]⟩,
    ⟨[], by simp [Handle.solve]⟩, rfl⟩

variable [Scalar α]

/-- A constraint is noted as soon as it is there. -/
theorem constrain_grows (terms : List (String × α)) (relation : Relation) (rhs : α) :
    Moves (Grows P) (TrialM.constrain terms relation rhs) := by
  intro t
  have hstep := perform_trial_onModel (Model.addConstraint terms relation rhs) t
  rcases hadd : perform (Model.addConstraint terms relation rhs) t.handle.model with ⟨answer, m⟩
  rw [hadd] at hstep
  rw [TrialM.constrain]
  cases answer with
  | ok id =>
      have hedits := (Model.addConstraint_edits terms relation rhs).of_perform hadd
      rcases Model.perform_addConstraint_ok hadd with ⟨stored, _, hid, rfl⟩
      rw [perform_bind_of_ok hstep, perform_modify]
      exact ⟨hedits, ⟨[], by simp⟩, ⟨[(id, ⟨stored, relation, rhs⟩)], rfl, rfl⟩, rfl⟩
  | error cause =>
      rw [perform_bind_of_error hstep, (Model.perform_addConstraint_error hadd).1]
      exact Grows.refl t

theorem declare_grows (name : String) (lower upper : Option α) (kind : VariableKind)
    (hP : P (Model.variableOf name lower upper kind)) :
    Moves (Grows P) (do
      let _ ← TrialM.onModel (Model.addVariable name lower upper kind) : TrialM α PUnit) := by
  intro t
  have hstep := perform_trial_onModel (Model.addVariable name lower upper kind) t
  rcases hadd : perform (Model.addVariable name lower upper kind) t.handle.model with ⟨answer, m⟩
  rw [hadd] at hstep
  cases answer with
  | ok id =>
      have hedits := (Model.addVariable_edits name lower upper kind).of_perform hadd
      rcases Model.perform_addVariable_ok hadd with ⟨_, _, fresh, rfl⟩
      rw [perform_bind_of_ok hstep]
      refine ⟨hedits, ⟨[_], rfl, List.forall_mem_singleton.mpr hP⟩, ⟨[], ?_⟩, rfl⟩
      simp [Model.withVariable]
  | error cause =>
      rw [perform_bind_of_error hstep, (Model.perform_addVariable_error hadd).1]
      exact Grows.refl t

/-! ### Placing -/

section

variable {R : Trial α → Trial α → Prop}

/-- What adding a constraint and solving respect, a push respects. -/
theorem push_moves (hrefl : ∀ t, R t t) (htrans : ∀ t t' t'', R t t' → R t' t'' → R t t'')
    (hconstrain : ∀ terms relation rhs, Moves R (TrialM.constrain terms relation rhs))
    (hsolve : Moves R (modify fun t => { t with handle := t.handle.solve } : TrialM α PUnit))
    (budget : PinningBudget) (node : String) (target : Int) :
    Moves R (push budget node target : TrialM α Unit) := by
  have hgive : ∀ {β : Type} cause, Moves R (giveUp cause : TrialM α β) := fun cause =>
    Moves.throw hrefl _
  have hpushed : Moves R (do
      TrialM.constrain [(startVar node, 1)] .ge (Scalar.ofInt target)
      modify fun t => { t with handle := t.handle.solve }
      unless (← get).handle.hasAssignment do
        giveUp (.infeasible node target) : TrialM α Unit) := by
    refine Moves.bind htrans (hconstrain _ _ _) fun _ => ?_
    refine Moves.bind htrans hsolve fun _ => ?_
    refine Moves.bind htrans (Moves.get hrefl) fun _ => ?_
    exact Moves.ite (Moves.pure hrefl _) (hgive _)
  exact Moves.ite (Moves.bind htrans (hgive _) fun _ => hpushed) hpushed

/-- Placing a class is pins and pushes, so it respects that as well. -/
theorem place_moves (hrefl : ∀ t, R t t) (htrans : ∀ t t' t'', R t t' → R t' t'' → R t t'')
    (hconstrain : ∀ terms relation rhs, Moves R (TrialM.constrain terms relation rhs))
    (hsolve : Moves R (modify fun t => { t with handle := t.handle.solve } : TrialM α PUnit))
    (budget : PinningBudget) (interval : Int) (unit : String) (capacity : Nat) (remaining : Nat)
    (placed : List String) (pushes : Nat) (queue : List String) :
    Moves R (place budget interval unit capacity remaining placed pushes queue :
      TrialM α Progress) := by
  induction remaining generalizing placed pushes queue with
  | zero =>
      cases queue with
      | nil => exact Moves.pure hrefl _
      | cons node queue => exact Moves.throw hrefl _
  | succ remaining ih =>
      cases queue with
      | nil => exact Moves.pure hrefl _
      | cons node queue =>
          unfold place
          refine Moves.bind htrans (Moves.get hrefl) fun t => ?_
          simp only []
          split
          · exact Moves.throw hrefl _
          · refine Moves.ite ?_ ?_
            · exact Moves.bind htrans (hconstrain _ _ _) fun _ => ih _ _ _
            · exact Moves.bind htrans (push_moves hrefl htrans hconstrain hsolve _ _ _)
                fun _ => ih _ _ _

theorem placeAll_moves (hrefl : ∀ t, R t t) (htrans : ∀ t t' t'', R t t' → R t' t'' → R t t'')
    (hconstrain : ∀ terms relation rhs, Moves R (TrialM.constrain terms relation rhs))
    (hsolve : Moves R (modify fun t => { t with handle := t.handle.solve } : TrialM α PUnit))
    (budget : PinningBudget) (interval : Int) (v : View α) (entries : List (String × Nat))
    (p : Progress) : Moves R (placeAll budget interval v entries p) := by
  induction entries generalizing p with
  | nil => exact Moves.pure hrefl _
  | cons entry entries ih =>
      exact Moves.bind htrans
        (place_moves hrefl htrans hconstrain hsolve _ _ _ _ _ _ _ _) fun p' => ih p'

end

/-- Placing grows with every pin and every push. -/
theorem placeAll_grows (budget : PinningBudget) (interval : Int) (v : View α)
    (entries : List (String × Nat)) (p : Progress) :
    Moves (Grows P) (placeAll budget interval v entries p) :=
  placeAll_moves Grows.refl Grows.trans constrain_grows solve_grows budget interval v entries p

/-! ### Units in every cycle -/

theorem addActivations_grows (hP : ∀ w : Variable α, w.kind = .binary → P w)
    (horizon : Nat) (node : String) :
    Moves (Grows P) (addActivations horizon node : TrialM α Unit) := by
  refine Moves.bind Grows.trans ?_ fun _ => ?_
  · exact Moves.forM Grows.refl Grows.trans
      (fun cycle => declare_grows _ _ _ _ (hP _ rfl)) _
  · exact Moves.bind Grows.trans (constrain_grows _ _ _) fun _ => constrain_grows _ _ _

theorem addUnitCycles_grows (hP : ∀ w : Variable α, w.kind = .binary → P w)
    (block horizon : Nat) (unit : String) (capacity : Nat) :
    Moves (Grows P) (addUnitCycles block horizon unit capacity : TrialM α Unit) := by
  refine Moves.bind Grows.trans (Moves.get Grows.refl) fun t => ?_
  refine Moves.ite (Moves.pure Grows.refl _) ?_
  refine Moves.bind Grows.trans ?_ fun _ => ?_
  · exact Moves.forM Grows.refl Grows.trans (fun node => addActivations_grows hP _ _) _
  · exact Moves.forM Grows.refl Grows.trans (fun cycle => constrain_grows _ _ _) _

/-! ### Taking back -/

omit [Scalar α] in
/-- Removing a constraint of the model of a handle. -/
theorem perform_remove {id : Nat} {c : Constraint α} {h : Handle α} {m : Model α}
    (hremove : perform (Model.removeConstraint id) h.model = (.ok c, m)) :
    perform (do
      let _ ← HandleM.onModel (Model.removeConstraint id) : HandleM α PUnit) h
      = (.ok ⟨⟩, { h with model := m }) := by
  have hinner := perform_handle_onModel (Model.removeConstraint id) h
  rw [hremove] at hinner
  rw [perform_bind_of_ok hinner]
  rfl

omit [Scalar α] in
/-- The constraints at the end of a model can be taken back one by one. -/
theorem perform_takeBack {before more : List (Nat × Constraint α)} {h : Handle α}
    (hconstraints : h.model.constraints = before ++ more)
    (hascending : h.model.constraints.Pairwise fun c d => c.1 < d.1) :
    perform (HandleM.takeBack (more.map (·.1)).reverse) h
      = (.ok ⟨⟩, { h with model := { h.model with constraints := before } }) := by
  induction more using List.reverseRecOn generalizing h with
  | nil =>
      rw [List.append_nil] at hconstraints
      rw [← hconstraints]
      rfl
  | append_singleton more c ih =>
      rw [← List.append_assoc] at hconstraints
      -- The last constraint goes first, and the rest is as before.
      have hstep := perform_remove (Model.perform_removeConstraint_last hconstraints hascending)
      rw [hconstraints, List.pairwise_append] at hascending
      have hrest := ih (h := { h with model := { h.model with constraints := before ++ more } })
        rfl hascending.1
      simp only [List.map_append, List.map_cons, List.map_nil, List.reverse_append,
        List.reverse_cons, List.reverse_nil, List.nil_append, List.singleton_append]
      rw [HandleM.takeBack, perform_forM_cons, perform_bind_of_ok hstep]
      exact hrest

omit [Scalar α] in
/-- A trial that is refused leaves the constraints and the solution as they were. -/
theorem perform_attempt_error {act : TrialM α β} {h h' : Handle α} {cause : SchedulingError α}
    (hact : Moves (Grows P) act) (hnumbered : h.model.IsNumbered)
    (hrun : perform (TrialM.attempt act) h = (.error cause, h')) :
    h'.model.constraints = h.model.constraints ∧ h'.model.objective = h.model.objective ∧
      h'.solution = h.solution ∧
      ∃ more, h'.model.vars = h.model.vars ++ more ∧ ∀ w ∈ more, P w := by
  rcases hperform : perform act { handle := h } with ⟨answer, t⟩
  have hgrows := hact.of_perform hperform
  rw [TrialM.attempt, perform_bind_of_ok (perform_get h)] at hrun
  change Id.run (act.run.run { handle := h }) = _ at hperform
  rw [hperform] at hrun
  simp only [] at hrun
  rw [perform_bind_of_ok (perform_set h t.handle)] at hrun
  cases answer with
  | ok b => cases hrun
  | error other =>
      rcases hgrows.constraints with ⟨more, hconstraints, hadded⟩
      have hback := perform_takeBack hconstraints (hnumbered.edits hgrows.edits).ascending
      rw [List.nil_append] at hadded
      rw [← hadded] at hback
      simp only [] at hrun
      rw [perform_bind_of_ok hback, perform_bind_of_ok (perform_modify _ _)] at hrun
      cases hrun
      exact ⟨rfl, hgrows.objective, rfl, hgrows.vars⟩

/-! ### Numbers -/

/-- The numbers that a trial noted ascend, are those of constraints that are there, and are
    not given out again. -/
structure Trial.Lists (t : Trial α) : Prop where
  ascending : t.added.Pairwise (· < ·)
  present : ∀ id ∈ t.added, ∃ c ∈ t.handle.model.constraints, c.1 = id
  given : ∀ id ∈ t.added, id < t.handle.model.nextConstraint

omit [Scalar α] in
theorem Trial.Lists.start (h : Handle α) : Trial.Lists { handle := h } where
  ascending := .nil
  present _ hid := absurd hid List.not_mem_nil
  given _ hid := absurd hid List.not_mem_nil

/-- A constraint is noted under a new number. -/
theorem constrain_lists (terms : List (String × α)) (relation : Relation) (rhs : α) :
    Moves (fun t t' => t.Lists → t'.Lists) (TrialM.constrain terms relation rhs) := by
  intro t ht
  have hstep := perform_trial_onModel (Model.addConstraint terms relation rhs) t
  rcases hadd : perform (Model.addConstraint terms relation rhs) t.handle.model with ⟨answer, m⟩
  rw [hadd] at hstep
  rw [TrialM.constrain]
  cases answer with
  | ok id =>
      rcases Model.perform_addConstraint_ok hadd with ⟨stored, _, rfl, rfl⟩
      rw [perform_bind_of_ok hstep, perform_modify]
      have hnew : ∀ id ∈ t.added, id < max t.handle.model.nextConstraint 1 := fun id hid =>
        Nat.lt_of_lt_of_le (ht.given id hid) (Nat.le_max_left _ _)
      refine ⟨List.pairwise_append.mpr ⟨ht.ascending, List.pairwise_singleton _ _, ?_⟩, ?_, ?_⟩
      · intro id hid new hmem
        rw [List.mem_singleton.mp hmem]
        exact hnew id hid
      · intro id hid
        rcases List.mem_append.mp hid with hid | hid
        · rcases ht.present id hid with ⟨c, hc, heq⟩
          exact ⟨c, List.mem_append_left _ hc, heq⟩
        · rw [List.mem_singleton.mp hid]
          exact ⟨_, List.mem_append_right _ (List.mem_singleton_self _), rfl⟩
      · intro id hid
        rcases List.mem_append.mp hid with hid | hid
        · exact Nat.lt_succ_of_lt (hnew id hid)
        · rw [List.mem_singleton.mp hid]
          exact Nat.lt_succ_self _
  | error cause =>
      rw [perform_bind_of_error hstep, (Model.perform_addConstraint_error hadd).1]
      exact ht

theorem placeAll_lists (budget : PinningBudget) (interval : Int) (v : View α)
    (entries : List (String × Nat)) (p : Progress) :
    Moves (fun t t' => t.Lists → t'.Lists) (placeAll budget interval v entries p) :=
  placeAll_moves (fun _ ht => ht) (fun _ _ _ h h' ht => h' (h ht)) constrain_lists
    (Moves.modify fun _ ht => ⟨ht.ascending, ht.present, ht.given⟩) budget interval v entries p

omit [Scalar α] in
/-- Constraints that are there can be removed, in any order. -/
theorem exists_perform_takeBack {ids : List Nat} {h : Handle α} (hnodup : ids.Nodup)
    (hpresent : ∀ id ∈ ids, ∃ c ∈ h.model.constraints, c.1 = id) :
    ∃ h', perform (HandleM.takeBack ids) h = (.ok ⟨⟩, h') := by
  induction ids generalizing h with
  | nil => exact ⟨h, rfl⟩
  | cons id ids ih =>
      rw [List.forall_mem_cons] at hpresent
      rw [List.nodup_cons] at hnodup
      rcases Model.exists_removeConstraint hpresent.1 with ⟨c, m, hremove, hkept⟩
      -- The others have other numbers, so they are still there.
      have hothers : ∀ other ∈ ids, ∃ d ∈ m.constraints, d.1 = other := by
        intro other hother
        rcases hpresent.2 other hother with ⟨d, hd, rfl⟩
        exact ⟨d, hkept d hd fun heq => hnodup.1 (heq ▸ hother), rfl⟩
      rcases ih (h := { h with model := m }) hnodup.2 hothers with ⟨h', hrest⟩
      refine ⟨h', ?_⟩
      rw [HandleM.takeBack, perform_forM_cons, perform_bind_of_ok (perform_remove hremove)]
      exact hrest

omit [Scalar α] in
/-- A trial that is refused is taken back, and the refusal is the answer. -/
theorem exists_perform_attempt_error {act : TrialM α β} {h : Handle α} {t : Trial α}
    {cause : SchedulingError α} (hact : perform act { handle := h } = (.error cause, t))
    (ht : t.Lists) : ∃ h', perform (TrialM.attempt act) h = (.error cause, h') := by
  have hnodup : t.added.reverse.Nodup :=
    List.pairwise_reverse.mpr (ht.ascending.imp fun hlt => (Nat.ne_of_lt hlt).symm)
  rcases exists_perform_takeBack (h := t.handle) hnodup fun id hid =>
    ht.present id (List.mem_reverse.mp hid) with ⟨h', hback⟩
  rw [TrialM.attempt, perform_bind_of_ok (perform_get h)]
  change Id.run (act.run.run { handle := h }) = _ at hact
  rw [hact]
  simp only []
  rw [perform_bind_of_ok (perform_set h t.handle), perform_bind_of_ok hback,
    perform_bind_of_ok (perform_modify _ _)]
  exact ⟨_, rfl⟩

end CyclePlan
