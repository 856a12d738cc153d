import CyclePlan.Proofs.Engine.Names
import CyclePlan.Proofs.Lp.Building
import CyclePlan.Proofs.Scalar.Words

/-!
# Declaring Variables

When a model accepts everything that is done to it.

An operation of a model is refused for one of three reasons: a name is taken, a name
is missing, or a number is not finite. Numbers are looked at one by one. For names
it is enough to keep account of them. An action is described by the variables that
it needs and those that it declares (`Declares`), and where the former are there and
the latter are not, it is accepted and declares those and no others. The account
speaks of roles and not of names, so that the next action in a sequence is only
asked to declare other roles than the one before.

The same is said of actions over a model and of trials over a handle, which differ
in where the model is found (`Setting`).

## Main definitions

* `Setting`: Where an action finds its model.
* `Declares`: What an action needs and declares.
* `Model.HasRoles`: Which variables a model has.

## Theorems

* `Declares.bind`, `Declares.forM`: Sequences and loops.
* `Declares.addVariable`, `Declares.addConstraint`, `Declares.setObjective`: The
  operations.
* `Model.HasRoles.declare`: What an action leads to.
-/

namespace CyclePlan

/-- Where an action finds its model, and what else has to be the case. -/
structure Setting (σ α : Type) where
  model : σ → Model α
  holds : σ → Prop

/-- The state is the model. -/
def Setting.alone (α : Type) : Setting (Model α) α := ⟨id, fun _ => True⟩

variable {α ε σ β γ : Type}

/-- Where variables with the old roles are there and none with the new ones, the action is
    accepted, and it declares variables with the new roles and no others. -/
def Declares (w : Setting σ α) (old new : List Role) (act : ExceptT ε (StateM σ) β) : Prop :=
  ∀ s, w.holds s → (∀ r ∈ old, (w.model s).Knows r.var) →
    (∀ r ∈ new, ¬ (w.model s).Knows r.var) →
    ∃ b s', perform act s = (.ok b, s') ∧ w.holds s' ∧
      ∀ name, (w.model s').Knows name ↔ (w.model s).Knows name ∨ ∃ r ∈ new, r.var = name

namespace Declares

variable {w : Setting σ α} {old old' new more : List Role} {act : ExceptT ε (StateM σ) β}

theorem pure (b : β) : Declares w old [] (Pure.pure b : ExceptT ε (StateM σ) β) :=
  fun s hs _ _ => ⟨b, s, rfl, hs, fun name => by simp⟩

theorem mono (h : Declares w old new act) (hold : ∀ r ∈ old, r ∈ old') : Declares w old' new act :=
  fun s hs hknown hfresh => h s hs (fun r hr => hknown r (hold r hr)) hfresh

/-- A second action may need what the first one declares, and declares something else. -/
theorem bind (h : Declares w old new act) {next : β → ExceptT ε (StateM σ) γ}
    (hnext : ∀ b, Declares w (old ++ new) more (next b)) (hother : ∀ r ∈ new, r ∉ more) :
    Declares w old (new ++ more) (act >>= next) := by
  intro s hs hknown hfresh
  rw [List.forall_mem_append] at hfresh
  rcases h s hs hknown hfresh.1 with ⟨b, t, hact, ht, hknows⟩
  have hknown' : ∀ r ∈ old ++ new, (w.model t).Knows r.var := by
    rw [List.forall_mem_append]
    exact ⟨fun r hr => (hknows _).mpr (.inl (hknown r hr)),
      fun r hr => (hknows _).mpr (.inr ⟨r, hr, rfl⟩)⟩
  -- No two roles share a name, so what is still to come has not been declared by now.
  have hfresh' : ∀ r ∈ more, ¬ (w.model t).Knows r.var := by
    intro r hr hk
    rcases (hknows _).mp hk with hbefore | ⟨r', hr', heq⟩
    · exact hfresh.2 r hr hbefore
    · exact hother r' hr' (Role.var_injective heq ▸ hr)
  rcases hnext b t ht hknown' hfresh' with ⟨c, u, hrest, hu, hknows'⟩
  refine ⟨c, u, by rw [perform_bind_of_ok hact, hrest], hu, fun name => ?_⟩
  rw [hknows', hknows]
  simp only [List.mem_append, or_and_right, exists_or, or_assoc]

/-- After an action that declares nothing, all is as before. -/
theorem andThen (h : Declares w old [] act) {next : β → ExceptT ε (StateM σ) γ}
    (hnext : ∀ b, Declares w old more (next b)) : Declares w old more (act >>= next) := by
  have hlater : ∀ b, Declares w (old ++ []) more (next b) := fun b => (hnext b).mono (by simp)
  have hboth := h.bind hlater (by simp)
  rwa [List.nil_append] at hboth

/-- What follows need not declare anything. -/
theorem followed (h : Declares w old new act) {next : β → ExceptT ε (StateM σ) γ}
    (hnext : ∀ b, Declares w (old ++ new) [] (next b)) : Declares w old new (act >>= next) := by
  have hboth := h.bind hnext (by simp)
  rwa [List.append_nil] at hboth

/-- Rounds of a loop that declare different roles do not get in each other's way. -/
theorem forM {f : β → ExceptT ε (StateM σ) PUnit} {roles : β → List Role} {bs : List β}
    (hround : ∀ b ∈ bs, Declares w old (roles b) (f b)) (hnodup : (bs.flatMap roles).Nodup) :
    Declares w old (bs.flatMap roles) (bs.forM f) := by
  induction bs with
  | nil => exact Declares.pure _
  | cons b bs ih =>
      rw [List.forall_mem_cons] at hround
      rw [List.flatMap_cons, List.nodup_append] at hnodup
      rw [List.flatMap_cons]
      have hrest : Declares w (old ++ roles b) (bs.flatMap roles) (bs.forM f) :=
        (ih hround.2 hnodup.2.1).mono fun r hr => List.mem_append_left _ hr
      exact hround.1.bind (fun _ => hrest) fun r hr hmore => hnodup.2.2 r hr r hmore rfl

theorem forM_nil {f : β → ExceptT ε (StateM σ) PUnit} {bs : List β}
    (hround : ∀ b ∈ bs, Declares w old [] (f b)) : Declares w old [] (bs.forM f) := by
  have hnone : bs.flatMap (fun _ => ([] : List Role)) = [] := by simp
  have hnodup : (bs.flatMap fun _ => ([] : List Role)).Nodup := by
    rw [hnone]
    exact List.nodup_nil
  have hloop := forM hround hnodup
  rwa [hnone] at hloop

/-- A check that passes lets an action go on. -/
theorem ite {c : Prop} [Decidable c] (hc : ¬ c) {stop : ExceptT ε (StateM σ) β}
    (h : Declares w old new act) : Declares w old new (if c then stop else act) := by
  rwa [if_neg hc]

/-! ### Operations of a model -/

section

variable [Scalar α] {m : Model α} {named : List (String × α)} {rhs : α}

omit [Scalar α] in
theorem knows_of_named (hknown : ∀ r ∈ old, m.Knows r.var)
    (hnamed : ∀ t ∈ named, ∃ r ∈ old, t.1 = r.var) : ∀ t ∈ named, m.Knows t.1 := by
  intro t ht
  rcases hnamed t ht with ⟨r, hr, heq⟩
  rw [heq]
  exact hknown r hr

theorem addVariable (r : Role) {lower upper : Option α} {kind : VariableKind}
    (hbounds : Model.boundsError? r.var (Model.variableOf r.var lower upper kind).lower
      (Model.variableOf r.var lower upper kind).upper = none) :
    Declares (.alone α) old [r] (Model.addVariable r.var lower upper kind) := by
  intro m _ _ hfresh
  rcases Model.exists_addVariable (hfresh r (List.mem_singleton_self r)) hbounds with
    ⟨id, m', hrun, hknows⟩
  refine ⟨id, m', hrun, trivial, fun name => ?_⟩
  simp only [List.mem_singleton, exists_eq_left, eq_comm (a := r.var)]
  exact hknows name

theorem addConstraint (relation : Relation) (hnamed : ∀ t ∈ named, ∃ r ∈ old, t.1 = r.var)
    (hfinite : ∀ t ∈ named, Scalar.isFinite t.2 = true) (hrhs : Scalar.isFinite rhs = true) :
    Declares (.alone α) old [] (Model.addConstraint named relation rhs) := by
  intro m _ hknown _
  rcases Model.exists_addConstraint relation (knows_of_named hknown hnamed) hfinite hrhs with
    ⟨id, m', hrun, hvars⟩
  refine ⟨id, m', hrun, trivial, fun name => ?_⟩
  simp [Setting.alone, Model.Knows, hvars]

/-- Most constraints bound one variable less another. -/
theorem addDifference [Scalar.FiniteUnits α] {a b : Role} (relation : Relation) (ha : a ∈ old)
    (hb : b ∈ old) (hrhs : Scalar.isFinite rhs = true) :
    Declares (.alone α) old [] (Model.addConstraint [(a.var, 1), (b.var, -1)] relation rhs) := by
  refine addConstraint relation ?_ ?_ hrhs
  · exact List.forall_mem_cons.mpr
      ⟨⟨a, ha, rfl⟩, List.forall_mem_singleton.mpr ⟨b, hb, rfl⟩⟩
  · exact List.forall_mem_cons.mpr
      ⟨Scalar.FiniteUnits.one, List.forall_mem_singleton.mpr Scalar.FiniteUnits.neg_one⟩

theorem setObjective (direction : Direction) (hnamed : ∀ t ∈ named, ∃ r ∈ old, t.1 = r.var)
    (hfinite : ∀ t ∈ named, Scalar.isFinite t.2 = true) :
    Declares (.alone α) old [] (Model.setObjective named direction) := by
  intro m _ hknown _
  rcases Model.exists_setObjective direction (knows_of_named hknown hnamed) hfinite with
    ⟨m', hrun, hvars⟩
  refine ⟨⟨⟩, m', hrun, trivial, fun name => ?_⟩
  simp [Setting.alone, Model.Knows, hvars]

end

theorem step {act : ModelM α β} (h : Declares (.alone α) old new act) :
    Declares (.alone α) old new (BuildM.step act) := by
  intro m hm hknown hfresh
  rcases h m hm hknown hfresh with ⟨b, m', hrun, hrest⟩
  exact ⟨b, m', BuildM.perform_step_ok_iff.mpr hrun, hrest⟩

end Declares

/-! ### Models -/

namespace Model

variable {m : Model α} {roles old new : List Role}

/-- The model has one variable for each of some roles and no others. -/
def HasRoles (m : Model α) (roles : List Role) : Prop :=
  ∀ name, m.Knows name ↔ ∃ r ∈ roles, r.var = name

theorem HasRoles.named (name : String) : (named name : Model α).HasRoles [] := by
  intro other
  simp [Knows, Model.named]

theorem HasRoles.knows (h : m.HasRoles roles) {r : Role} (hr : r ∈ roles) : m.Knows r.var :=
  (h _).mpr ⟨r, hr, rfl⟩

theorem HasRoles.not_knows (h : m.HasRoles roles) {r : Role} (hr : r ∉ roles) :
    ¬ m.Knows r.var := by
  intro hk
  rcases (h _).mp hk with ⟨r', hr', heq⟩
  exact hr (Role.var_injective heq ▸ hr')

/-- A model that has what an action needs, and not what it declares, accepts it. -/
theorem HasRoles.declare {act : ExceptT ε (StateM (Model α)) β} (h : m.HasRoles roles)
    (hact : Declares (.alone α) old new act) (hold : ∀ r ∈ old, r ∈ roles)
    (hnew : ∀ r ∈ new, r ∉ roles) :
    ∃ b m', perform act m = (.ok b, m') ∧ m'.HasRoles (roles ++ new) := by
  rcases hact m trivial (fun r hr => h.knows (hold r hr)) (fun r hr => h.not_knows (hnew r hr))
    with ⟨b, m', hrun, _, hknows⟩
  refine ⟨b, m', hrun, fun name => ?_⟩
  refine (hknows name).trans ?_
  simp only [List.mem_append, or_and_right, exists_or]
  exact or_congr_left (h name)

end Model

end CyclePlan
