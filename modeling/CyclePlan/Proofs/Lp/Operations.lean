import Mathlib.Logic.Relation
import CyclePlan.Lp.Model
import CyclePlan.Proofs.Action

/-!
# Operations of a Model

What the four operations of a model do, whether they are refused or not.

A refused operation changes nothing, and it says why it was refused. One that
succeeds makes one of four changes. `Edit` lists them, and `Edits` is any
sequence of them, so that whatever is done to a model through its operations,
by an engine or by a borrower, is a case of `Edits`. Two things survive all
edits. Variables keep their numbers, because none is ever taken away
(`Keeps`). And a constraint is found under its number, because numbers are
given out in ascending order and never again (`IsNumbered`).

Nothing here computes with numbers, so everything holds for every number type.

## Main definitions

* `Model.Knows`: A variable of that name is there.
* `Model.RefusesTerms`, `ModelError.IsNonFinite`: Why an operation is refused.
* `Model.Edit`, `Model.Edits`: What the operations do.
* `Model.Keeps`: Variables keep their numbers.
* `Model.IsNumbered`: Constraints and variables are found under their numbers.

## Theorems

* `Model.perform_addVariable_error`, `Model.perform_addConstraint_error`,
  `Model.perform_setObjective_error`: Refusals.
* `Model.exists_addVariable`, `Model.exists_addConstraint`, `Model.exists_setObjective`:
  Where operations are accepted.
* `Model.addVariable_edits`, `Model.addConstraint_edits`, `Model.setObjective_edits`: The
  operations are edits.
* `Model.Edits.keeps`, `Model.IsNumbered.edits`: What survives.
* `Model.exists_removeConstraint`: A constraint that is there can be removed.
* `Model.perform_removeConstraint_last`: Taking back the last constraint.
-/

namespace CyclePlan

/-- A number is to blame that is infinite or undefined. -/
def ModelError.IsNonFinite {α : Type} [Scalar α] (cause : ModelError α) : Prop :=
  ∃ name x, cause = .nonFinite name x ∧ (Scalar.isFinite x = false ∨ Scalar.isNaN x = true)

namespace Model

variable {α : Type} (m : Model α)

/-! ### Names -/

/-- The model has a variable of that name. -/
def Knows (name : String) : Prop := ∃ v ∈ m.vars, v.name = name

theorem knows_iff_isSome (name : String) : m.Knows name ↔ (m.variableId? name).isSome := by
  rw [variableId?, List.findIdx?_isSome, List.any_eq_true]
  simp only [Knows, beq_iff_eq]

theorem variableId?_of_not_knows {name : String} (h : ¬ m.Knows name) :
    m.variableId? name = none := by
  rw [m.knows_iff_isSome, Bool.not_eq_true, Option.isSome_eq_false_iff,
    Option.isNone_iff_eq_none] at h
  exact h

theorem Knows.of_isPrefix {m m' : Model α} (h : m.vars <+: m'.vars) {name : String}
    (hk : m.Knows name) : m'.Knows name := by
  rcases hk with ⟨v, hv, hname⟩
  exact ⟨v, h.subset hv, hname⟩

variable {m} {m' m'' : Model α}

theorem lt_of_variableId? {name : String} {i : Nat} (h : m.variableId? name = some i) :
    i < m.vars.length := (List.findIdx?_eq_some_iff_findIdx_eq.mp h).1

variable [Scalar α] {named : List (String × α)} {terms : List (Nat × α)} {cause : ModelError α}
  {relation : Relation} {rhs : α} {direction : Direction} {name : String}
  {lower upper : Option α} {kind : VariableKind} {id : Nat}

/-! ### Refusals -/

/-- One of the terms is refused, either for its name or for its coefficient. -/
def RefusesTerms (m : Model α) (named : List (String × α)) (cause : ModelError α) : Prop :=
  ∃ t ∈ named, (¬ m.Knows t.1 ∧ cause = .unknownVariable t.1) ∨
    (Scalar.isFinite t.2 = false ∧ cause = .nonFinite t.1 t.2)

theorem refusesTerms_of_collectTerm {t : String × α} (h : m.collectTerm terms t = .error cause) :
    m.RefusesTerms [t] cause := by
  refine ⟨t, List.mem_singleton_self t, ?_⟩
  rw [collectTerm] at h
  split at h
  · next hnone =>
    cases h
    refine .inl ⟨fun hk => ?_, rfl⟩
    rw [m.knows_iff_isSome, hnone] at hk
    cases hk
  · split at h
    · cases h
    · next hfinite =>
      cases h
      exact .inr ⟨Bool.not_eq_true _ ▸ hfinite, rfl⟩

/-- The terms are merged one after the other, up to the one that is refused. -/
theorem refusesTerms_of_foldlM (h : named.foldlM m.collectTerm terms = .error cause) :
    m.RefusesTerms named cause := by
  induction named generalizing terms with
  | nil => cases h
  | cons t rest ih =>
      rw [List.foldlM_cons] at h
      cases hfirst : m.collectTerm terms t with
      | ok merged =>
          rw [hfirst] at h
          rcases ih h with ⟨t', ht', hcause⟩
          exact ⟨t', List.mem_cons_of_mem _ ht', hcause⟩
      | error other =>
          rw [hfirst] at h
          cases h
          rcases refusesTerms_of_collectTerm hfirst with ⟨t', ht', hcause⟩
          exact ⟨t', List.mem_cons.mpr (.inl (List.mem_singleton.mp ht')), hcause⟩

theorem refusesTerms_of_collect (h : m.collect named = .error cause) :
    m.RefusesTerms named cause := by
  rw [collect] at h
  cases hmerged : named.foldlM m.collectTerm [] with
  | ok merged =>
      rw [hmerged] at h
      cases h
  | error other =>
      rw [hmerged] at h
      cases h
      exact refusesTerms_of_foldlM hmerged

/-- If all names are known, a coefficient is to blame. -/
theorem RefusesTerms.isNonFinite (h : m.RefusesTerms named cause)
    (hknown : ∀ t ∈ named, m.Knows t.1) : cause.IsNonFinite := by
  rcases h with ⟨t, ht, ⟨hunknown, _⟩ | ⟨hx, rfl⟩⟩
  · exact absurd (hknown t ht) hunknown
  · exact ⟨_, _, rfl, .inl hx⟩

theorem perform_collected (named : List (String × α)) (m : Model α) :
    perform (collected named) m = (m.collect named, m) := by
  rw [collected, perform_bind_of_ok (perform_get m)]
  cases m.collect named <;> rfl

/-- A constraint that is refused changes nothing. -/
theorem perform_addConstraint_error
    (h : perform (addConstraint named relation rhs) m = (.error cause, m')) :
    m' = m ∧ ((Scalar.isFinite rhs = false ∧ cause = .nonFinite "rhs" rhs) ∨
      m.RefusesTerms named cause) := by
  rw [addConstraint] at h
  cases hfinite : Scalar.isFinite rhs with
  | false =>
      simp only [hfinite, Bool.not_false, if_true] at h
      cases h
      exact ⟨rfl, .inl ⟨rfl, rfl⟩⟩
  | true =>
      simp only [hfinite, Bool.not_true, Bool.false_eq_true, if_false] at h
      cases hcollect : m.collect named with
      | ok terms =>
          rw [perform_bind, perform_collected, hcollect] at h
          cases h
      | error other =>
          rw [perform_bind, perform_collected, hcollect] at h
          cases h
          exact ⟨rfl, .inr (refusesTerms_of_collect hcollect)⟩

/-- An objective that is refused changes nothing. -/
theorem perform_setObjective_error
    (h : perform (setObjective named direction) m = (.error cause, m')) :
    m' = m ∧ m.RefusesTerms named cause := by
  rw [setObjective, perform_bind, perform_collected] at h
  cases hcollect : m.collect named with
  | ok terms =>
      rw [hcollect] at h
      cases h
  | error other =>
      rw [hcollect] at h
      cases h
      exact ⟨rfl, refusesTerms_of_collect hcollect⟩

theorem isNonFinite_of_boundsError? (h : boundsError? name lower none = some cause) :
    cause.IsNonFinite := by
  unfold boundsError? at h
  split at h
  · next bound hbound =>
    cases h
    exact ⟨name, bound, rfl, .inr (List.find?_some hbound)⟩
  · cases lower with
    | some _ => cases h
    | none => cases h

@[simp] theorem variableOf_name (name : String) (lower upper : Option α) (kind : VariableKind) :
    (variableOf name lower upper kind).name = name := by cases kind <;> rfl

/-- A variable that is refused changes nothing. -/
theorem perform_addVariable_error
    (h : perform (addVariable name lower upper kind) m = (.error cause, m')) :
    m' = m ∧ ((m.Knows name ∧ cause = .duplicateVariable name) ∨
      boundsError? (variableOf name lower upper kind).name (variableOf name lower upper kind).lower
        (variableOf name lower upper kind).upper = some cause) := by
  rw [addVariable, perform_bind_of_ok (perform_get m)] at h
  simp only [] at h
  split at h
  · split at h
    · next hbounds =>
      cases h
      exact ⟨rfl, .inr hbounds⟩
    · cases h
  · next htaken =>
    cases h
    rw [variableOf_name] at htaken
    exact ⟨rfl, .inl ⟨Classical.not_not.mp fun hk => htaken (m.variableId?_of_not_knows hk), rfl⟩⟩

/-! ### Successes -/

/-- A variable that is accepted is given the next number, and its bounds are not at
    fault. -/
theorem perform_addVariable_ok
    (h : perform (addVariable name lower upper kind) m = (.ok id, m')) :
    id = m.vars.length ∧
      boundsError? name (variableOf name lower upper kind).lower
        (variableOf name lower upper kind).upper = none ∧
      ∃ fresh, m' = m.withVariable (variableOf name lower upper kind) fresh := by
  rw [addVariable, perform_bind_of_ok (perform_get m)] at h
  simp only [] at h
  split at h
  · next hfresh =>
    split at h
    · cases h
    · next hbounds =>
      cases h
      rw [variableOf_name] at hbounds
      exact ⟨rfl, hbounds, hfresh, rfl⟩
  · cases h

/-- A variable that was added is known. -/
theorem knows_of_addVariable
    (h : perform (addVariable name lower upper kind) m = (.ok id, m')) : m'.Knows name := by
  rcases perform_addVariable_ok h with ⟨_, _, _, rfl⟩
  exact ⟨_, List.mem_append_right _ List.mem_cons_self, variableOf_name _ _ _ _⟩

theorem perform_addConstraint_ok
    (h : perform (addConstraint named relation rhs) m = (.ok id, m')) :
    ∃ terms, m.collect named = .ok terms ∧ id = max m.nextConstraint 1 ∧
      m' = { m with
        constraints := m.constraints ++ [(id, ⟨terms, relation, rhs⟩)]
        nextConstraint := id + 1 } := by
  rw [addConstraint] at h
  rcases (perform_guard_ok_iff (fun _ _ h => by cases h)).mp h with ⟨_, h⟩
  rcases perform_bind_ok_iff.mp h with ⟨terms, t, hterms, hrest⟩
  rw [perform_collected] at hterms
  rcases Prod.mk.inj hterms with ⟨hcollect, rfl⟩
  cases hrest
  exact ⟨terms, hcollect, rfl, rfl⟩

/-- A constraint with finite numbers over known variables is accepted. -/
theorem exists_addConstraint (relation : Relation) (hknown : ∀ t ∈ named, m.Knows t.1)
    (hfinite : ∀ t ∈ named, Scalar.isFinite t.2 = true) (hrhs : Scalar.isFinite rhs = true) :
    ∃ id m', perform (addConstraint named relation rhs) m = (.ok id, m') ∧ m'.vars = m.vars := by
  rcases h : perform (addConstraint named relation rhs) m with ⟨answer, m'⟩
  cases answer with
  | ok id =>
      rcases perform_addConstraint_ok h with ⟨_, _, _, rfl⟩
      exact ⟨id, _, rfl, rfl⟩
  | error cause =>
      rcases (perform_addConstraint_error h).2 with
        ⟨hbad, _⟩ | ⟨t, ht, ⟨hunknown, _⟩ | ⟨hbad, _⟩⟩
      · simp [hrhs] at hbad
      · exact absurd (hknown t ht) hunknown
      · simp [hfinite t ht] at hbad

omit [Scalar α] in
theorem knows_withVariable {w : Variable α} (fresh : m.variableId? w.name = none)
    (name : String) : (m.withVariable w fresh).Knows name ↔ m.Knows name ∨ name = w.name := by
  rw [Knows, withVariable]
  simp only [List.mem_append, List.mem_singleton, or_and_right, exists_or, exists_eq_left,
    eq_comm (a := name)]
  exact Iff.rfl

/-- A variable with bounds that are defined and in order is accepted under a new name. -/
theorem exists_addVariable (hfresh : ¬ m.Knows name)
    (hbounds : boundsError? name (variableOf name lower upper kind).lower
      (variableOf name lower upper kind).upper = none) :
    ∃ id m', perform (addVariable name lower upper kind) m = (.ok id, m') ∧
      ∀ other, m'.Knows other ↔ m.Knows other ∨ other = name := by
  rcases h : perform (addVariable name lower upper kind) m with ⟨answer, m'⟩
  cases answer with
  | ok id =>
      rcases perform_addVariable_ok h with ⟨_, _, fresh, rfl⟩
      refine ⟨id, _, rfl, fun other => ?_⟩
      rw [knows_withVariable fresh, variableOf_name]
  | error cause =>
      rcases (perform_addVariable_error h).2 with ⟨hknown, _⟩ | hbad
      · exact absurd hknown hfresh
      · rw [variableOf_name, hbounds] at hbad
        cases hbad

theorem perform_setObjective_ok {u : Unit}
    (h : perform (setObjective named direction) m = (.ok u, m')) :
    ∃ terms, m.collect named = .ok terms ∧ m' = { m with objective := { direction, terms } } := by
  rcases perform_bind_ok_iff.mp h with ⟨terms, t, hterms, hrest⟩
  rw [perform_collected] at hterms
  rcases Prod.mk.inj hterms with ⟨hcollect, rfl⟩
  cases hrest
  exact ⟨terms, hcollect, rfl⟩

/-- An objective with finite coefficients over known variables is accepted. -/
theorem exists_setObjective (direction : Direction) (hknown : ∀ t ∈ named, m.Knows t.1)
    (hfinite : ∀ t ∈ named, Scalar.isFinite t.2 = true) :
    ∃ m', perform (setObjective named direction) m = (.ok ⟨⟩, m') ∧ m'.vars = m.vars := by
  rcases h : perform (setObjective named direction) m with ⟨answer, m'⟩
  cases answer with
  | ok u =>
      rcases perform_setObjective_ok h with ⟨_, _, rfl⟩
      exact ⟨_, rfl, rfl⟩
  | error cause =>
      rcases (perform_setObjective_error h).2 with ⟨t, ht, ⟨hunknown, _⟩ | ⟨hbad, _⟩⟩
      · exact absurd (hknown t ht) hunknown
      · simp [hfinite t ht] at hbad

/-! ### Edits -/

omit [Scalar α] in
/-- The changes that operations make. -/
inductive Edit (m : Model α) : Model α → Prop
  | declare (v : Variable α) (fresh : m.variableId? v.name = none) :
    Edit m (m.withVariable v fresh)
  | submit (c : Constraint α) (hterms : ∀ t ∈ c.terms, t.1 < m.vars.length) :
    Edit m { m with
      constraints := m.constraints ++ [(max m.nextConstraint 1, c)]
      nextConstraint := max m.nextConstraint 1 + 1 }
  | remove (id : Nat) :
    Edit m { m with constraints := m.constraints.filter fun c => c.1 != id }
  | aim (objective : Objective α) : Edit m { m with objective }

omit [Scalar α] in
/-- Any number of changes. -/
def Edits : Model α → Model α → Prop := Relation.ReflTransGen Edit

omit [Scalar α] in
theorem Edits.refl (m : Model α) : m.Edits m := Relation.ReflTransGen.refl

omit [Scalar α] in
theorem Edits.trans (m m' m'' : Model α) (h : m.Edits m') (h' : m'.Edits m'') : m.Edits m'' :=
  Relation.ReflTransGen.trans h h'

omit [Scalar α] in
theorem Edit.edits (h : m.Edit m') : m.Edits m' := .single h

theorem mem_addTerm {v : Nat} {c : α} {t : Nat × α} (h : t ∈ addTerm v c terms) :
    t.1 = v ∨ ∃ t' ∈ terms, t.1 = t'.1 := by
  induction terms with
  | nil =>
      rw [addTerm, List.mem_singleton] at h
      exact .inl (congrArg Prod.fst h)
  | cons s rest ih =>
      rw [addTerm] at h
      split at h
      · rcases List.mem_cons.mp h with rfl | h
        · exact .inr ⟨s, List.mem_cons_self, rfl⟩
        · exact .inr ⟨t, List.mem_cons_of_mem _ h, rfl⟩
      · split at h
        · rcases List.mem_cons.mp h with rfl | h
          · exact .inl rfl
          · exact .inr ⟨t, h, rfl⟩
        · rcases List.mem_cons.mp h with rfl | h
          · exact .inr ⟨s, List.mem_cons_self, rfl⟩
          · rcases ih h with hv | ⟨t', ht', heq⟩
            · exact .inl hv
            · exact .inr ⟨t', List.mem_cons_of_mem _ ht', heq⟩

theorem lt_of_collectTerm {t : String × α} {merged : List (Nat × α)}
    (hterms : ∀ s ∈ terms, s.1 < m.vars.length) (h : m.collectTerm terms t = .ok merged) :
    ∀ s ∈ merged, s.1 < m.vars.length := by
  intro s hs
  rw [collectTerm] at h
  split at h
  · cases h
  · next i hi =>
    split at h
    · cases h
      rcases mem_addTerm hs with heq | ⟨s', hs', heq⟩
      · rw [heq]
        exact lt_of_variableId? hi
      · rw [heq]
        exact hterms s' hs'
    · cases h

theorem lt_of_foldlM {merged : List (Nat × α)} (hterms : ∀ s ∈ terms, s.1 < m.vars.length)
    (h : named.foldlM m.collectTerm terms = .ok merged) : ∀ s ∈ merged, s.1 < m.vars.length := by
  induction named generalizing terms with
  | nil =>
      cases h
      exact hterms
  | cons t rest ih =>
      rw [List.foldlM_cons] at h
      cases hfirst : m.collectTerm terms t with
      | ok next =>
          rw [hfirst] at h
          exact ih (lt_of_collectTerm hterms hfirst) h
      | error _ =>
          rw [hfirst] at h
          cases h

/-- Terms are stored with the numbers of variables that are there. -/
theorem lt_of_collect (h : m.collect named = .ok terms) : ∀ t ∈ terms, t.1 < m.vars.length := by
  rw [collect] at h
  cases hmerged : named.foldlM m.collectTerm [] with
  | ok merged =>
      rw [hmerged] at h
      cases h
      intro t ht
      have hnone : ∀ s ∈ ([] : List (Nat × α)), s.1 < m.vars.length := by simp
      exact lt_of_foldlM hnone hmerged t (List.mem_filter.mp ht).1
  | error _ =>
      rw [hmerged] at h
      cases h

theorem addVariable_edits (name : String) (lower upper : Option α) (kind : VariableKind) :
    Moves Edits (addVariable name lower upper kind) := by
  intro m
  rcases h : perform (addVariable name lower upper kind) m with ⟨answer, m'⟩
  cases answer with
  | ok id =>
      rcases perform_addVariable_ok h with ⟨_, _, fresh, rfl⟩
      exact (Edit.declare _ fresh).edits
  | error cause =>
      rw [(perform_addVariable_error h).1]
      exact Edits.refl m

theorem addConstraint_edits (named : List (String × α)) (relation : Relation) (rhs : α) :
    Moves Edits (addConstraint named relation rhs) := by
  intro m
  rcases h : perform (addConstraint named relation rhs) m with ⟨answer, m'⟩
  cases answer with
  | ok id =>
      rcases perform_addConstraint_ok h with ⟨terms, hterms, rfl, rfl⟩
      exact (Edit.submit ⟨terms, relation, rhs⟩ (lt_of_collect hterms)).edits
  | error cause =>
      rw [(perform_addConstraint_error h).1]
      exact Edits.refl m

theorem setObjective_edits (named : List (String × α)) (direction : Direction) :
    Moves Edits (setObjective named direction) := by
  intro m
  rcases h : perform (setObjective named direction) m with ⟨answer, m'⟩
  cases answer with
  | ok id =>
      rcases perform_setObjective_ok h with ⟨terms, _, rfl⟩
      exact (Edit.aim ⟨direction, terms⟩).edits
  | error cause =>
      rw [(perform_setObjective_error h).1]
      exact Edits.refl m

/-! ### What survives -/

omit [Scalar α] in
/-- The variables that were there are there, under the same numbers. -/
def Keeps (m m' : Model α) : Prop := m.vars <+: m'.vars

omit [Scalar α] in
theorem Keeps.refl (m : Model α) : m.Keeps m := List.prefix_rfl

omit [Scalar α] in
theorem Keeps.trans (m m' m'' : Model α) (h : m.Keeps m') (h' : m'.Keeps m'') : m.Keeps m'' :=
  List.IsPrefix.trans h h'

omit [Scalar α] in
theorem Edit.keeps (h : m.Edit m') : m.Keeps m' := by
  cases h with
  | declare v _ => exact List.prefix_append _ _
  | submit c _ => exact Keeps.refl m
  | remove id => exact Keeps.refl m
  | aim o => exact Keeps.refl m

omit [Scalar α] in
/-- No operation takes a variable away. -/
theorem Edits.keeps (h : m.Edits m') : m.Keeps m' := by
  induction h with
  | refl => exact Keeps.refl m
  | tail _ hstep ih => exact ih.trans _ _ _ hstep.keeps

omit [Scalar α] in
/-- What every round of a loop brings is there after the loop. -/
theorem knows_of_forM {ε β : Type} {f : β → ExceptT ε (StateM (Model α)) PUnit}
    {nameOf : β → String} (hkeeps : ∀ b, Moves Keeps (f b))
    (hknows : ∀ b m m', perform (f b) m = (.ok ⟨⟩, m') → m'.Knows (nameOf b)) {bs : List β}
    (h : perform (bs.forM f) m = (.ok ⟨⟩, m')) : ∀ b ∈ bs, m'.Knows (nameOf b) := by
  induction bs generalizing m with
  | nil => exact fun b hb => absurd hb List.not_mem_nil
  | cons b bs ih =>
      rcases perform_forM_cons_ok_iff.mp h with ⟨t, hfirst, hrest⟩
      refine List.forall_mem_cons.mpr ⟨?_, ih hrest⟩
      -- The rounds that follow keep what the first one brought.
      have hmore := (Moves.forM Keeps.refl Keeps.trans hkeeps bs).of_perform hrest
      exact (hknows b m t hfirst).of_isPrefix hmore

omit [Scalar α] in
/-- Every constraint has a number of its own that has been given out, and every
    variable in it is there. -/
structure IsNumbered (m : Model α) : Prop where
  ascending : m.constraints.Pairwise fun c d => c.1 < d.1
  given : ∀ c ∈ m.constraints, c.1 < max m.nextConstraint 1
  terms : ∀ c ∈ m.constraints, ∀ t ∈ c.2.terms, t.1 < m.vars.length

namespace IsNumbered

omit [Scalar α] in
theorem of_no_constraints (h : m.constraints = []) : m.IsNumbered := by
  refine ⟨?_, ?_, ?_⟩ <;> simp [h]

omit [Scalar α] in
theorem edit (h : m.IsNumbered) (hedit : m.Edit m') : m'.IsNumbered := by
  cases hedit with
  | declare v _ =>
      refine ⟨h.ascending, h.given, fun c hc t ht => ?_⟩
      exact Nat.lt_of_lt_of_le (h.terms c hc t ht) (List.prefix_append m.vars [v]).length_le
  | submit c hterms =>
      refine ⟨?_, fun d hd => ?_, fun d hd => ?_⟩
      · -- The new number is greater than all that were given out before.
        rw [List.pairwise_append]
        refine ⟨h.ascending, List.pairwise_singleton _ _, fun d hd d' hd' => ?_⟩
        rw [List.mem_singleton.mp hd']
        exact h.given d hd
      · rcases List.mem_append.mp hd with hd | hd
        · have hgiven := h.given d hd
          change d.1 < max (max m.nextConstraint 1 + 1) 1
          omega
        · rw [List.mem_singleton.mp hd]
          change max m.nextConstraint 1 < max (max m.nextConstraint 1 + 1) 1
          omega
      · rcases List.mem_append.mp hd with hd | hd
        · exact h.terms d hd
        · rw [List.mem_singleton.mp hd]
          exact hterms
  | remove id =>
      refine ⟨h.ascending.filter _, fun c hc => ?_, fun c hc => ?_⟩
      · exact h.given c (List.mem_filter.mp hc).1
      · exact h.terms c (List.mem_filter.mp hc).1
  | aim o => exact ⟨h.ascending, h.given, h.terms⟩

omit [Scalar α] in
/-- Numbers stay in order whatever operations are used. -/
theorem edits (h : m.IsNumbered) (hedits : m.Edits m') : m'.IsNumbered := by
  induction hedits with
  | refl => exact h
  | tail _ hstep ih => exact ih.edit hstep

end IsNumbered

omit [Scalar α] in
theorem perform_removeConstraint_of_found {id : Nat} {c : Constraint α}
    (h : m.constraint? id = some c) :
    perform (removeConstraint id) m
      = (.ok c, { m with constraints := m.constraints.filter fun d => d.1 != id }) := by
  rw [removeConstraint, perform_bind_of_ok (perform_get m)]
  simp only [h]
  rfl

omit [Scalar α] in
/-- A constraint that is there can be removed, and those with other numbers stay. -/
theorem exists_removeConstraint {id : Nat} (h : ∃ c ∈ m.constraints, c.1 = id) :
    ∃ c m', perform (removeConstraint id) m = (.ok c, m') ∧
      ∀ d ∈ m.constraints, d.1 ≠ id → d ∈ m'.constraints := by
  rcases h with ⟨c, hc, rfl⟩
  have hsome : (m.constraints.find? fun d => d.1 == c.1).isSome = true :=
    List.find?_isSome.mpr ⟨c, hc, beq_self_eq_true _⟩
  rcases Option.isSome_iff_exists.mp hsome with ⟨found, hfind⟩
  have hfound : m.constraint? c.1 = some found.2 := by
    rw [constraint?, hfind]
    rfl
  exact ⟨_, _, perform_removeConstraint_of_found hfound, fun d hd hne =>
    List.mem_filter.mpr ⟨hd, bne_iff_ne.mpr hne⟩⟩

omit [Scalar α] in
/-- Taking back the last constraint succeeds and leaves the others. -/
theorem perform_removeConstraint_last {before : List (Nat × Constraint α)}
    {c : Nat × Constraint α} (h : m.constraints = before ++ [c])
    (hascending : m.constraints.Pairwise fun c d => c.1 < d.1) :
    perform (removeConstraint c.1) m = (.ok c.2, { m with constraints := before }) := by
  rw [h, List.pairwise_append] at hascending
  have hother : ∀ d ∈ before, d.1 ≠ c.1 := fun d hd =>
    Nat.ne_of_lt (hascending.2.2 d hd c (List.mem_singleton_self c))
  have hfind : m.constraint? c.1 = some c.2 := by
    have hbefore : before.find? (fun d => d.1 == c.1) = none :=
      List.find?_eq_none.mpr fun d hd => by simpa using hother d hd
    rw [constraint?, h, List.find?_append, hbefore, Option.none_or, List.find?_singleton]
    simp
  have hfilter : m.constraints.filter (fun d => d.1 != c.1) = before := by
    rw [h, List.filter_append, List.filter_eq_self.mpr fun d hd => by simpa using hother d hd]
    simp
  rw [perform_removeConstraint_of_found hfind, hfilter]

end Model

end CyclePlan
