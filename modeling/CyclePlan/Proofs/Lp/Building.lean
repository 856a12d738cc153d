import CyclePlan.Engine.Discipline
import CyclePlan.Proofs.Lp.Rows

/-!
# Building Models

What each building step does to a model, as a function of the model.

A step succeeds for a reason that can be read off its arguments, and then its
result is one particular model: `perform_addConstraint_ok_iff` and its
neighbours say both at once. Everything that is built from steps is computed
with these equations, in either direction. Read from the left they tell what a
successful run has done; read from the right they tell that a run succeeds.

## Main definitions

* `Model.withRow`, `Model.withRows`: A model with further rows.
* `BuildM.addRow`: Submitting a row.

## Theorems

* `Model.perform_addConstraint_ok_iff`: When a constraint is accepted.
* `Model.perform_addVariable_ok_iff`: When a variable is accepted.
* `Model.perform_setObjective_ok_iff`: When an objective is accepted.
* `BuildM.perform_forM_row_ok_iff`: When a loop over rows is accepted.
* `Model.Consists.withRows`: Accepted rows extend the description.
-/

namespace CyclePlan

namespace Model

variable (m : Model Rat)

/-- The model with one more row. -/
def withRow (r : Row) : Model Rat :=
  { m with
    constraints := m.constraints ++ [(max m.nextConstraint 1, m.stored r)]
    nextConstraint := max m.nextConstraint 1 + 1 }

/-- The model with further rows, in order. -/
def withRows (rows : List Row) : Model Rat := rows.foldl withRow m

/-- The model with another objective. -/
def withObjective (direction : Direction) (named : List (String × Rat)) : Model Rat :=
  { m with objective := { direction, terms := m.merge named } }

@[simp] theorem withRow_vars (r : Row) : (m.withRow r).vars = m.vars := rfl

@[simp] theorem withObjective_vars (d : Direction) (named : List (String × Rat)) :
    (m.withObjective d named).vars = m.vars := rfl

@[simp] theorem withRows_vars (rows : List Row) : (m.withRows rows).vars = m.vars := by
  induction rows generalizing m with
  | nil => rfl
  | cons r rows ih => exact ih (m.withRow r)

@[simp] theorem knows_withRow (r : Row) (name : String) :
    (m.withRow r).Knows name ↔ m.Knows name := Iff.rfl

theorem perform_collected_ok_iff {named : List (String × Rat)} {terms : List (Nat × Rat)}
    {m m' : Model Rat} :
    perform (collected named) m = (.ok terms, m') ↔
      (∀ t ∈ named, m.Knows t.1) ∧ terms = m.merge named ∧ m' = m := by
  rw [collected, perform_bind_of_ok (perform_get m)]
  cases h : m.collect named with
  | ok found =>
      rcases m.collect_eq_ok_iff.mp h with ⟨hall, rfl⟩
      constructor
      · intro heq
        cases heq
        exact ⟨hall, rfl, rfl⟩
      · rintro ⟨_, rfl, rfl⟩
        rfl
  | error e =>
      constructor
      · intro heq
        cases heq
      · rintro ⟨hall, _⟩
        rw [m.collect_eq_ok_iff.mpr ⟨hall, rfl⟩] at h
        cases h

/-- A constraint is accepted exactly if all of its variables are known. -/
theorem perform_addConstraint_ok_iff {r : Row} {id : Nat} {m m' : Model Rat} :
    perform (addConstraint r.terms r.relation r.rhs) m = (.ok id, m') ↔
      r.IsKnown m ∧ id = max m.nextConstraint 1 ∧ m' = m.withRow r := by
  change perform (collected r.terms >>= _) m = _ ↔ _
  rw [perform_bind_ok_iff]
  constructor
  · rintro ⟨terms, t, hterms, hrest⟩
    rcases perform_collected_ok_iff.mp hterms with ⟨hall, rfl, rfl⟩
    cases hrest
    exact ⟨hall, rfl, rfl⟩
  · rintro ⟨hall, rfl, rfl⟩
    exact ⟨m.merge r.terms, m, perform_collected_ok_iff.mpr ⟨hall, rfl, rfl⟩, rfl⟩

/-- A variable with a lower bound alone is accepted exactly if its name is not
    taken. -/
theorem perform_addVariable_ok_iff {name : String} {lower : Rat} {kind : VariableKind}
    (hkind : kind ≠ .binary) {id : Nat} {m m' : Model Rat} :
    perform (addVariable name (some lower) none kind) m = (.ok id, m') ↔
      id = m.vars.length ∧ ∃ fresh : m.variableId? name = none,
        m' = m.withVariable ⟨name, kind, some lower, none⟩ fresh := by
  -- Only binary variables are given other bounds than those submitted.
  have hvar : variableOf name (some lower) none kind = ⟨name, kind, some lower, none⟩ := by
    cases kind with
    | continuous => rfl
    | integer => rfl
    | binary => exact absurd rfl hkind
  have hbounds : boundsError? name (some lower) (none : Option Rat) = none := rfl
  rw [addVariable, perform_bind_of_ok (perform_get m), hvar]
  by_cases fresh : m.variableId? name = none
  · simp only [fresh, dite_true, hbounds]
    constructor
    · intro heq
      cases heq
      exact ⟨rfl, trivial, rfl⟩
    · rintro ⟨rfl, _, rfl⟩
      rfl
  · simp only [fresh, dite_false]
    constructor
    · intro heq
      cases heq
    · rintro ⟨_, hfresh, _⟩
      exact hfresh.elim

/-- An objective is accepted exactly if all of its variables are known. -/
theorem perform_setObjective_ok_iff {named : List (String × Rat)} {d : Direction}
    {m m' : Model Rat} :
    perform (setObjective named d) m = (.ok ⟨⟩, m') ↔
      (∀ t ∈ named, m.Knows t.1) ∧ m' = m.withObjective d named := by
  rw [setObjective, perform_bind_ok_iff]
  constructor
  · rintro ⟨terms, t, hterms, hrest⟩
    rcases perform_collected_ok_iff.mp hterms with ⟨hall, rfl, rfl⟩
    cases hrest
    exact ⟨hall, rfl⟩
  · rintro ⟨hall, rfl⟩
    exact ⟨m.merge named, m, perform_collected_ok_iff.mpr ⟨hall, rfl, rfl⟩, rfl⟩

namespace Consists

variable {m : Model Rat} {rows : List Row}

theorem named (name : String) : (Model.named name : Model Rat).Consists [] :=
  ⟨fun _ hr => absurd hr List.not_mem_nil, rfl⟩

/-- A further variable keeps the description. -/
theorem withVariable (h : m.Consists rows) (v : Variable Rat)
    (fresh : m.variableId? v.name = none) : (m.withVariable v fresh).Consists rows := by
  have hvars : m.vars <+: (m.withVariable v fresh).vars := List.prefix_append _ _
  refine ⟨fun r hr => (h.known r hr).of_isPrefix hvars, ?_⟩
  -- The old variables keep their numbers, so rows are stored as before.
  rw [List.map_congr_left fun r hr => stored_of_isPrefix hvars (h.known r hr)]
  exact h.stored

theorem withRow (h : m.Consists rows) {r : Row} (hr : r.IsKnown m) :
    (m.withRow r).Consists (rows ++ [r]) := by
  refine ⟨fun s hs => ?_, ?_⟩
  · rcases List.mem_append.mp hs with hs | hs
    · exact h.known s hs
    · rw [List.mem_singleton.mp hs]
      exact hr
  · change (m.constraints ++ [(max m.nextConstraint 1, m.stored r)]).map (·.2)
      = (rows ++ [r]).map m.stored
    rw [List.map_append, List.map_append, h.stored]
    rfl

/-- Accepted rows extend the description. -/
theorem withRows (h : m.Consists rows) {more : List Row} (hmore : ∀ r ∈ more, r.IsKnown m) :
    (m.withRows more).Consists (rows ++ more) := by
  induction more generalizing m rows with
  | nil => rwa [List.append_nil]
  | cons r more ih =>
      rw [List.append_cons]
      exact ih (h.withRow (hmore r List.mem_cons_self)) fun s hs =>
        hmore s (List.mem_cons_of_mem _ hs)

theorem withObjective (h : m.Consists rows) (d : Direction) (named : List (String × Rat)) :
    (m.withObjective d named).Consists rows := ⟨h.known, h.stored⟩

end Consists

/-- The value of an objective that was submitted by name. -/
theorem objectiveValue_withObjective (d : Direction) (named : List (String × Rat))
    (x : Nat → Rat) :
    (m.withObjective d named).objectiveValue x = Row.sum named (m.valueOf x) :=
  m.evaluate_merge named x

end Model

namespace BuildM

/-- A step of a model succeeds as a building step exactly if it succeeds. -/
theorem perform_step_ok_iff {α β : Type} {act : ModelM α β} {b : β} {m m' : Model α} :
    perform (BuildM.step act) m = (.ok b, m') ↔ perform act m = (.ok b, m') := by
  rw [BuildM.step, perform_adapt]
  rcases perform act m with ⟨answer, t⟩
  cases answer with
  | ok b' =>
      constructor
      · intro h
        cases h
        rfl
      · intro h
        cases h
        rfl
  | error e =>
      constructor
      · intro h
        cases h
      · intro h
        cases h

/-- Submitting a row. -/
def addRow (r : Row) : BuildM Rat Unit := do
  let _ ← BuildM.step (Model.addConstraint r.terms r.relation r.rhs)

theorem perform_addRow_ok_iff {r : Row} {m m' : Model Rat} :
    perform (addRow r) m = (.ok ⟨⟩, m') ↔ r.IsKnown m ∧ m' = m.withRow r := by
  rw [addRow, perform_bind_ok_iff]
  constructor
  · rintro ⟨id, t, hadd, hrest⟩
    rcases Model.perform_addConstraint_ok_iff.mp (perform_step_ok_iff.mp hadd) with ⟨hr, _, rfl⟩
    cases hrest
    exact ⟨hr, rfl⟩
  · rintro ⟨hr, rfl⟩
    exact ⟨_, _, perform_step_ok_iff.mpr
      (Model.perform_addConstraint_ok_iff.mpr ⟨hr, rfl, rfl⟩), rfl⟩

/-- Steps that submit one row each, under a condition of their own, are accepted
    exactly if all conditions hold and all variables are known. -/
theorem perform_forM_row_ok_iff {β : Type} {act : β → BuildM Rat Unit} {c : β → Prop}
    {f : β → Row}
    (hact : ∀ b m m', perform (act b) m = (.ok ⟨⟩, m') ↔
      c b ∧ (f b).IsKnown m ∧ m' = m.withRow (f b))
    {bs : List β} {m m' : Model Rat} :
    perform (bs.forM act) m = (.ok ⟨⟩, m') ↔
      (∀ b ∈ bs, c b ∧ (f b).IsKnown m) ∧ m' = m.withRows (bs.map f) := by
  induction bs generalizing m with
  | nil =>
      constructor
      · intro h
        cases h
        exact ⟨fun b hb => absurd hb List.not_mem_nil, rfl⟩
      · rintro ⟨_, rfl⟩
        rfl
  | cons b bs ih =>
      rw [perform_forM_cons_ok_iff, List.forall_mem_cons]
      constructor
      · rintro ⟨t, hfirst, hrest⟩
        rcases (hact b m t).mp hfirst with ⟨hc, hb, rfl⟩
        rcases ih.mp hrest with ⟨hbs, rfl⟩
        exact ⟨⟨⟨hc, hb⟩, hbs⟩, rfl⟩
      · rintro ⟨⟨⟨hc, hb⟩, hbs⟩, rfl⟩
        exact ⟨_, (hact b m _).mpr ⟨hc, hb, rfl⟩, ih.mpr ⟨hbs, rfl⟩⟩

/-- A list of rows is accepted exactly if all of their variables are known. -/
theorem perform_forM_addRow_ok_iff {β : Type} {f : β → Row} {bs : List β}
    {m m' : Model Rat} :
    perform (bs.forM fun b => addRow (f b)) m = (.ok ⟨⟩, m') ↔
      (∀ b ∈ bs, (f b).IsKnown m) ∧ m' = m.withRows (bs.map f) := by
  rw [perform_forM_row_ok_iff (c := fun _ => True) fun b m m' => by
    rw [true_and, perform_addRow_ok_iff]]
  simp only [true_and]

end BuildM

end CyclePlan
