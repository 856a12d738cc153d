import CyclePlan.Proofs.Lp.Rows

/-!
# An Exact Solver

A solver that is right about every model.

Sound and exact solvers are hypotheses of what follows, so there had better be
some. The oracle answers with an optimum wherever there is one, with any
integral point where there are points but no optimum, and otherwise denies. It
is sound, exact and keeps to the variables (`oracle_sound`, `oracle_exact`,
`oracle_keepsToVariables`), and it cannot be run.

Soundness leaves room for values under names that no variable has. `withExtra`
uses that room and stays sound. Neither soundness nor exactness says anything about
the objective value that comes with an answer; `reportingOracle` also gives that.

## Main definitions

* `Model.listed`: The values of an assignment, under the names of the variables.
* `oracle`: The solver.
* `Solver.withExtra`: A solver that also answers what it was not asked.
* `Solver.ReportsObjective`: The objective value is that of the assignment.
* `reportingOracle`: The oracle, with objective values.
-/

namespace CyclePlan

namespace Model

/-- The values of an assignment, under the names of the variables. -/
def listed (m : Model Rat) (x : Nat → Rat) : List (String × Rat) :=
  m.vars.map fun v => (v.name, m.valueOf x v.name)

theorem find?_map {f : String → Rat} {names : List String} {name : String} :
    NameMap.find? name (names.map fun n => (n, f n)) =
      if name ∈ names then some (f name) else none := by
  induction names with
  | nil => rfl
  | cons n names ih =>
      rw [List.map_cons, NameMap.find?, ih]
      by_cases h : n = name
      · rw [if_pos h, if_pos (by rw [h]; exact List.mem_cons_self), h]
      · have hiff : name ∈ n :: names ↔ name ∈ names := by
          rw [List.mem_cons]
          exact or_iff_right (Ne.symm h)
        rw [if_neg h]
        simp only [hiff]

theorem find?_listed (m : Model Rat) (x : Nat → Rat) (name : String) :
    NameMap.find? name (m.listed x) =
      if name ∈ m.vars.map (·.name) then some (m.valueOf x name) else none := by
  rw [← find?_map, List.map_map]
  rfl

/-- A listed assignment is carried. -/
theorem carries_of_listed {m : Model Rat} {x : Nat → Rat} {s : Solution Rat}
    (h : s.values = m.listed x) : s.Carries m x := by
  intro i v hv
  have hmem : v.name ∈ m.vars.map (·.name) := List.mem_map_of_mem (List.mem_of_getElem? hv)
  rw [Solution.value?, h, find?_listed, if_pos hmem, valueOf, m.indexOf_of_getElem? hv]

theorem exists_var_of_listed {m : Model Rat} {x : Nat → Rat} {s : Solution Rat}
    (h : s.values = m.listed x) {name : String} (hname : (s.value? name).isSome) :
    ∃ v ∈ m.vars, v.name = name := by
  rw [Solution.value?, h, find?_listed] at hname
  split at hname
  · next hmem => exact List.mem_map.mp hmem
  · cases hname

end Model

open Classical in
/-- A solver that is right about every model. -/
noncomputable def oracle : Solver Rat := fun _ m =>
  if h : ∃ x, m.IsOptimum x then { status := .optimal, values := m.listed h.choose }
  else if h : ∃ x, m.IsPoint x ∧ m.IsIntegral x then
    { status := .feasible, values := m.listed h.choose }
  else { status := .infeasible }

/-- The three answers of the oracle. -/
theorem oracle_cases (asked : Nat) (m : Model Rat) :
    ((oracle asked m).status = .optimal ∧
      ∃ x, (oracle asked m).values = m.listed x ∧ m.IsOptimum x) ∨
    ((oracle asked m).status = .feasible ∧ (¬ ∃ x, m.IsOptimum x) ∧
      ∃ x, (oracle asked m).values = m.listed x ∧ m.IsPoint x ∧ m.IsIntegral x) ∨
    (oracle asked m = { status := .infeasible } ∧ ¬ ∃ x, m.IsPoint x ∧ m.IsIntegral x) := by
  by_cases hopt : ∃ x, m.IsOptimum x
  · left
    rw [oracle, dif_pos hopt]
    exact ⟨rfl, hopt.choose, rfl, hopt.choose_spec⟩
  · by_cases hpoint : ∃ x, m.IsPoint x ∧ m.IsIntegral x
    · right; left
      rw [oracle, dif_neg hopt, dif_pos hpoint]
      exact ⟨rfl, hopt, hpoint.choose, rfl, hpoint.choose_spec⟩
    · right; right
      rw [oracle, dif_neg hopt, dif_neg hpoint]
      exact ⟨rfl, hpoint⟩

theorem oracle_sound : oracle.Sound := by
  intro asked m h
  rcases oracle_cases asked m with ⟨_, x, hx, hopt⟩ | ⟨_, _, x, hx, hpoint⟩ | ⟨hnone, _⟩
  · exact ⟨x, Model.carries_of_listed hx, hopt.point, hopt.integral⟩
  · exact ⟨x, Model.carries_of_listed hx, hpoint⟩
  · rw [hnone] at h
    cases h

theorem oracle_keepsToVariables : oracle.KeepsToVariables := by
  intro asked m name h
  rcases oracle_cases asked m with ⟨_, x, hx, _⟩ | ⟨_, _, x, hx, _⟩ | ⟨hnone, _⟩
  · exact Model.exists_var_of_listed hx h
  · exact Model.exists_var_of_listed hx h
  · rw [hnone] at h
    cases h

theorem oracle_exact : oracle.Exact := by
  constructor
  · intro asked m hopt
    rcases oracle_cases asked m with ⟨hs, x, hx, hbest⟩ | ⟨_, hnone, _⟩ | ⟨_, hnone⟩
    · exact ⟨hs, x, Model.carries_of_listed hx, hbest⟩
    · exact absurd hopt hnone
    · rcases hopt with ⟨x, hx⟩
      exact absurd ⟨x, hx.point, hx.integral⟩ hnone
  · intro asked m
    rcases oracle_cases asked m with ⟨hs, x, _, hbest⟩ | ⟨hs, _, x, _, hpoint⟩ | ⟨hs, hnone⟩
    · rw [hs]
      exact iff_of_false (by decide) (not_not_intro ⟨x, hbest.point, hbest.integral⟩)
    · rw [hs]
      exact iff_of_false (by decide) (not_not_intro ⟨x, hpoint⟩)
    · rw [hs]
      exact iff_of_true rfl hnone

/-- Where there is an integral point, the oracle gives one. -/
theorem oracle_hasAssignment {m : Model Rat} (h : ∃ x, m.IsPoint x ∧ m.IsIntegral x)
    (asked : Nat) : (oracle asked m).status.hasAssignment = true := by
  rcases oracle_cases asked m with ⟨hs, _⟩ | ⟨hs, _⟩ | ⟨_, hnone⟩
  · rw [hs]
    rfl
  · rw [hs]
    rfl
  · exact absurd h hnone

/-- A solver that also gives values under names that it was not asked about. -/
def Solver.withExtra (solver : Solver Rat) (extra : List (String × Rat)) : Solver Rat :=
  fun asked m => { solver asked m with values := (solver asked m).values ++ extra }

theorem find?_append {name : String} {xs ys : List (String × Rat)} :
    NameMap.find? name (xs ++ ys) = (NameMap.find? name xs <|> NameMap.find? name ys) := by
  induction xs with
  | nil => rfl
  | cons e xs ih =>
      rw [List.cons_append, NameMap.find?, NameMap.find?]
      split
      · rfl
      · exact ih

/-- What is added comes last, so the values of variables are the same. -/
theorem Solver.Sound.withExtra {solver : Solver Rat} (h : solver.Sound)
    (extra : List (String × Rat)) : (solver.withExtra extra).Sound := by
  intro asked m hstatus
  rcases h asked m hstatus with ⟨x, hcarries, hx⟩
  refine ⟨x, fun i v hv => ?_, hx⟩
  have hvalue : NameMap.find? v.name (solver asked m).values = some (x i) := hcarries i v hv
  rw [Solution.value?, Solver.withExtra, find?_append, hvalue]
  rfl

/-- The objective value that comes with an assignment is the assignment's. -/
def Solver.ReportsObjective (solver : Solver Rat) : Prop :=
  ∀ asked m, (solver asked m).status.hasAssignment = true →
    ∃ x, (solver asked m).Carries m x ∧ (solver asked m).objective = some (m.objectiveValue x)

open Classical in
/-- The oracle, with the objective value of its assignment. -/
noncomputable def reportingOracle : Solver Rat := fun asked m =>
  { oracle asked m with
    objective :=
      if h : (oracle asked m).status.hasAssignment = true then
        some (m.objectiveValue (oracle_sound asked m h).choose)
      else none }

/-- The status and the values are those of the oracle. -/
theorem reportingOracle_exact : reportingOracle.Exact :=
  ⟨oracle_exact.optimal, oracle_exact.infeasible_iff⟩

theorem reportingOracle_reports : reportingOracle.ReportsObjective := by
  intro asked m h
  have hassign : (oracle asked m).status.hasAssignment = true := h
  refine ⟨_, (oracle_sound asked m hassign).choose_spec.1, ?_⟩
  simp only [reportingOracle, hassign, dite_true]

end CyclePlan
