import CyclePlan.Proofs.Lp.Building

/-!
# Programs

A model as it is meant: variables, rows and a goal, all by name.

What a timing model asks for can be said without any numbers of variables, and
that is what is reasoned about. A `Program` is the saying; `Model.Renders`
ties it to a model that was built. The tie is strong enough in both directions:
integral points of the model, read by name, are the solutions of the
program, and a solution of the program, written by number, is an
integral point (`Renders.isSolution_iff`, `Renders.assign_isPoint`). Optima
follow, since the objective has the same value on both sides.

Models grow while they are built. `GrowsBy` records what a stretch of building
has added, and it composes.

## Main definitions

* `Program`, `Program.IsSolution`, `Program.IsBest`: A model by
  name, and what satisfies it.
* `Model.Renders`: A model is what a program says.
* `Model.GrowsBy`: What has been added to a model.

## Theorems

* `Model.Renders.isSolution_iff`: Integral points are solutions.
* `Model.Renders.feasible_iff`, `Model.Renders.isOptimum_iff`,
  `Model.Renders.exists_isOptimum_iff`: Feasibility and optima agree.
* `Model.GrowsBy.trans`: Additions compose.
* `BuildM.addRow_growsBy`, `BuildM.addVariable_growsBy`: Single additions.
-/

namespace CyclePlan

/-- Variables, rows and a sum that is to be small, all by name. -/
structure Program where
  vars : List (Variable Rat)
  rows : List Row
  /-- The terms whose sum is to be small. -/
  goal : List (String × Rat)

namespace Program

/-- Values by name satisfy a program. -/
structure IsSolution (f : Program) (y : String → Rat) : Prop where
  admits : ∀ v ∈ f.vars, v.Admits (y v.name)
  meets : ∀ r ∈ f.rows, r.Holds y
  integral : ∀ v ∈ f.vars, v.isIntegral = true → ∃ n : Int, y v.name = n

/-- A solution than which no other has a smaller sum. -/
structure IsBest (f : Program) (y : String → Rat) : Prop where
  solution : f.IsSolution y
  least : ∀ z, f.IsSolution z → Row.sum f.goal y ≤ Row.sum f.goal z

end Program

namespace Model

/-- A model is what a program says. -/
structure Renders (m : Model Rat) (f : Program) : Prop where
  vars : m.vars = f.vars
  consists : m.Consists f.rows
  direction : m.objective.direction = .minimize
  known : ∀ t ∈ f.goal, m.Knows t.1
  value : ∀ x, m.objectiveValue x = Row.sum f.goal (m.valueOf x)

namespace Renders

variable {m : Model Rat} {f : Program}

/-- Read by name, the integral points are the solutions. -/
theorem isSolution_iff (h : m.Renders f) (x : Nat → Rat) :
    (m.IsPoint x ∧ m.IsIntegral x) ↔ f.IsSolution (m.valueOf x) := by
  rw [h.consists.isPoint_iff, m.isIntegral_iff, h.vars]
  constructor
  · rintro ⟨⟨hadmits, hmeets⟩, hintegral⟩
    exact ⟨hadmits, hmeets, hintegral⟩
  · intro hy
    exact ⟨⟨hy.admits, hy.meets⟩, hy.integral⟩

/-- Written by number, a solution is an integral point. -/
theorem assign_isPoint (h : m.Renders f) {y : String → Rat} (hy : f.IsSolution y) :
    m.IsPoint (m.assign y) ∧ m.IsIntegral (m.assign y) := by
  have hvalue : ∀ v ∈ m.vars, m.valueOf (m.assign y) v.name = y v.name :=
    fun v hv => m.valueOf_assign y ⟨v, hv, rfl⟩
  refine ⟨(h.consists.isPoint_assign_iff y).mpr ⟨?_, hy.meets⟩, (m.isIntegral_iff _).mpr ?_⟩
  · rw [h.vars]
    exact hy.admits
  · intro v hv hint
    rw [hvalue v hv]
    exact hy.integral v (h.vars ▸ hv) hint

/-- There is an integral point exactly if there is a solution. -/
theorem feasible_iff (h : m.Renders f) :
    (∃ x, m.IsPoint x ∧ m.IsIntegral x) ↔ ∃ y, f.IsSolution y := by
  constructor
  · rintro ⟨x, hx⟩
    exact ⟨_, (h.isSolution_iff x).mp hx⟩
  · rintro ⟨y, hy⟩
    exact ⟨_, h.assign_isPoint hy⟩

theorem value_assign (h : m.Renders f) (y : String → Rat) :
    m.objectiveValue (m.assign y) = Row.sum f.goal y := by
  rw [h.value]
  exact Row.sum_congr fun t ht => m.valueOf_assign y (h.known t ht)

/-- Read by name, the optima are the best solutions. -/
theorem isOptimum_iff (h : m.Renders f) (x : Nat → Rat) :
    m.IsOptimum x ↔ f.IsBest (m.valueOf x) := by
  constructor
  · intro hx
    refine ⟨(h.isSolution_iff x).mp ⟨hx.point, hx.integral⟩, fun z hz => ?_⟩
    -- Another solution is an integral point as well, and the optimum is no worse.
    rcases h.assign_isPoint hz with ⟨hpoint, hintegral⟩
    have hbest := hx.best _ hpoint hintegral
    rw [h.direction] at hbest
    simp only [h.value_assign] at hbest
    rwa [h.value] at hbest
  · intro hy
    rcases (h.isSolution_iff x).mpr hy.solution with ⟨hpoint, hintegral⟩
    refine ⟨hpoint, hintegral, fun z hz hzint => ?_⟩
    rw [h.direction]
    simp only [h.value]
    exact hy.least _ ((h.isSolution_iff z).mp ⟨hz, hzint⟩)

/-- There is an optimum exactly if there is a best solution. -/
theorem exists_isOptimum_iff (h : m.Renders f) :
    (∃ x, m.IsOptimum x) ↔ ∃ y, f.IsBest y := by
  constructor
  · rintro ⟨x, hx⟩
    exact ⟨_, (h.isOptimum_iff x).mp hx⟩
  · rintro ⟨y, hy⟩
    rcases h.assign_isPoint hy.solution with ⟨hpoint, hintegral⟩
    refine ⟨m.assign y, hpoint, hintegral, fun z hz hzint => ?_⟩
    rw [h.direction]
    simp only [h.value_assign]
    rw [h.value]
    exact hy.least _ ((h.isSolution_iff z).mp ⟨hz, hzint⟩)

end Renders

/-- A model has got further variables and rows. -/
structure GrowsBy (m m' : Model Rat) (vars : List (Variable Rat)) (rows : List Row) : Prop where
  /-- The variables come after those that were there. -/
  vars : m'.vars = m.vars ++ vars
  /-- A description of the model is extended by the rows. -/
  consists : ∀ {known}, m.Consists known → m'.Consists (known ++ rows)

namespace GrowsBy

variable {m m' m'' : Model Rat} {vars vars' : List (Variable Rat)} {rows rows' : List Row}

theorem refl (m : Model Rat) : m.GrowsBy m [] [] := by
  refine ⟨(List.append_nil _).symm, fun h => ?_⟩
  rwa [List.append_nil]

theorem trans (h : m.GrowsBy m' vars rows) (h' : m'.GrowsBy m'' vars' rows') :
    m.GrowsBy m'' (vars ++ vars') (rows ++ rows') := by
  refine ⟨?_, fun hm => ?_⟩
  · rw [h'.vars, h.vars, List.append_assoc]
  · rw [← List.append_assoc]
    exact h'.consists (h.consists hm)

theorem withVariable (m : Model Rat) (v : Variable Rat) (fresh : m.variableId? v.name = none) :
    m.GrowsBy (m.withVariable v fresh) [v] [] := by
  refine ⟨rfl, fun h => ?_⟩
  rw [List.append_nil]
  exact h.withVariable v fresh

theorem withRows {m : Model Rat} (rows : List Row) (h : ∀ r ∈ rows, r.IsKnown m) :
    m.GrowsBy (m.withRows rows) [] rows :=
  ⟨by rw [withRows_vars, List.append_nil], fun hm => hm.withRows h⟩

/-- A goal completes what has grown from nothing to a program. -/
theorem renders {name : String} {goal : List (String × Rat)}
    (h : (named name : Model Rat).GrowsBy m vars rows) (hgoal : ∀ t ∈ goal, m.Knows t.1) :
    (m.withObjective .minimize goal).Renders ⟨vars, rows, goal⟩ := by
  refine ⟨h.vars, (h.consists (Consists.named name)).withObjective _ _, rfl, hgoal, fun x => ?_⟩
  exact m.objectiveValue_withObjective _ _ _

end GrowsBy

end Model

namespace BuildM

/-- A row that is accepted is what the model grows by. -/
theorem addRow_growsBy {r : Row} {m m' : Model Rat} (h : perform (addRow r) m = (.ok ⟨⟩, m')) :
    m.GrowsBy m' [] [r] := by
  rcases perform_addRow_ok_iff.mp h with ⟨hr, rfl⟩
  refine Model.GrowsBy.withRows [r] fun s hs => ?_
  rw [List.mem_singleton.mp hs]
  exact hr

/-- A variable that is accepted is what the model grows by. -/
theorem addVariable_growsBy {name : String} {lower : Rat} {id : Nat} {m m' : Model Rat}
    (h : perform (BuildM.step (Model.addVariable name (some lower) none .integer)) m
      = (.ok id, m')) :
    m.GrowsBy m' [⟨name, .integer, some lower, none⟩] [] := by
  rcases (Model.perform_addVariable_ok_iff (by decide)).mp (perform_step_ok_iff.mp h) with
    ⟨_, fresh, rfl⟩
  exact Model.GrowsBy.withVariable m _ fresh

end BuildM

end CyclePlan
