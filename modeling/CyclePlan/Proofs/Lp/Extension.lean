import CyclePlan.Proofs.Lp.Building

/-!
# Extended Models

What more variables and rows make of the points of a model.

A description by rows is available only for a model that was built from nothing.
A borrower gets a model in any state, with constraints of unknown origin, and adds
to it. What can still be said is relative: the points of the larger model are
those points of the smaller one at which the new variables keep their bounds and
the new rows hold (`Appends.isPoint_iff`).

The other direction asks for a point of the larger model to be made from one of the
smaller. `overlay` keeps the numbers of the smaller model and gives every further
variable the value of its name. Constraints mention only variables that are there
(`IsNumbered`), so the smaller model does not see the difference.

## Main definitions

* `Model.Appends`: Further variables and rows, and nothing else.
* `Model.overlay`: An assignment with further values by name.

## Theorems

* `Model.perform_addBinary_ok_iff`: When a binary variable is accepted.
* `Model.Appends.isPoint_iff`, `Model.Appends.isIntegral_iff`: The points of the
  larger model.
* `Model.IsNumbered.isPoint_congr`: Points are decided by the variables there are.
* `Model.Appends.valueOf_overlay_old`, `Model.Appends.valueOf_overlay_new`: The values of
  an overlay.
-/

namespace CyclePlan

namespace Model

variable {m m' m'' : Model Rat} {vars vars' : List (Variable Rat)} {rows rows' : List Row}
  {x s : Nat → Rat} {y : String → Rat} {name : String}

/-- A binary variable is accepted exactly if its name is not taken. -/
theorem perform_addBinary_ok_iff {id : Nat} :
    perform (addVariable name none none .binary) m = (.ok id, m') ↔
      id = m.vars.length ∧ ∃ fresh : m.variableId? name = none,
        m' = m.withVariable ⟨name, .binary, some 0, some 1⟩ fresh := by
  -- A binary variable has these bounds whatever is submitted.
  have hvar : variableOf name none none .binary
      = (⟨name, .binary, some 0, some 1⟩ : Variable Rat) := rfl
  have hbounds : boundsError? name (some 0) (some (1 : Rat)) = none := by
    simp only [boundsError?]
    rfl
  rw [addVariable, perform_bind_of_ok (perform_get m), hvar]
  by_cases fresh : m.variableId? name = none
  · simp only [fresh, dite_true, hbounds]
    constructor
    · intro heq
      cases heq
      exact ⟨rfl, trivial, rfl⟩
    · rintro ⟨rfl, _, rfl⟩
      rfl
  · simp only [fresh, dite_false]
    constructor
    · intro heq
      cases heq
    · rintro ⟨_, hfresh, _⟩
      exact hfresh.elim

/-! ### Additions -/

/-- A model has got further variables and rows, and nothing else. -/
structure Appends (m m' : Model Rat) (vars : List (Variable Rat)) (rows : List Row) : Prop where
  vars : m'.vars = m.vars ++ vars
  known : ∀ r ∈ rows, r.IsKnown m'
  constraints : m'.constraints.map (·.2) = m.constraints.map (·.2) ++ rows.map m'.stored
  objective : m'.objective = m.objective

namespace Appends

theorem refl (m : Model Rat) : m.Appends m [] [] := by
  refine ⟨?_, fun r hr => absurd hr List.not_mem_nil, ?_, rfl⟩
  · rw [List.append_nil]
  · rw [List.map_nil, List.append_nil]

theorem isPrefix (h : m.Appends m' vars rows) : m.vars <+: m'.vars := ⟨vars, h.vars.symm⟩

theorem trans (h : m.Appends m' vars rows) (h' : m'.Appends m'' vars' rows') :
    m.Appends m'' (vars ++ vars') (rows ++ rows') := by
  refine ⟨?_, List.forall_mem_append.mpr ⟨fun r hr => ?_, h'.known⟩, ?_,
    h'.objective.trans h.objective⟩
  · rw [h'.vars, h.vars, List.append_assoc]
  · exact (h.known r hr).of_isPrefix h'.isPrefix
  · -- The rows that came first are still stored the same way.
    have hstored : rows.map m''.stored = rows.map m'.stored :=
      List.map_congr_left fun r hr => stored_of_isPrefix h'.isPrefix (h.known r hr)
    rw [h'.constraints, h.constraints, List.map_append, hstored, List.append_assoc]

theorem withVariable (m : Model Rat) (v : Variable Rat) (fresh : m.variableId? v.name = none) :
    m.Appends (m.withVariable v fresh) [v] [] := by
  refine ⟨rfl, fun r hr => absurd hr List.not_mem_nil, ?_, rfl⟩
  rw [List.map_nil, List.append_nil]
  rfl

theorem withRow {r : Row} (hr : r.IsKnown m) : m.Appends (m.withRow r) [] [r] := by
  refine ⟨(List.append_nil _).symm, List.forall_mem_singleton.mpr hr, ?_, rfl⟩
  rw [Model.withRow, List.map_append]
  rfl

/-- The points of the larger model. -/
theorem isPoint_iff (h : m.Appends m' vars rows) (x : Nat → Rat) :
    m'.IsPoint x ↔ m.IsPoint x ∧ (∀ w ∈ vars, w.Admits (m'.valueOf x w.name)) ∧
      ∀ r ∈ rows, r.Holds (m'.valueOf x) := by
  -- Variables that were there have the same values in both models.
  have hadmits : (∀ w ∈ m'.vars, w.Admits (m'.valueOf x w.name)) ↔
      (∀ w ∈ m.vars, w.Admits (m.valueOf x w.name)) ∧
        ∀ w ∈ vars, w.Admits (m'.valueOf x w.name) := by
    rw [h.vars, List.forall_mem_append]
    refine and_congr_left fun _ => forall₂_congr fun w hw => ?_
    rw [valueOf_of_isPrefix h.isPrefix ⟨w, hw, rfl⟩]
  have hmeets : (∀ c ∈ m'.constraints, c.2.Holds x) ↔
      (∀ c ∈ m.constraints, c.2.Holds x) ∧ ∀ r ∈ rows, r.Holds (m'.valueOf x) := by
    have hall : ∀ n : Model Rat, (∀ c ∈ n.constraints, c.2.Holds x) ↔
        ∀ c ∈ n.constraints.map (·.2), c.Holds x := fun n =>
      (List.forall_mem_map (P := fun c : Constraint Rat => c.Holds x)).symm
    rw [hall, hall, h.constraints, List.forall_mem_append, List.forall_mem_map (l := rows)]
    exact and_congr_right fun _ => forall₂_congr fun r _ => m'.stored_holds_iff r x
  constructor
  · intro hx
    rcases hadmits.mp ((m'.forall_admits_iff x).mp hx.admits) with ⟨hold, hnew⟩
    rcases hmeets.mp hx.meets with ⟨hbefore, hrows⟩
    exact ⟨⟨(m.forall_admits_iff x).mpr hold, hbefore⟩, hnew, hrows⟩
  · rintro ⟨hx, hnew, hrows⟩
    have hold := (m.forall_admits_iff x).mp hx.admits
    exact ⟨(m'.forall_admits_iff x).mpr (hadmits.mpr ⟨hold, hnew⟩), hmeets.mpr ⟨hx.meets, hrows⟩⟩

theorem isIntegral_iff (h : m.Appends m' vars rows) (x : Nat → Rat) :
    m'.IsIntegral x ↔ m.IsIntegral x ∧
      ∀ w ∈ vars, w.isIntegral = true → ∃ n : Int, m'.valueOf x w.name = n := by
  rw [m'.isIntegral_iff, m.isIntegral_iff, h.vars, List.forall_mem_append]
  refine and_congr_left fun _ => forall₂_congr fun w hw => ?_
  rw [valueOf_of_isPrefix h.isPrefix ⟨w, hw, rfl⟩]

theorem objectiveValue (h : m.Appends m' vars rows) (x : Nat → Rat) :
    m'.objectiveValue x = m.objectiveValue x := by
  rw [Model.objectiveValue, h.objective]
  rfl

end Appends

/-! ### Assignments that agree -/

theorem evaluate_congr {terms : List (Nat × Rat)} (h : ∀ t ∈ terms, x t.1 = s t.1) :
    evaluate terms x = evaluate terms s := by
  rw [evaluate_eq_sum, evaluate_eq_sum, List.map_congr_left fun t ht => by rw [h t ht]]

theorem valueOf_congr (h : ∀ i < m.vars.length, x i = s i) (hk : m.Knows name) :
    m.valueOf x name = m.valueOf s name :=
  h _ (lt_of_variableId? (m.variableId?_of_knows hk))

/-- Whether an assignment is a point is decided by the variables there are. -/
theorem IsNumbered.isPoint_congr (hm : m.IsNumbered) (h : ∀ i < m.vars.length, x i = s i) :
    m.IsPoint x ↔ m.IsPoint s := by
  have hholds : ∀ c ∈ m.constraints, c.2.Holds x ↔ c.2.Holds s := by
    intro c hc
    rw [Constraint.Holds, Constraint.Holds, evaluate_congr fun t ht => h _ (hm.terms c hc t ht)]
  constructor
  · intro hx
    refine ⟨fun i v hv => ?_, fun c hc => (hholds c hc).mp (hx.meets c hc)⟩
    rw [← h i (List.getElem?_eq_some_iff.mp hv).1]
    exact hx.admits i v hv
  · intro hs
    refine ⟨fun i v hv => ?_, fun c hc => (hholds c hc).mpr (hs.meets c hc)⟩
    rw [h i (List.getElem?_eq_some_iff.mp hv).1]
    exact hs.admits i v hv

theorem isIntegral_congr (h : ∀ i < m.vars.length, x i = s i) :
    m.IsIntegral x ↔ m.IsIntegral s := by
  refine forall₂_congr fun i v => forall_congr' fun hv => ?_
  rw [h i (List.getElem?_eq_some_iff.mp hv).1]

/-- The values of an assignment for the variables of a model, and values by name for
    the further variables of a larger one. -/
def overlay (m m' : Model Rat) (s : Nat → Rat) (y : String → Rat) (i : Nat) : Rat :=
  if i < m.vars.length then s i else m'.assign y i

theorem overlay_of_lt (m' : Model Rat) (s : Nat → Rat) (y : String → Rat) {i : Nat}
    (hi : i < m.vars.length) : m.overlay m' s y i = s i := if_pos hi

theorem Appends.valueOf_overlay_old (h : m.Appends m' vars rows) (hk : m.Knows name) :
    m'.valueOf (m.overlay m' s y) name = m.valueOf s name := by
  rw [valueOf_of_isPrefix h.isPrefix hk]
  exact valueOf_congr (fun _ hi => overlay_of_lt m' s y hi) hk

/-- A variable that is new has the value of its name. -/
theorem Appends.valueOf_overlay_new (h : m.Appends m' vars rows) {w : Variable Rat}
    (hw : w ∈ vars) : m'.valueOf (m.overlay m' s y) w.name = y w.name := by
  rcases List.mem_iff_getElem?.mp hw with ⟨j, hj⟩
  have hat : m'.vars[m.vars.length + j]? = some w := by
    rw [h.vars, List.getElem?_append_right (Nat.le_add_right _ _), Nat.add_sub_cancel_left, hj]
  rw [valueOf, m'.indexOf_of_getElem? hat, overlay,
    if_neg (Nat.not_lt.mpr (Nat.le_add_right _ _)), assign, hat]

end Model

end CyclePlan
