import Mathlib.Algebra.BigOperators.Group.List.Basic
import Mathlib.Tactic.Linarith
import Mathlib.Tactic.Ring
import CyclePlan.Lp.Assignment
import CyclePlan.Proofs.Lp.Operations
import CyclePlan.Scalar.Rational

/-!
# Models Read by Name

Exact rational models, described by the names of their variables.

A model is built by name and stored by number: the terms of a constraint are
looked up, merged and sorted when it is added. Statements about what a model
asks for are about names again, so this module undoes the storing once. A
`Row` is a constraint as it was submitted, and `Model.Consists` says that a
model's live constraints are those that a list of rows was stored as. Its
points are then exactly the assignments that keep the bounds and satisfy the
rows (`Consists.isPoint_iff`).

Rows survive growth. A variable that is added later gets a higher number, so a
row whose variables were known before is stored the same way as before
(`stored_of_isPrefix`), and a description can be extended step by step.

## Main definitions

* `Model.indexOf`, `Model.valueOf`: Variables by name.
* `Model.assign`: The assignment that gives every name a value.
* `Row`, `Row.Holds`: A constraint over names.
* `Model.merge`, `Model.stored`: What terms and rows are stored as.
* `Model.Consists`: A model's constraints are those of a list of rows.

## Theorems

* `Model.evaluate_merge`: Merging terms keeps their value.
* `Model.collect_eq_ok_iff`: When named terms are accepted.
* `Model.valueOf_of_isPrefix`: Growth does not move known variables.
* `Model.Consists.isPoint_iff`: The points of a described model.
* `Model.Consists.isPoint_assign_iff`: The same for values given by name.
-/

namespace CyclePlan

/-- A constraint as it is submitted, over the names of variables. -/
structure Row where
  /-- The names with their coefficients, possibly repeated. -/
  terms : List (String × Rat)
  relation : Relation
  rhs : Rat

namespace Row

/-- The sum of the terms when every name has a value. -/
def sum (terms : List (String × Rat)) (y : String → Rat) : Rat :=
  (terms.map fun t => t.2 * y t.1).sum

/-- The row is satisfied when every name has a value. -/
def Holds (r : Row) (y : String → Rat) : Prop := r.relation.Holds (sum r.terms y) r.rhs

end Row

namespace Model

variable (m : Model Rat)

/-- The number of the variable of that name; past the last one if there is
    none. -/
def indexOf (name : String) : Nat := m.vars.findIdx fun v => v.name == name

/-- The value that an assignment gives to the variable of that name. -/
def valueOf (x : Nat → Rat) (name : String) : Rat := x (m.indexOf name)

theorem variableId?_of_knows {name : String} (h : m.Knows name) :
    m.variableId? name = some (m.indexOf name) := by
  rcases Option.isSome_iff_exists.mp ((m.knows_iff_isSome name).mp h) with ⟨i, hi⟩
  rw [hi, indexOf, (List.findIdx?_eq_some_iff_findIdx_eq.mp hi).2]

/-- Names are distinct, so the variable at a position is the one that its name
    leads to. -/
theorem indexOf_of_getElem? {i : Nat} {v : Variable Rat} (h : m.vars[i]? = some v) :
    m.indexOf v.name = i := by
  rcases List.getElem?_eq_some_iff.mp h with ⟨hlt, hget⟩
  rw [indexOf, List.findIdx_eq hlt]
  refine ⟨by rw [hget]; exact beq_self_eq_true _, fun j hji => ?_⟩
  -- An earlier variable has another name.
  have hnodup := m.distinct
  rw [List.Nodup, List.pairwise_iff_getElem] at hnodup
  have hne := hnodup j i (by rw [List.length_map]; omega) (by rw [List.length_map]; omega) hji
  rw [List.getElem_map, List.getElem_map, hget] at hne
  exact beq_eq_false_iff_ne.mpr hne

theorem getElem?_indexOf {name : String} (h : m.Knows name) :
    ∃ v, m.vars[m.indexOf name]? = some v ∧ v.name = name := by
  rcases h with ⟨v, hv, hname⟩
  rcases List.mem_iff_getElem?.mp hv with ⟨i, hi⟩
  refine ⟨v, ?_, hname⟩
  rw [← hname, m.indexOf_of_getElem? hi, hi]

theorem indexOf_of_isPrefix {m m' : Model Rat} (h : m.vars <+: m'.vars) {name : String}
    (hk : m.Knows name) : m'.indexOf name = m.indexOf name := by
  have hlt : m.indexOf name < m.vars.length := by
    rcases m.getElem?_indexOf hk with ⟨v, hv, _⟩
    exact (List.getElem?_eq_some_iff.mp hv).1
  exact h.findIdx_eq_of_findIdx_lt_length hlt

/-- Growth does not move the variables that were known before. -/
theorem valueOf_of_isPrefix {m m' : Model Rat} (h : m.vars <+: m'.vars) {name : String}
    (hk : m.Knows name) (x : Nat → Rat) : m'.valueOf x name = m.valueOf x name := by
  rw [valueOf, valueOf, indexOf_of_isPrefix h hk]

/-! ### Merging terms -/

/-- The terms that named terms are stored as. -/
def merge (named : List (String × Rat)) : List (Nat × Rat) :=
  (named.foldl (fun terms t => addTerm (m.indexOf t.1) t.2 terms) []).filter fun t => t.2 != 0

theorem evaluate_nil (x : Nat → Rat) : evaluate ([] : List (Nat × Rat)) x = 0 := rfl

theorem evaluate_eq_sum (terms : List (Nat × Rat)) (x : Nat → Rat) :
    evaluate terms x = (terms.map fun t => t.2 * x t.1).sum := by
  rw [evaluate, Scalar.sum, List.sum_eq_foldl]

theorem evaluate_cons (t : Nat × Rat) (terms : List (Nat × Rat)) (x : Nat → Rat) :
    evaluate (t :: terms) x = t.2 * x t.1 + evaluate terms x := by
  rw [evaluate_eq_sum, evaluate_eq_sum, List.map_cons, List.sum_cons]

theorem evaluate_addTerm (v : Nat) (c : Rat) (terms : List (Nat × Rat)) (x : Nat → Rat) :
    evaluate (addTerm v c terms) x = c * x v + evaluate terms x := by
  induction terms with
  | nil => rw [addTerm, evaluate_cons]
  | cons t rest ih =>
      simp only [addTerm]
      split
      · next h =>
        rw [evaluate_cons, evaluate_cons, h]
        ring
      · split
        · rw [evaluate_cons]
        · rw [evaluate_cons, evaluate_cons, ih]
          ring

theorem evaluate_filter_ne_zero (terms : List (Nat × Rat)) (x : Nat → Rat) :
    evaluate (terms.filter fun t => t.2 != 0) x = evaluate terms x := by
  induction terms with
  | nil => rfl
  | cons t rest ih =>
      rw [List.filter_cons]
      split
      · rw [evaluate_cons, evaluate_cons, ih]
      · next h =>
        have hzero : t.2 = 0 := by simpa using h
        rw [evaluate_cons, ih, hzero, zero_mul, zero_add]

/-- Merging terms keeps their value. -/
theorem evaluate_merge (named : List (String × Rat)) (x : Nat → Rat) :
    evaluate (m.merge named) x = Row.sum named (m.valueOf x) := by
  -- Folding starts from any terms, whose value is added.
  have hfold : ∀ (named : List (String × Rat)) (terms : List (Nat × Rat)),
      evaluate (named.foldl (fun terms t => addTerm (m.indexOf t.1) t.2 terms) terms) x
        = evaluate terms x + Row.sum named (m.valueOf x) := by
    intro named
    induction named with
    | nil =>
        intro terms
        simp only [List.foldl_nil, Row.sum, List.map_nil, List.sum_nil, add_zero]
    | cons t rest ih =>
        intro terms
        rw [List.foldl_cons, ih, evaluate_addTerm]
        simp only [Row.sum, List.map_cons, List.sum_cons, valueOf]
        ring
  rw [merge, evaluate_filter_ne_zero, hfold, evaluate_nil, zero_add]

theorem collectTerm_of_knows {t : String × Rat} (h : m.Knows t.1) (terms : List (Nat × Rat)) :
    m.collectTerm terms t = .ok (addTerm (m.indexOf t.1) t.2 terms) := by
  rw [collectTerm, m.variableId?_of_knows h]
  rfl

theorem collectTerm_of_not_knows {t : String × Rat} (h : ¬ m.Knows t.1)
    (terms : List (Nat × Rat)) : m.collectTerm terms t = .error (.unknownVariable t.1) := by
  rw [collectTerm, m.variableId?_of_not_knows h]

theorem foldlM_collectTerm_eq_ok_iff (named : List (String × Rat))
    (start merged : List (Nat × Rat)) :
    named.foldlM m.collectTerm start = .ok merged ↔ (∀ t ∈ named, m.Knows t.1) ∧
      merged = named.foldl (fun terms t => addTerm (m.indexOf t.1) t.2 terms) start := by
  induction named generalizing start with
  | nil =>
      constructor
      · intro h
        cases h
        exact ⟨fun t ht => absurd ht List.not_mem_nil, rfl⟩
      · rintro ⟨_, rfl⟩
        rfl
  | cons t rest ih =>
      rw [List.foldlM_cons]
      by_cases hk : m.Knows t.1
      · rw [m.collectTerm_of_knows hk, List.foldl_cons, List.forall_mem_cons, and_assoc,
          and_iff_right hk]
        exact ih _
      · rw [m.collectTerm_of_not_knows hk]
        constructor
        · intro h
          cases h
        · rintro ⟨hall, _⟩
          exact absurd (hall t List.mem_cons_self) hk

/-- Named terms are accepted exactly if all of their variables are known. -/
theorem collect_eq_ok_iff {named : List (String × Rat)} {terms : List (Nat × Rat)} :
    m.collect named = .ok terms ↔ (∀ t ∈ named, m.Knows t.1) ∧ terms = m.merge named := by
  rw [collect, merge]
  cases hrun : named.foldlM m.collectTerm [] with
  | error e =>
      constructor
      · intro h
        cases h
      · rintro ⟨hall, _⟩
        rw [(m.foldlM_collectTerm_eq_ok_iff named [] _).mpr ⟨hall, rfl⟩] at hrun
        cases hrun
  | ok merged =>
      rcases (m.foldlM_collectTerm_eq_ok_iff named [] merged).mp hrun with ⟨hall, rfl⟩
      constructor
      · intro h
        cases h
        exact ⟨hall, rfl⟩
      · rintro ⟨_, rfl⟩
        rfl

/-! ### Assignments by name -/

/-- The assignment that gives every variable the value of its name. -/
def assign (y : String → Rat) (i : Nat) : Rat :=
  match m.vars[i]? with
  | some v => y v.name
  | none => 0

theorem valueOf_assign (y : String → Rat) {name : String} (h : m.Knows name) :
    m.valueOf (m.assign y) name = y name := by
  rcases m.getElem?_indexOf h with ⟨v, hv, hname⟩
  rw [valueOf, assign, hv, ← hname]

/-- The bounds are kept by number exactly if they are kept by name. -/
theorem forall_admits_iff (x : Nat → Rat) :
    (∀ (i : Nat) (v : Variable Rat), m.vars[i]? = some v → v.Admits (x i)) ↔
      ∀ v ∈ m.vars, v.Admits (m.valueOf x v.name) := by
  constructor
  · intro h v hv
    rcases List.mem_iff_getElem?.mp hv with ⟨i, hi⟩
    rw [valueOf, m.indexOf_of_getElem? hi]
    exact h i v hi
  · intro h i v hi
    have hadmits := h v (List.mem_of_getElem? hi)
    rwa [valueOf, m.indexOf_of_getElem? hi] at hadmits

theorem isIntegral_iff (x : Nat → Rat) :
    m.IsIntegral x ↔
      ∀ v ∈ m.vars, v.isIntegral = true → ∃ n : Int, m.valueOf x v.name = n := by
  constructor
  · intro h v hv hint
    rcases List.mem_iff_getElem?.mp hv with ⟨i, hi⟩
    rw [valueOf, m.indexOf_of_getElem? hi]
    exact h i v hi hint
  · intro h i v hi hint
    have hwhole := h v (List.mem_of_getElem? hi) hint
    rwa [valueOf, m.indexOf_of_getElem? hi] at hwhole

/-! ### Stored rows -/

/-- What a row is stored as. -/
def stored (r : Row) : Constraint Rat := ⟨m.merge r.terms, r.relation, r.rhs⟩

theorem stored_holds_iff (r : Row) (x : Nat → Rat) :
    (m.stored r).Holds x ↔ r.Holds (m.valueOf x) := by
  rw [Constraint.Holds, stored, m.evaluate_merge, Row.Holds]

end Model

/-- All variables of a row are known to a model. -/
def Row.IsKnown (r : Row) (m : Model Rat) : Prop := ∀ t ∈ r.terms, m.Knows t.1

theorem Row.sum_congr {terms : List (String × Rat)} {y z : String → Rat}
    (h : ∀ t ∈ terms, y t.1 = z t.1) : Row.sum terms y = Row.sum terms z := by
  rw [Row.sum, Row.sum, List.map_congr_left fun t ht => by rw [h t ht]]

theorem Row.holds_congr {r : Row} {y z : String → Rat} (h : ∀ t ∈ r.terms, y t.1 = z t.1) :
    r.Holds y ↔ r.Holds z := by
  rw [Row.Holds, Row.Holds, Row.sum_congr h]

theorem Row.IsKnown.of_isPrefix {r : Row} {m m' : Model Rat} (h : m.vars <+: m'.vars)
    (hk : r.IsKnown m) : r.IsKnown m' := fun t ht => (hk t ht).of_isPrefix h

namespace Model

/-- Growth does not change what a known row is stored as. -/
theorem stored_of_isPrefix {m m' : Model Rat} (h : m.vars <+: m'.vars) {r : Row}
    (hk : r.IsKnown m) : m'.stored r = m.stored r := by
  -- Both sides look up the same numbers on the way.
  have hfold : ∀ (named : List (String × Rat)) (start : List (Nat × Rat)),
      (∀ t ∈ named, m.Knows t.1) →
      named.foldl (fun terms t => addTerm (m'.indexOf t.1) t.2 terms) start
        = named.foldl (fun terms t => addTerm (m.indexOf t.1) t.2 terms) start := by
    intro named
    induction named with
    | nil =>
        intro start _
        rfl
    | cons t rest ih =>
        intro start hall
        rw [List.foldl_cons, List.foldl_cons, indexOf_of_isPrefix h (hall t List.mem_cons_self)]
        exact ih _ fun u hu => hall u (List.mem_cons_of_mem _ hu)
  rw [stored, stored, merge, merge, hfold r.terms [] hk]

/-- The live constraints of a model are what the rows of a list were stored
    as. -/
structure Consists (m : Model Rat) (rows : List Row) : Prop where
  known : ∀ r ∈ rows, r.IsKnown m
  /-- The constraints are the stored rows, in order. -/
  stored : m.constraints.map (·.2) = rows.map m.stored

namespace Consists

variable {m : Model Rat} {rows : List Row}

/-- The constraints of a described model hold exactly where its rows do. -/
theorem meets_iff (h : m.Consists rows) (x : Nat → Rat) :
    (∀ c ∈ m.constraints, c.2.Holds x) ↔ ∀ r ∈ rows, r.Holds (m.valueOf x) := by
  constructor
  · intro hall r hr
    have hmem : m.stored r ∈ m.constraints.map (·.2) := by
      rw [h.stored]
      exact List.mem_map_of_mem hr
    rcases List.mem_map.mp hmem with ⟨c, hc, heq⟩
    rw [← m.stored_holds_iff, ← heq]
    exact hall c hc
  · intro hall c hc
    have hmem : c.2 ∈ rows.map m.stored := by
      rw [← h.stored]
      exact List.mem_map_of_mem hc
    rcases List.mem_map.mp hmem with ⟨r, hr, heq⟩
    rw [← heq, m.stored_holds_iff]
    exact hall r hr

/-- The points of a described model: the bounds are kept and the rows hold. -/
theorem isPoint_iff (h : m.Consists rows) (x : Nat → Rat) :
    m.IsPoint x ↔
      (∀ v ∈ m.vars, v.Admits (m.valueOf x v.name)) ∧ ∀ r ∈ rows, r.Holds (m.valueOf x) := by
  rw [← h.meets_iff, ← m.forall_admits_iff]
  exact ⟨fun hx => ⟨hx.admits, hx.meets⟩, fun hx => ⟨hx.1, hx.2⟩⟩

/-- The same for the assignment that values by name give. -/
theorem isPoint_assign_iff (h : m.Consists rows) (y : String → Rat) :
    m.IsPoint (m.assign y) ↔ (∀ v ∈ m.vars, v.Admits (y v.name)) ∧ ∀ r ∈ rows, r.Holds y := by
  rw [h.isPoint_iff]
  refine and_congr (forall₂_congr fun v hv => ?_) (forall₂_congr fun r hr => ?_)
  · rw [m.valueOf_assign y ⟨v, hv, rfl⟩]
  · exact Row.holds_congr fun t ht => m.valueOf_assign y (h.known r hr t ht)

end Consists

end Model

end CyclePlan
