import CyclePlan.Proofs.Lp.Extension
import CyclePlan.Proofs.Lp.Program

/-!
# Further Rows

What becomes of a model, of its program and of its optima when rows are added.

A borrower that only adds constraints leaves the variables and the objective as they
are. The constraints come after those that were there, under numbers that follow each
other (`withRows_constraints`), and a program that the model was is still a program,
with further rows (`Renders.withRows`).

Rows can take away every optimum, even if they leave points: values can approach a
bound without ever reaching it. They cannot if the objective of an integral point is
always a natural number, since those have a least one wherever there are any
(`exists_isOptimum_of_nat`).

## Main definitions

* `Program.withRows`: A program with further rows.

## Theorems

* `Model.withRows_constraints`, `Model.withRows_edits`, `Model.withRows_appends`: What
  rows add.
* `Model.Renders.withRows`: The program of the larger model.
* `Model.exists_isOptimum_of_nat`: Where there is a point, there is an optimum.
-/

namespace CyclePlan

/-- A program with further rows. -/
def Program.withRows (f : Program) (rows : List Row) : Program :=
  { f with rows := f.rows ++ rows }

theorem Program.isSolution_withRows_iff {f : Program} {rows : List Row} {y : String → Rat} :
    (f.withRows rows).IsSolution y ↔ f.IsSolution y ∧ ∀ r ∈ rows, r.Holds y := by
  constructor
  · intro hy
    rcases List.forall_mem_append.mp hy.meets with ⟨hold, hnew⟩
    exact ⟨⟨hy.admits, hold, hy.integral⟩, hnew⟩
  · rintro ⟨hy, hnew⟩
    exact ⟨hy.admits, List.forall_mem_append.mpr ⟨hy.meets, hnew⟩, hy.integral⟩

theorem Program.withRows_nil (f : Program) : f.withRows [] = f := by
  rw [withRows, List.append_nil]

theorem Program.withRows_append (f : Program) (rows more : List Row) :
    (f.withRows rows).withRows more = f.withRows (rows ++ more) := by
  rw [withRows, withRows, withRows, List.append_assoc]

namespace Model

variable {m : Model Rat} {rows : List Row}

theorem withRows_append (m : Model Rat) (rows more : List Row) :
    m.withRows (rows ++ more) = (m.withRows rows).withRows more := List.foldl_append

theorem withRows_objective (m : Model Rat) (rows : List Row) :
    (m.withRows rows).objective = m.objective := by
  induction rows generalizing m with
  | nil => rfl
  | cons r rows ih => exact ih (m.withRow r)

/-- The rows are stored under numbers that follow each other. -/
theorem withRows_constraints (m : Model Rat) (rows : List Row) :
    (m.withRows rows).constraints = m.constraints ++
      (List.range' (max m.nextConstraint 1) rows.length).zip (rows.map m.stored) := by
  induction rows generalizing m with
  | nil => exact (List.append_nil _).symm
  | cons r rows ih =>
      have hnext : max (m.withRow r).nextConstraint 1 = max m.nextConstraint 1 + 1 :=
        Nat.max_eq_left (Nat.le_add_left _ _)
      rw [List.length_cons, List.range'_succ, List.map_cons, List.zip_cons_cons,
        List.append_cons]
      refine (ih (m.withRow r)).trans ?_
      rw [hnext]
      rfl

theorem withRows_keeps (m : Model Rat) (rows : List Row) : m.Keeps (m.withRows rows) := by
  simp only [Keeps, withRows_vars, List.prefix_rfl]

theorem withRows_valueOf (m : Model Rat) (rows : List Row) :
    (m.withRows rows).valueOf = m.valueOf := by
  induction rows generalizing m with
  | nil => rfl
  | cons r rows ih => exact ih (m.withRow r)

/-- Every row has one of these numbers. -/
theorem exists_number_of_mem {r : Row} (m : Model Rat) (hr : r ∈ rows) :
    ∃ id ∈ List.range' (max m.nextConstraint 1) rows.length,
      (id, m.stored r) ∈ (m.withRows rows).constraints := by
  have hlength : (List.range' (max m.nextConstraint 1) rows.length).length
      = (rows.map m.stored).length := by
    rw [List.length_range', List.length_map]
  have hmem : m.stored r ∈ rows.map m.stored := List.mem_map_of_mem hr
  rw [← List.map_snd_zip (le_of_eq hlength.symm)] at hmem
  rcases List.mem_map.mp hmem with ⟨⟨id, c⟩, hc, rfl⟩
  rw [withRows_constraints]
  exact ⟨id, (List.of_mem_zip hc).1, List.mem_append_right _ hc⟩

/-- Rows that are known may be added. -/
theorem withRows_edits (hknown : ∀ r ∈ rows, r.IsKnown m) : m.Edits (m.withRows rows) := by
  induction rows generalizing m with
  | nil => exact Edits.refl m
  | cons r rows ih =>
      rw [List.forall_mem_cons] at hknown
      have hfirst : m.Edits (m.withRow r) :=
        (addConstraint_edits r.terms r.relation r.rhs).of_perform
          (perform_addConstraint_ok_iff.mpr ⟨hknown.1, rfl, rfl⟩)
      exact Edits.trans _ _ _ hfirst (ih (m := m.withRow r) hknown.2)

theorem withRows_appends (hknown : ∀ r ∈ rows, r.IsKnown m) :
    m.Appends (m.withRows rows) [] rows := by
  have hvars : m.vars <+: (m.withRows rows).vars := m.withRows_keeps rows
  refine ⟨by rw [withRows_vars, List.append_nil], fun r hr => (hknown r hr).of_isPrefix hvars,
    ?_, m.withRows_objective rows⟩
  have hstored : rows.map (m.withRows rows).stored = rows.map m.stored :=
    List.map_congr_left fun r hr => stored_of_isPrefix hvars (hknown r hr)
  rw [hstored, withRows_constraints, List.map_append, List.map_snd_zip]
  rw [List.length_map, List.length_range']

/-- A model with further rows is a program with further rows. -/
theorem Renders.withRows {f : Program} (h : m.Renders f) (hknown : ∀ r ∈ rows, r.IsKnown m) :
    (m.withRows rows).Renders (f.withRows rows) := by
  have happ := withRows_appends hknown
  refine ⟨(m.withRows_vars rows).trans h.vars, h.consists.withRows hknown, ?_, fun t ht => ?_,
    fun x => ?_⟩
  · rw [withRows_objective]
    exact h.direction
  · exact (h.known t ht).of_isPrefix happ.isPrefix
  · rw [happ.objectiveValue, h.value]
    exact Row.sum_congr fun t ht => (valueOf_of_isPrefix happ.isPrefix (h.known t ht) x).symm

/-- If integral points have natural objective values, then one of them is an optimum. -/
theorem exists_isOptimum_of_nat (hdirection : m.objective.direction = .minimize)
    (hnat : ∀ x, m.IsPoint x → m.IsIntegral x → ∃ k : Nat, m.objectiveValue x = k)
    (hsome : ∃ x, m.IsPoint x ∧ m.IsIntegral x) : ∃ x, m.IsOptimum x := by
  have hattained : ∃ k : Nat, ∃ x, (m.IsPoint x ∧ m.IsIntegral x) ∧ m.objectiveValue x = k := by
    rcases hsome with ⟨x, hx⟩
    rcases hnat x hx.1 hx.2 with ⟨k, hk⟩
    exact ⟨k, x, hx, hk⟩
  classical
  rcases Nat.find_spec hattained with ⟨x, hx, hleast⟩
  refine ⟨x, hx.1, hx.2, fun y hy hyint => ?_⟩
  rcases hnat y hy hyint with ⟨k, hk⟩
  have hmin := Nat.find_min' hattained ⟨y, ⟨hy, hyint⟩, hk⟩
  rw [hdirection, hleast, hk]
  exact_mod_cast hmin

end Model

end CyclePlan
