import CyclePlan.Proofs.Simplex.Layout
import CyclePlan.Proofs.Simplex.Pivoting
import CyclePlan.Proofs.Lp.Rows

/-!
# Variables as Columns

What a standard form has to do with the model it stems from.

A variable is an offset plus columns that are not negative, so values of the
columns give values of the variables (`StandardForm.valuesAt`). Whether the
values lie within the bounds is then up to the rows that the bounds add, and
whether they meet the constraints is up to the rows of the constraints
(`StandardForm.admits_ofModel_iff`). Conversely no values within the bounds are
lost (`exists_columns`): no two variables share a column, and the columns of each
can be chosen to give any value within its bounds.

The costs of the second phase are the objective, up to the sign and to a constant
that the offsets make (`StandardForm.exists_costOf_phaseTwoCost`).

## Main definitions

* `Bounds.Admits`: A value lies within bounds.
* `Model.IsPointWithin`: Values lie within bounds and meet all constraints.
* `Reading.read`: The value of a variable that is expressed by columns.
* `StandardForm.valuesAt`: The values of all variables.
* `Direction.sign`: The sign that makes an objective one to be made small.

## Theorems

* `StandardForm.ofModel_isFit`: Standard forms are fit for a first tableau.
* `StandardForm.admits_ofModel_iff`, `StandardForm.exists_admits`: The points of a standard
  form are those of the model.
* `StandardForm.exists_costOf_phaseTwoCost`: The costs are the objective.
-/

namespace CyclePlan

/-- A value lies within bounds. -/
structure Bounds.Admits (b : Bounds Rat) (x : Rat) : Prop where
  above : ∀ l ∈ b.lower, l ≤ x
  below : ∀ u ∈ b.upper, x ≤ u

/-- Values, one for each variable, lie within bounds and meet all constraints. -/
structure Model.IsPointWithin (m : Model Rat) (box : Box Rat) (values : List Rat) : Prop where
  within : List.Forall₂ Bounds.Admits box values
  meets : ∀ c ∈ m.constraints, c.2.Holds fun v => values.getD v 0

/-- The sign that makes an objective one to be made small. -/
def Direction.sign : Direction → Rat
  | minimize => 1
  | maximize => -1

namespace Relation

/-- Only the distance of the two sides matters. -/
theorem holds_congr (r : Relation) {a b a' b' : Rat} (h : a - b = a' - b') :
    r.Holds a b ↔ r.Holds a' b' := by
  cases r with
  | eq => exact sub_eq_zero.symm.trans (h ▸ sub_eq_zero)
  | le => exact sub_nonpos.symm.trans (h ▸ sub_nonpos)
  | ge => exact sub_nonneg.symm.trans (h ▸ sub_nonneg)

theorem holds_swapped (r : Relation) (a b : Rat) : r.swapped.Holds (-a) (-b) ↔ r.Holds a b := by
  cases r with
  | eq => exact neg_inj
  | le => exact neg_le_neg_iff
  | ge => exact neg_le_neg_iff

end Relation

namespace Reading

variable {r : Reading Rat} {y z : Nat → Rat}

/-- The value of a variable that is expressed by columns. -/
def read (r : Reading Rat) (y : Nat → Rat) : Rat :=
  r.offset + (r.columns.map fun p => p.2 * y p.1).sum

theorem read_congr (h : ∀ p ∈ r.columns, y p.1 = z p.1) : r.read y = r.read z := by
  rw [read, read, List.map_congr_left fun p hp => by rw [h p hp]]

theorem read_cons (offset : Rat) (p : Nat × Rat) (y : Nat → Rat) :
    read ⟨offset, [p]⟩ y = offset + p.2 * y p.1 := by
  rw [read, List.map_singleton, List.sum_singleton]

end Reading

namespace Bounds

variable {b : Bounds Rat} {x : Rat} {next : Nat} {y : Nat → Rat}

theorem finite?_rat (bound : Option Rat) : finite? bound = bound := by
  cases bound <;> rfl

/-- A variable with a lower bound is what it exceeds the bound by. -/
theorem reading_of_lower {l : Rat} (hl : b.lower = some l) (next : Nat) :
    b.reading next = ⟨l, [(next, 1)]⟩ := by
  rw [reading, finite?_rat, finite?_rat, hl]

theorem reading_of_upper {u : Rat} (hl : b.lower = none) (hu : b.upper = some u) (next : Nat) :
    b.reading next = ⟨u, [(next, -1)]⟩ := by
  rw [reading, finite?_rat, finite?_rat, hl, hu]

theorem reading_of_free (hl : b.lower = none) (hu : b.upper = none) (next : Nat) :
    b.reading next = ⟨0, [(next, 1), (next + 1, -1)]⟩ := by
  rw [reading, finite?_rat, finite?_rat, hl, hu]

/-- The first column of an expression is the first that is free. -/
theorem head?_reading (b : Bounds Rat) (next : Nat) :
    (b.reading next).columns.head?.map (·.1) = some next := by
  rw [reading]
  split <;> rfl

/-- An expression has the columns from the first that is free on. -/
theorem mem_reading {p : Nat × Rat} (h : p ∈ (b.reading next).columns) :
    next ≤ p.1 ∧ p.1 < next + (b.reading next).columns.length := by
  rw [reading] at h ⊢
  split at h <;> simp only [List.mem_cons, List.not_mem_nil, or_false] at h <;>
    rcases h with rfl | rfl <;> simp

theorem rangeRow?_eq (b : Bounds Rat) (column : Nat) :
    b.rangeRow? column = b.lower.bind fun l => b.upper.bind fun u =>
      some ⟨[(column, 1)], .le, if u - l < 0 then 0 else u - l⟩ := by
  rw [rangeRow?, finite?_rat, finite?_rat]
  rfl

/-- Bounds that are not empty leave room between them. -/
theorem le_of_isEmpty_eq_false (hb : b.isEmpty .exact = false) {l u : Rat} (hl : b.lower = some l)
    (hu : b.upper = some u) : l ≤ u := by
  rw [isEmpty, hl, hu, decide_eq_false_iff_not] at hb
  exact (not_lt.mp hb).trans_eq (add_zero u)

/-- No value lies within empty bounds. -/
theorem not_admits_of_isEmpty (hb : b.isEmpty .exact = true) : ¬ b.Admits x := by
  intro hx
  rw [isEmpty] at hb
  split at hb
  · next l u hl hu =>
    have hlt : u < l := (add_zero u).symm.trans_lt (of_decide_eq_true hb)
    exact absurd ((hx.above l hl).trans (hx.below u hu)) (not_le.mpr hlt)
  · cases hb

/-- A variable lies within its bounds if its column obeys the row of the bounds. -/
theorem admits_read_iff (hb : b.isEmpty .exact = false) (hy : ∀ j, 0 ≤ y j) :
    b.Admits ((b.reading next).read y) ↔ ∀ row ∈ b.rangeRow? next, row.Holds y := by
  cases hl : b.lower with
  | some l =>
      rw [reading_of_lower hl, Reading.read_cons, one_mul, rangeRow?_eq, hl]
      cases hu : b.upper with
      | some u =>
          have hroom := sub_nonneg.mpr (le_of_isEmpty_eq_false hb hl hu)
          have hrow : StandardRow.Holds ⟨[(next, 1)], .le, if u - l < 0 then 0 else u - l⟩ y ↔
              l + y next ≤ u := by
            rw [StandardRow.Holds, StandardRow.sum, List.map_singleton, List.sum_singleton,
              one_mul, if_neg (not_lt.mpr hroom)]
            exact le_sub_iff_add_le'
          refine ⟨fun h row hmem => ?_, fun h => ⟨fun l' hl' => ?_, fun u' hu' => ?_⟩⟩
          · cases hmem
            exact hrow.mpr (h.below u hu)
          · cases hl.symm.trans hl'
            exact le_add_of_nonneg_right (hy next)
          · cases hu.symm.trans hu'
            exact hrow.mp (h _ rfl)
      | none =>
          refine ⟨fun _ row hmem => (by cases hmem), fun _ => ⟨fun l' hl' => ?_, fun u' hu' => ?_⟩⟩
          · cases hl.symm.trans hl'
            exact le_add_of_nonneg_right (hy next)
          · cases hu.symm.trans hu'
  | none =>
      rw [rangeRow?_eq, hl]
      refine ⟨fun _ row hmem => (by cases hmem), fun _ => ⟨fun l' hl' => ?_, fun u' hu' => ?_⟩⟩
      · cases hl.symm.trans hl'
      · rw [reading_of_upper hl hu', Reading.read_cons, neg_one_mul]
        exact add_le_of_nonpos_right (neg_nonpos.mpr (hy next))

/-- Columns can be chosen to give any value within the bounds. -/
theorem exists_read (hx : b.Admits x) (next : Nat) :
    ∃ f : Nat → Rat, (∀ j, 0 ≤ f j) ∧ (b.reading next).read f = x := by
  cases hl : b.lower with
  | some l =>
      refine ⟨fun _ => x - l, fun _ => sub_nonneg.mpr (hx.above l hl), ?_⟩
      rw [reading_of_lower hl, Reading.read_cons, one_mul, add_sub_cancel]
  | none =>
      cases hu : b.upper with
      | some u =>
          refine ⟨fun _ => u - x, fun _ => sub_nonneg.mpr (hx.below u hu), ?_⟩
          rw [reading_of_upper hl hu, Reading.read_cons]
          ring
      | none =>
          refine ⟨fun j => if j = next then x⁺ else x⁻, fun j => ?_, ?_⟩
          · dsimp only
            split
            · exact posPart_nonneg x
            · exact negPart_nonneg x
          · rw [reading_of_free hl hu, Reading.read]
            simp only [List.map_cons, List.map_nil, List.sum_cons, List.sum_nil, if_true,
              if_neg (Nat.succ_ne_self next)]
            rw [one_mul, neg_one_mul, add_zero, zero_add, ← sub_eq_add_neg]
            exact posPart_sub_negPart x

end Bounds

namespace StandardForm

variable {box : Box Rat} {values : List Rat} {y : Nat → Rat}

/-! ### Columns -/

theorem readingsFrom_cons (next : Nat) (b : Bounds Rat) (rest : Box Rat) :
    readingsFrom next (b :: rest)
      = ((b.reading next, b) :: (readingsFrom (next + (b.reading next).columns.length) rest).1,
        (readingsFrom (next + (b.reading next).columns.length) rest).2) := rfl

theorem le_readingsFrom (next : Nat) (box : Box Rat) : next ≤ (readingsFrom next box).2 := by
  induction box generalizing next with
  | nil => exact Nat.le_refl next
  | cons b rest ih => exact (Nat.le_add_right _ _).trans (ih _)

/-- Expressions have the columns from a given one to the first that stays free. -/
theorem mem_readingsFrom {next : Nat} {rb : Reading Rat × Bounds Rat}
    (h : rb ∈ (readingsFrom next box).1) {p : Nat × Rat} (hp : p ∈ rb.1.columns) :
    next ≤ p.1 ∧ p.1 < (readingsFrom next box).2 := by
  induction box generalizing next with
  | nil => exact absurd h List.not_mem_nil
  | cons b rest ih =>
      rw [readingsFrom_cons] at h ⊢
      have hle := le_readingsFrom (next + (b.reading next).columns.length) rest
      rcases List.mem_cons.mp h with rfl | hrest
      · have hown := Bounds.mem_reading hp
        exact ⟨hown.1, hown.2.trans_le hle⟩
      · have hlater := ih hrest
        exact ⟨(Nat.le_add_right _ _).trans hlater.1, hlater.2⟩

/-- Expressions are those of the bounds. -/
theorem exists_reading {next : Nat} {rb : Reading Rat × Bounds Rat}
    (h : rb ∈ (readingsFrom next box).1) : rb.2 ∈ box ∧ ∃ k, rb.1 = rb.2.reading k := by
  induction box generalizing next with
  | nil => exact absurd h List.not_mem_nil
  | cons b rest ih =>
      rw [readingsFrom_cons] at h
      rcases List.mem_cons.mp h with rfl | hrest
      · exact ⟨List.mem_cons_self, next, rfl⟩
      · exact ⟨List.mem_cons_of_mem _ (ih hrest).1, (ih hrest).2⟩

/-- No values within the bounds are lost. -/
theorem exists_columns (h : List.Forall₂ Bounds.Admits box values) (next : Nat) :
    ∃ y : Nat → Rat, (∀ j, 0 ≤ y j) ∧
      (readingsFrom next box).1.map (fun rb => rb.1.read y) = values := by
  induction h generalizing next with
  | nil => exact ⟨0, fun _ => le_refl 0, rfl⟩
  | @cons b x rest others hx _ ih =>
      -- The columns of the first variable come before those of the others.
      let free := next + (b.reading next).columns.length
      rcases Bounds.exists_read hx next with ⟨f, hf, hread⟩
      rcases ih free with ⟨y, hy, hreads⟩
      refine ⟨fun j => if j < free then f j else y j, fun j => ?_, ?_⟩
      · dsimp only
        split
        · exact hf j
        · exact hy j
      · rw [readingsFrom_cons, List.map_cons, ← hread, ← hreads]
        congr 1
        · exact Reading.read_congr fun p hp => if_pos (Bounds.mem_reading hp).2
        · refine List.map_congr_left fun rb hrb => Reading.read_congr fun p hp => ?_
          exact if_neg (not_lt.mpr (mem_readingsFrom hrb hp).1)

/-- The rows that keep columns below the distance of two bounds. -/
def rangeRows (readings : List (Reading Rat × Bounds Rat)) : List (StandardRow Rat) :=
  readings.filterMap fun (r, b) => do b.rangeRow? (← r.columns.head?).1

/-- The variables lie within their bounds if the columns obey the rows of the
    bounds. -/
theorem forall₂_read_iff (hbox : ∀ b ∈ box, b.isEmpty .exact = false) (hy : ∀ j, 0 ≤ y j)
    (next : Nat) :
    List.Forall₂ Bounds.Admits box ((readingsFrom next box).1.map fun rb => rb.1.read y) ↔
      ∀ row ∈ rangeRows (readingsFrom next box).1, row.Holds y := by
  induction box generalizing next with
  | nil => exact ⟨fun _ row h => absurd h List.not_mem_nil, fun _ => .nil⟩
  | cons b rest ih =>
      rcases List.forall_mem_cons.mp hbox with ⟨hb, hrest⟩
      have hhead : ((b.reading next).columns.head?.bind fun p => b.rangeRow? p.1)
          = b.rangeRow? next := by
        rcases Option.map_eq_some_iff.mp (b.head?_reading next) with ⟨p, hp, hnext⟩
        rw [hp, Option.bind_some, hnext]
      have hrows : ∀ row, row ∈ rangeRows (readingsFrom next (b :: rest)).1 ↔
          row ∈ b.rangeRow? next ∨
            row ∈ rangeRows (readingsFrom (next + (b.reading next).columns.length) rest).1 := by
        intro row
        rw [readingsFrom_cons, rangeRows, List.filterMap_cons]
        simp only [Option.bind_eq_bind, hhead]
        cases b.rangeRow? next with
        | none => simp [rangeRows]
        | some own => simp [rangeRows, eq_comm]
      rw [readingsFrom_cons, List.map_cons, List.forall₂_cons, Bounds.admits_read_iff hb hy,
        ih hrest, ← readingsFrom_cons]
      simp only [hrows, or_imp, forall_and]

/-! ### Rows -/

/-- The values of all variables. -/
def valuesAt (s : StandardForm Rat) (y : Nat → Rat) : List Rat := s.readings.map (·.read y)

/-- The value of a variable by number; there are no others. -/
theorem getD_map_read (readings : List (Reading Rat)) (y : Nat → Rat) (v : Nat) :
    (readings.map (·.read y)).getD v 0 = (readings.getD v ⟨0, []⟩).read y := by
  rw [List.getD_eq_getElem?_getD, List.getD_eq_getElem?_getD, List.getElem?_map]
  cases readings[v]? with
  | some r => rfl
  | none => exact (add_zero 0).symm

/-- The row of a constraint has both sides less the offsets. -/
theorem sum_ofConstraint (readings : List (Reading Rat)) (c : Constraint Rat) (y : Nat → Rat) :
    (StandardRow.ofConstraint readings c).sum y - (StandardRow.ofConstraint readings c).rhs
      = Model.evaluate c.terms (fun v => (readings.map (·.read y)).getD v 0) - c.rhs := by
  have hfold : ∀ (terms : List (Nat × Rat)) (rhs : Rat),
      ((terms.flatMap fun (v, a) =>
            (readings.getD v ⟨0, []⟩).columns.map fun (j, sign) => (j, a * sign)).map
          fun t => t.2 * y t.1).sum
        - terms.foldl (fun rhs (v, a) => rhs - a * (readings.getD v ⟨0, []⟩).offset) rhs
      = Model.evaluate terms (fun v => (readings.map (·.read y)).getD v 0) - rhs := by
    intro terms
    induction terms with
    | nil => exact fun rhs => rfl
    | cons t rest ih =>
        intro rhs
        have hown : (((readings.getD t.1 ⟨0, []⟩).columns.map fun (j, sign) => (j, t.2 * sign)).map
            fun p => p.2 * y p.1).sum
            = t.2 * ((readings.getD t.1 ⟨0, []⟩).columns.map fun p => p.2 * y p.1).sum := by
          rw [List.map_map, ← List.sum_map_mul_left]
          congr 1
          exact List.map_congr_left fun p _ => mul_assoc _ _ _
        rw [Model.evaluate_cons, getD_map_read, Reading.read, List.flatMap_cons, List.map_append,
          List.sum_append, List.foldl_cons, add_sub_assoc, ih, hown]
        ring
  exact hfold c.terms c.rhs

/-- A row with a right-hand side that is not negative says the same. -/
theorem holds_nonneg (row : StandardRow Rat) (y : Nat → Rat) :
    row.nonneg.Holds y ↔ row.Holds y := by
  rw [StandardRow.nonneg]
  split
  · have hsum : ((row.coeffs.map fun t => (t.1, -t.2)).map fun t => t.2 * y t.1).sum
        = -row.sum y := by
      rw [StandardRow.sum, List.sum_neg, List.map_map, List.map_map]
      congr 1
      exact List.map_congr_left fun t _ => neg_mul _ _
    change row.relation.swapped.Holds
      ((row.coeffs.map fun t => (t.1, -t.2)).map fun t => t.2 * y t.1).sum (-row.rhs) ↔ _
    rw [hsum, Relation.holds_swapped]
    exact Iff.rfl
  · exact Iff.rfl

theorem nonneg_rhs_nonneg (row : StandardRow Rat) : 0 ≤ row.nonneg.rhs := by
  rw [StandardRow.nonneg]
  split
  · next h => exact neg_nonneg.mpr (le_of_lt h)
  · next h => exact not_lt.mp h

theorem isBelow_nonneg {columns : Nat} {row : StandardRow Rat} (h : row.IsBelow columns) :
    row.nonneg.IsBelow columns := by
  rw [StandardRow.nonneg]
  split
  · intro t ht
    rcases List.mem_map.mp ht with ⟨t', ht', rfl⟩
    exact h t' ht'
  · exact h

theorem isBelow_ofConstraint {columns : Nat} {readings : List (Reading Rat)}
    (h : ∀ r ∈ readings, ∀ p ∈ r.columns, p.1 < columns) (c : Constraint Rat) :
    (StandardRow.ofConstraint readings c).IsBelow columns := by
  intro t ht
  rcases List.mem_flatMap.mp ht with ⟨⟨v, a⟩, _, ht⟩
  rcases List.mem_map.mp ht with ⟨p, hp, rfl⟩
  simp only [List.getD_eq_getElem?_getD] at hp
  cases hv : readings[v]? with
  | none =>
      rw [hv] at hp
      exact absurd hp List.not_mem_nil
  | some r =>
      rw [hv] at hp
      exact h r (List.mem_of_getElem? hv) p hp

variable (m : Model Rat)

theorem rows_ofModel (box : Box Rat) :
    (ofModel m box).rows
      = (rangeRows (readingsFrom 0 box).1 ++ m.constraints.map fun c =>
          StandardRow.ofConstraint (ofModel m box).readings c.2).map (·.nonneg) := rfl

/-- The columns of the readings are those of the standard form. -/
theorem mem_columns_ofModel {r : Reading Rat} (hr : r ∈ (ofModel m box).readings)
    {p : Nat × Rat} (hp : p ∈ r.columns) : p.1 < (ofModel m box).columns := by
  rcases List.mem_map.mp hr with ⟨rb, hrb, rfl⟩
  exact (mem_readingsFrom hrb hp).2

/-- Standard forms are fit for a first tableau. -/
theorem ofModel_isFit (box : Box Rat) : (ofModel m box).IsFit := by
  constructor
  · intro row hrow
    rcases List.mem_map.mp (rows_ofModel m box ▸ hrow) with ⟨row', hrow', rfl⟩
    refine isBelow_nonneg ?_
    rcases List.mem_append.mp hrow' with hrange | hconstraint
    · rcases List.mem_filterMap.mp hrange with ⟨⟨r, b⟩, hrb, hrow⟩
      rcases Option.bind_eq_some_iff.mp hrow with ⟨p, hp, hrow⟩
      have hcolumn := (mem_readingsFrom hrb (List.mem_of_head? hp)).2
      rw [Bounds.rangeRow?_eq] at hrow
      rcases Option.bind_eq_some_iff.mp hrow with ⟨l, _, hrow⟩
      rcases Option.bind_eq_some_iff.mp hrow with ⟨u, _, hrow⟩
      cases hrow
      intro t ht
      rw [List.mem_singleton.mp ht]
      exact hcolumn
    · rcases List.mem_map.mp hconstraint with ⟨c, _, rfl⟩
      exact isBelow_ofConstraint (fun r hr p hp => mem_columns_ofModel m hr hp) c.2
  · intro row hrow
    rcases List.mem_map.mp (rows_ofModel m box ▸ hrow) with ⟨row', _, rfl⟩
    exact nonneg_rhs_nonneg row'

/-- Values of columns satisfy the rows of a model exactly if the values of the
    variables satisfy the model. -/
theorem admits_ofModel_iff (hbox : ∀ b ∈ box, b.isEmpty .exact = false) (hy : ∀ j, 0 ≤ y j) :
    (ofModel m box).Admits y ↔ m.IsPointWithin box ((ofModel m box).valuesAt y) := by
  have hvalues : (ofModel m box).valuesAt y
      = (readingsFrom 0 box).1.map fun rb => rb.1.read y := List.map_map
  have hrows : (∀ row ∈ (ofModel m box).rows, row.Holds y) ↔
      (∀ row ∈ rangeRows (readingsFrom 0 box).1, row.Holds y) ∧
        ∀ c ∈ m.constraints, c.2.Holds fun v => ((ofModel m box).valuesAt y).getD v 0 := by
    rw [rows_ofModel, List.forall_mem_map]
    simp only [holds_nonneg, List.forall_mem_append, List.forall_mem_map]
    refine and_congr_right fun _ => forall₂_congr fun c _ => ?_
    exact c.2.relation.holds_congr (sum_ofConstraint _ c.2 y)
  constructor
  · intro h
    have hall := hrows.mp h.holds
    refine ⟨?_, hall.2⟩
    rw [hvalues]
    exact (forall₂_read_iff hbox hy 0).mpr hall.1
  · intro h
    refine ⟨hy, hrows.mpr ⟨(forall₂_read_iff hbox hy 0).mp ?_, h.meets⟩⟩
    rw [← hvalues]
    exact h.within

/-- No point of a model is lost. -/
theorem exists_admits (hbox : ∀ b ∈ box, b.isEmpty .exact = false)
    (h : m.IsPointWithin box values) :
    ∃ y, (ofModel m box).Admits y ∧ (ofModel m box).valuesAt y = values := by
  rcases exists_columns h.within 0 with ⟨y, hy, hread⟩
  have hvalues : (ofModel m box).valuesAt y = values := List.map_map.trans hread
  exact ⟨y, (admits_ofModel_iff m hbox hy).mpr (hvalues.symm ▸ h), hvalues⟩

/-! ### Costs -/

/-- Terms with a common factor. -/
theorem evaluate_map_mul (a : Rat) (terms : List (Nat × Rat)) (x : Nat → Rat) :
    Model.evaluate (terms.map fun t => (t.1, a * t.2)) x = a * Model.evaluate terms x := by
  rw [Model.evaluate_eq_sum, Model.evaluate_eq_sum, List.map_map, ← List.sum_map_mul_left]
  congr 1
  exact List.map_congr_left fun t _ => mul_assoc _ _ _

/-- The costs of the second phase as a row. -/
def costRow (s : StandardForm Rat) (objective : Objective Rat) : StandardRow Rat :=
  .ofConstraint s.readings
    ⟨objective.terms.map fun t => (t.1, objective.direction.sign * t.2), .eq, 0⟩

theorem get_phaseTwoCost (s : StandardForm Rat) (objective : Objective Rat) (j : Fin s.width) :
    (s.phaseTwoCost objective).get j = (s.costRow objective).coefficient j.val := by
  refine (Vector.getElem_ofFn j.isLt).trans ?_
  rw [StandardRow.coefficient, costRow, StandardRow.ofConstraint, List.flatMap_map]
  rfl

/-- The costs of the second phase are the objective, to be made small, up to a
    constant. -/
theorem exists_costOf_phaseTwoCost (box : Box Rat) (objective : Objective Rat) :
    ∃ k, ∀ x : Fin (ofModel m box).width → Rat,
      costOf ((ofModel m box).phaseTwoCost objective) x
        = objective.direction.sign * Model.evaluate objective.terms
            (fun v => ((ofModel m box).valuesAt (spread x)).getD v 0) + k := by
  let s := ofModel m box
  have hbelow : (s.costRow objective).IsBelow s.width := fun t ht =>
    (isBelow_ofConstraint (fun r hr p hp => mem_columns_ofModel m hr hp) _ t ht).trans_le
      (columns_le_firstArtificial.trans firstArtificial_le_width)
  refine ⟨(s.costRow objective).rhs, fun x => ?_⟩
  have hcost : costOf (s.phaseTwoCost objective) x = (s.costRow objective).sum (spread x) := by
    rw [costOf, ← StandardRow.sum_coefficient hbelow]
    exact Finset.sum_congr rfl fun j _ => by rw [get_phaseTwoCost, spread_val]
  have hsum := sum_ofConstraint s.readings
    ⟨objective.terms.map fun t => (t.1, objective.direction.sign * t.2), .eq, 0⟩ (spread x)
  rw [sub_zero, evaluate_map_mul] at hsum
  rw [hcost, ← sub_eq_iff_eq_add]
  exact hsum

end StandardForm

end CyclePlan
