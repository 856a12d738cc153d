import CyclePlan.Proofs.Simplex.Rows
import CyclePlan.Lp.Assignment
import CyclePlan.Lp.Relaxation

/-!
# The First Tableau

Which columns the rows of a standard form get.

Slack columns are given out in the order of the rows, and so are artificial
ones, after all slack columns. The row at a position therefore finds its own
columns by counting the rows before it (`StandardForm.slackAt`,
`StandardForm.artificialAt`), and it says that what is left of its right-hand
side is in them (`TableauRow.Represents`). No two rows share such a column, so
the first tableau is solved.

A row has a relation, and a tableau only has equations over columns that are not
negative. Both say the same: `admits_of_satisfies` reads a point of the tableau
without anything in the artificial columns as a point of the rows, and
`exists_satisfies` puts what is left of every row into its slack column.

## Main definitions

* `StandardRow.sum`, `StandardRow.Holds`, `StandardForm.Admits`: Points of the rows.
* `StandardForm.slackAt`, `StandardForm.artificialAt`: The columns of a row.
* `TableauRow.Represents`: What a row of the first tableau says.
* `StandardForm.IsFit`: Rows only mention columns that variables are expressed by, and their
  right-hand sides are not negative.

## Theorems

* `StandardForm.getElem?_tableau`: The rows of the first tableau.
* `StandardForm.tableau_isSolved`: It is solved.
* `StandardForm.admits_of_satisfies`, `StandardForm.exists_satisfies`: Its points are those
  of the rows.
-/

namespace CyclePlan

namespace Relation

/-- The coefficient of a slack column. -/
def slackSign : Relation → Rat
  | le => 1
  | ge => -1
  | eq => 0

/-- The coefficient of an artificial column. -/
def artificialSign : Relation → Rat
  | le => 0
  | ge | eq => 1

end Relation

variable {w : Nat}

/-- The sum over all columns of a coefficient that only one column has. -/
theorem sum_indicator {n : Nat} (hn : n < w) (a : Rat) (x : Nat → Rat) :
    ∑ j : Fin w, (if n = j.val then a else 0) * x j.val = a * x n := by
  rw [Finset.sum_eq_single ⟨n, hn⟩]
  · rw [if_pos rfl]
  · intro j _ hj
    rw [if_neg fun heq => hj (Fin.ext heq.symm), zero_mul]
  · exact fun h => absurd (Finset.mem_univ _) h

/-- Values of numbered columns, zero beyond the last one. -/
def spread (x : Fin w → Rat) (n : Nat) : Rat := if h : n < w then x ⟨n, h⟩ else 0

theorem spread_val (x : Fin w → Rat) (j : Fin w) : spread x j.val = x j := dif_pos j.isLt

theorem spread_comp (x : Fin w → Rat) : (fun j : Fin w => spread x j.val) = x :=
  funext (spread_val x)

theorem spread_nonneg {x : Fin w → Rat} (h : ∀ j, 0 ≤ x j) (n : Nat) : 0 ≤ spread x n := by
  rw [spread]
  split
  · exact h _
  · exact le_refl 0

/-- The items of a kind are found by counting those before them. -/
theorem getElem?_filter_countP {β : Type} {p : β → Bool} {rows : List β} {i : Nat} {row : β}
    (h : rows[i]? = some row) (hp : p row = true) :
    (rows.filter p)[(rows.take i).countP p]? = some row := by
  induction rows generalizing i with
  | nil => cases h
  | cons first rest ih =>
      cases i with
      | zero =>
          cases h
          rw [List.filter_cons_of_pos hp]
          rfl
      | succ i =>
          rw [List.take_succ_cons]
          by_cases hfirst : p first = true
          · rw [List.filter_cons_of_pos hfirst, List.countP_cons_of_pos hfirst]
            exact ih h
          · rw [List.filter_cons_of_neg hfirst, List.countP_cons_of_neg hfirst]
            exact ih h

theorem countP_take_lt {β : Type} {p : β → Bool} {rows : List β} {i k : Nat} {row : β}
    (h : rows[i]? = some row) (hp : p row = true) (hik : i < k) :
    (rows.take i).countP p < (rows.take k).countP p := by
  rcases List.getElem?_eq_some_iff.mp h with ⟨hi, hget⟩
  have hstep : (rows.take (i + 1)).countP p = (rows.take i).countP p + 1 := by
    rw [List.take_succ_eq_append_getElem hi, List.countP_append, hget,
      List.countP_cons_of_pos hp, List.countP_nil]
  have hmono := (List.take_prefix_take_left (l := rows) (Nat.succ_le_of_lt hik)).sublist.countP_le
    (p := p)
  exact (Nat.lt_of_succ_le hstep.ge).trans_le hmono

theorem countP_take_ne {β : Type} {p : β → Bool} {rows : List β} {i k : Nat} {row other : β}
    (hi : rows[i]? = some row) (hrow : p row = true) (hk : rows[k]? = some other)
    (hother : p other = true) (hne : i ≠ k) :
    (rows.take i).countP p ≠ (rows.take k).countP p := by
  rcases Nat.lt_or_gt_of_ne hne with hlt | hlt
  · exact (countP_take_lt hi hrow hlt).ne
  · exact (countP_take_lt hk hother hlt).ne'

namespace StandardRow

variable (row : StandardRow Rat)

/-- The left side of the row. -/
def sum (y : Nat → Rat) : Rat := (row.coeffs.map fun t => t.2 * y t.1).sum

/-- The two sides compare as the row says. -/
def Holds (y : Nat → Rat) : Prop := row.relation.Holds (row.sum y) row.rhs

/-- The row only mentions columns below a bound. -/
def IsBelow (columns : Nat) : Prop := ∀ t ∈ row.coeffs, t.1 < columns

variable {row}

theorem sum_congr {columns : Nat} (h : row.IsBelow columns) {y z : Nat → Rat}
    (hyz : ∀ j, j < columns → y j = z j) : row.sum y = row.sum z := by
  rw [sum, sum, List.map_congr_left fun t ht => by rw [hyz t.1 (h t ht)]]

theorem coefficient_eq (row : StandardRow Rat) (j : Nat) :
    row.coefficient j = (row.coeffs.map fun t => if t.1 = j then t.2 else 0).sum := by
  have hfold : ∀ (coeffs : List (Nat × Rat)) (start : Rat),
      (coeffs.filter fun t => t.1 == j).foldl (fun sum t => sum + t.2) start
        = start + (coeffs.map fun t => if t.1 = j then t.2 else 0).sum := by
    intro coeffs
    induction coeffs with
    | nil =>
        intro start
        exact (add_zero start).symm
    | cons t rest ih =>
        intro start
        rw [List.map_cons, List.sum_cons, List.filter_cons]
        by_cases ht : t.1 = j
        · rw [if_pos (beq_iff_eq.mpr ht), List.foldl_cons, ih, if_pos ht, add_assoc]
        · rw [if_neg (mt beq_iff_eq.mp ht), ih, if_neg ht, zero_add]
  exact (hfold row.coeffs 0).trans (zero_add _)

/-- Summed up column by column, the row has the same left side. -/
theorem sum_coefficient (h : row.IsBelow w) (x : Nat → Rat) :
    ∑ j : Fin w, row.coefficient j.val * x j.val = row.sum x := by
  have hlist : ∀ coeffs : List (Nat × Rat), (∀ t ∈ coeffs, t.1 < w) →
      ∑ j : Fin w, (coeffs.map fun t => if t.1 = j.val then t.2 else 0).sum * x j.val
        = (coeffs.map fun t => t.2 * x t.1).sum := by
    intro coeffs
    induction coeffs with
    | nil =>
        intro _
        exact Finset.sum_eq_zero fun j _ => zero_mul _
    | cons t rest ih =>
        intro hall
        rcases List.forall_mem_cons.mp hall with ⟨ht, hrest⟩
        simp only [List.map_cons, List.sum_cons, add_mul, Finset.sum_add_distrib]
        rw [ih hrest, sum_indicator ht]
  rw [sum, ← hlist row.coeffs h]
  exact Finset.sum_congr rfl fun j _ => by rw [coefficient_eq]

theorem coefficient_eq_zero {columns j : Nat} (h : row.IsBelow columns) (hj : columns ≤ j) :
    row.coefficient j = 0 := by
  rw [coefficient_eq]
  refine List.sum_eq_zero fun a ha => ?_
  rcases List.mem_map.mp ha with ⟨t, ht, rfl⟩
  rw [if_neg]
  exact fun heq => absurd (h t ht) (not_lt.mpr (heq ▸ hj))

end StandardRow

/-- A row of a tableau is an equation over the columns of a row, its slack column
    and its artificial column. -/
structure TableauRow.Represents (tableauRow : TableauRow Rat w) (row : StandardRow Rat)
    (slack artificial : Nat) : Prop where
  rhs : tableauRow.rhs = row.rhs
  basic : tableauRow.basic.val = if row.relation = .le then slack else artificial
  lhs : ∀ x : Nat → Rat, tableauRow.lhs (fun j => x j.val)
    = row.sum x + row.relation.slackSign * x slack + row.relation.artificialSign * x artificial

namespace StandardForm

/-! ### The rows one by one -/

/-- The coefficient of a column in a row that has it for its own. -/
def ownCoeff (own : Option (Nat × Rat)) (j : Nat) : Rat :=
  match own with
  | some p => if p.1 = j then p.2 else 0
  | none => 0

/-- What such a column adds to the row. -/
def ownTerm (own : Option (Nat × Rat)) (x : Nat → Rat) : Rat :=
  match own with
  | some p => p.2 * x p.1
  | none => 0

theorem ownCoeff_of_eq {own : Option (Nat × Rat)} {j : Nat} (h : own.map (·.1) = some j) :
    ownCoeff own j = (own.map (·.2)).getD 0 := by
  rcases Option.map_eq_some_iff.mp h with ⟨p, rfl, rfl⟩
  exact if_pos rfl

theorem ownCoeff_of_ne {own : Option (Nat × Rat)} {j : Nat} (h : own.map (·.1) ≠ some j) :
    ownCoeff own j = 0 := by
  cases own with
  | none => rfl
  | some p => exact if_neg fun hp => h (congrArg some hp)

theorem sum_ownCoeff {own : Option (Nat × Rat)} (h : ∀ p ∈ own, p.1 < w) (x : Nat → Rat) :
    ∑ j : Fin w, ownCoeff own j.val * x j.val = ownTerm own x := by
  cases own with
  | none => exact Finset.sum_eq_zero fun j _ => zero_mul _
  | some p => exact sum_indicator (h p rfl) p.2 x

variable {columns : Nat} {row : StandardRow Rat} {slack artificial : Option (Nat × Rat)}

/-- The sources of a coefficient exclude each other, so they can be added up. -/
theorem coeff_tableauRow (basic : Fin w) (hrow : row.IsBelow columns)
    (hslack : ∀ p ∈ slack, columns ≤ p.1) (hartificial : ∀ p ∈ artificial, columns ≤ p.1)
    (hne : ∀ p ∈ slack, ∀ q ∈ artificial, p.1 ≠ q.1) (j : Fin w) :
    (tableauRow columns w row slack artificial basic).coeff j
      = row.coefficient j.val + ownCoeff slack j.val + ownCoeff artificial j.val := by
  have hopen : (tableauRow columns w row slack artificial basic).coeff j
      = if slack.map (·.1) = some j.val then (slack.map (·.2)).getD 0
        else if artificial.map (·.1) = some j.val then (artificial.map (·.2)).getD 0
        else if j.val < columns then row.coefficient j.val
        else 0 := Vector.getElem_ofFn j.isLt
  rw [hopen]
  by_cases hs : slack.map (·.1) = some j.val
  · rcases Option.map_eq_some_iff.mp hs with ⟨p, hp, hj⟩
    have hother : artificial.map (·.1) ≠ some j.val := by
      intro hq
      rcases Option.map_eq_some_iff.mp hq with ⟨q, hq, hqj⟩
      exact hne p hp q hq (hj.trans hqj.symm)
    rw [if_pos hs, ownCoeff_of_eq hs, ownCoeff_of_ne hother,
      StandardRow.coefficient_eq_zero hrow (hj ▸ hslack p hp), zero_add, add_zero]
  · rw [if_neg hs, ownCoeff_of_ne hs, add_zero]
    by_cases ha : artificial.map (·.1) = some j.val
    · rcases Option.map_eq_some_iff.mp ha with ⟨q, hq, hj⟩
      rw [if_pos ha, ownCoeff_of_eq ha,
        StandardRow.coefficient_eq_zero hrow (hj ▸ hartificial q hq), zero_add]
    · rw [if_neg ha, ownCoeff_of_ne ha, add_zero]
      split
      · rfl
      · next hj => exact (StandardRow.coefficient_eq_zero hrow (not_lt.mp hj)).symm

theorem lhs_tableauRow (basic : Fin w) (hrow : row.IsBelow columns) (hcolumns : columns ≤ w)
    (hslack : ∀ p ∈ slack, columns ≤ p.1 ∧ p.1 < w)
    (hartificial : ∀ p ∈ artificial, columns ≤ p.1 ∧ p.1 < w)
    (hne : ∀ p ∈ slack, ∀ q ∈ artificial, p.1 ≠ q.1) (x : Nat → Rat) :
    (tableauRow columns w row slack artificial basic).lhs (fun j => x j.val)
      = row.sum x + ownTerm slack x + ownTerm artificial x := by
  have hbelow : row.IsBelow w := fun t ht => (hrow t ht).trans_le hcolumns
  rw [TableauRow.lhs, ← StandardRow.sum_coefficient hbelow,
    ← sum_ownCoeff (fun p hp => (hslack p hp).2) x,
    ← sum_ownCoeff (fun p hp => (hartificial p hp).2) x, ← Finset.sum_add_distrib,
    ← Finset.sum_add_distrib]
  refine Finset.sum_congr rfl fun j _ => ?_
  rw [coeff_tableauRow basic hrow (fun p hp => (hslack p hp).1) (fun p hp => (hartificial p hp).1)
    hne, add_mul, add_mul]

/-- The rows of a tableau are given rows, with their own columns given out from two
    columns on. -/
def IsLaidOut (t : Tableau Rat w) (rows : List (StandardRow Rat)) (slack artificial : Nat) :
    Prop :=
  ∀ (i : Nat) (tableauRow : TableauRow Rat w), t[i]? = some tableauRow →
    ∃ row, rows[i]? = some row ∧
      tableauRow.Represents row (slack + (rows.take i).countP (·.hasSlack))
        (artificial + (rows.take i).countP (·.hasArtificial))

theorem IsLaidOut.cons {t : Tableau Rat w} {tableauRow : TableauRow Rat w}
    {rest : List (StandardRow Rat)} {slack artificial : Nat}
    (hrow : tableauRow.Represents row slack artificial)
    (ht : IsLaidOut t rest (slack + if row.hasSlack then 1 else 0)
      (artificial + if row.hasArtificial then 1 else 0)) :
    IsLaidOut (tableauRow :: t) (row :: rest) slack artificial := by
  intro i other hi
  cases i with
  | zero =>
      cases hi
      exact ⟨row, rfl, hrow⟩
  | succ i =>
      rcases ht i other hi with ⟨source, hsource, hother⟩
      refine ⟨source, hsource, ?_⟩
      rw [List.take_succ_cons, List.countP_cons, List.countP_cons, Nat.add_comm (List.countP _ _),
        Nat.add_comm (List.countP _ _), ← Nat.add_assoc, ← Nat.add_assoc]
      exact hother

/-- Rows are laid out from given columns on. Slack columns come before the
    artificial ones. -/
theorem isLaidOut_tableauRows {rows : List (StandardRow Rat)} {slack artificial last : Nat}
    (hs : slack + rows.countP (·.hasSlack) ≤ w)
    (ha : artificial + rows.countP (·.hasArtificial) ≤ w)
    (hrows : ∀ row ∈ rows, row.IsBelow columns) (hcolumns : columns ≤ slack)
    (hslack : slack + rows.countP (·.hasSlack) ≤ last) (hlast : last ≤ artificial) :
    IsLaidOut (tableauRows columns w rows slack artificial hs ha) rows slack artificial := by
  have hwidth : columns ≤ w := by omega
  fun_induction tableauRows with
  | case1 => exact fun i tableauRow h => by cases h
  | case2 row rest slack artificial hs ha hrel hs' ha' ih =>
      have hown : row.hasSlack = true := by
        rw [StandardRow.hasSlack, hrel]
        rfl
      rw [List.countP_cons, if_pos hown] at hslack
      have hrow := hrows row List.mem_cons_self
      refine IsLaidOut.cons ⟨rfl, ?_, fun x => ?_⟩ ?_
      · rw [if_pos hrel]
        rfl
      · rw [lhs_tableauRow _ hrow hwidth (by simpa using ⟨hcolumns, by omega⟩) (by simp) (by simp),
          hrel]
        simp [ownTerm, Relation.slackSign, Relation.artificialSign]
      · simp only [StandardRow.hasSlack, StandardRow.hasArtificial, hrel]
        exact ih (fun r hr => hrows r (List.mem_cons_of_mem _ hr)) (by omega) (by omega) hlast
  | case3 row rest slack artificial hs ha hrel hs' ha' ih =>
      have hown : row.hasSlack = true := by
        rw [StandardRow.hasSlack, hrel]
        rfl
      rw [List.countP_cons, if_pos hown] at hslack
      have hrow := hrows row List.mem_cons_self
      refine IsLaidOut.cons ⟨rfl, ?_, fun x => ?_⟩ ?_
      · rw [if_neg (by rw [hrel]; decide)]
        rfl
      · rw [lhs_tableauRow _ hrow hwidth (by simpa using ⟨hcolumns, by omega⟩)
          (by simpa using ⟨by omega, by omega⟩) (by simp; omega), hrel]
        simp [ownTerm, Relation.slackSign, Relation.artificialSign]
      · simp only [StandardRow.hasSlack, StandardRow.hasArtificial, hrel]
        exact ih (fun r hr => hrows r (List.mem_cons_of_mem _ hr)) (by omega) (by omega) (by omega)
  | case4 row rest slack artificial hs ha hrel hs' ha' ih =>
      have hown : ¬ row.hasSlack = true := by
        rw [StandardRow.hasSlack, hrel]
        decide
      rw [List.countP_cons, if_neg hown] at hslack
      have hrow := hrows row List.mem_cons_self
      refine IsLaidOut.cons ⟨rfl, ?_, fun x => ?_⟩ ?_
      · rw [if_neg (by rw [hrel]; decide)]
        rfl
      · rw [lhs_tableauRow _ hrow hwidth (by simp) (by simpa using ⟨by omega, by omega⟩) (by simp),
          hrel]
        simp [ownTerm, Relation.slackSign, Relation.artificialSign]
      · simp only [StandardRow.hasSlack, StandardRow.hasArtificial, hrel]
        exact ih (fun r hr => hrows r (List.mem_cons_of_mem _ hr)) hcolumns hslack (by omega)

theorem length_tableauRows {rows : List (StandardRow Rat)} {slack artificial : Nat}
    (hs : slack + rows.countP (·.hasSlack) ≤ w)
    (ha : artificial + rows.countP (·.hasArtificial) ≤ w) :
    (tableauRows columns w rows slack artificial hs ha).length = rows.length := by
  fun_induction tableauRows <;> simp_all

/-! ### The first tableau -/

variable (s : StandardForm Rat)

/-- The slack column of the row at a position. -/
def slackAt (i : Nat) : Nat := s.columns + (s.rows.take i).countP (·.hasSlack)

/-- The artificial column of the row at a position. -/
def artificialAt (i : Nat) : Nat := s.firstArtificial + (s.rows.take i).countP (·.hasArtificial)

/-- Rows only mention columns that variables are expressed by, and their right-hand
    sides are not negative. -/
structure IsFit : Prop where
  below : ∀ row ∈ s.rows, row.IsBelow s.columns
  nonneg : ∀ row ∈ s.rows, 0 ≤ row.rhs

variable {s} {i k : Nat}

theorem columns_le_firstArtificial : s.columns ≤ s.firstArtificial := Nat.le_add_right _ _

theorem firstArtificial_le_width : s.firstArtificial ≤ s.width := Nat.le_add_right _ _

theorem slackAt_lt (h : s.rows[i]? = some row) (hrow : row.hasSlack = true) :
    s.slackAt i < s.firstArtificial := by
  rcases List.getElem?_eq_some_iff.mp h with ⟨hi, _⟩
  have hlt := countP_take_lt h hrow hi
  rw [List.take_length] at hlt
  exact Nat.add_lt_add_left hlt s.columns

theorem slackAt_ne (hi : s.rows[i]? = some row) (hrow : row.hasSlack = true)
    {other : StandardRow Rat} (hk : s.rows[k]? = some other) (hother : other.hasSlack = true)
    (hne : i ≠ k) : s.slackAt i ≠ s.slackAt k :=
  mt Nat.add_left_cancel (countP_take_ne hi hrow hk hother hne)

theorem artificialAt_ne (hi : s.rows[i]? = some row) (hrow : row.hasArtificial = true)
    {other : StandardRow Rat} (hk : s.rows[k]? = some other) (hother : other.hasArtificial = true)
    (hne : i ≠ k) : s.artificialAt i ≠ s.artificialAt k :=
  mt Nat.add_left_cancel (countP_take_ne hi hrow hk hother hne)

theorem length_tableau : s.tableau.length = s.rows.length := length_tableauRows _ _

/-- The rows of the first tableau. -/
theorem getElem?_tableau (hfit : s.IsFit) {tableauRow : TableauRow Rat s.width}
    (h : s.tableau[i]? = some tableauRow) :
    ∃ row, s.rows[i]? = some row ∧
      tableauRow.Represents row (s.slackAt i) (s.artificialAt i) :=
  isLaidOut_tableauRows _ _ hfit.below (Nat.le_refl _) (Nat.le_refl _) (Nat.le_refl _) i
    tableauRow h

/-- Every row has a row of the first tableau. -/
theorem exists_tableauRow (hfit : s.IsFit) (h : s.rows[i]? = some row) :
    ∃ tableauRow, s.tableau[i]? = some tableauRow ∧
      tableauRow.Represents row (s.slackAt i) (s.artificialAt i) := by
  rcases List.getElem?_eq_some_iff.mp h with ⟨hi, _⟩
  have hget := List.getElem?_eq_getElem (l := s.tableau) (i := i) (length_tableau ▸ hi)
  rcases getElem?_tableau hfit hget with ⟨other, hother, hrow⟩
  rw [h] at hother
  cases hother
  exact ⟨_, hget, hrow⟩

/-- What all rows of the first tableau say, row by row. -/
theorem forall_tableau_iff (hfit : s.IsFit) (P : Rat → Rat → Prop) (x : Nat → Rat) :
    (∀ tableauRow ∈ s.tableau, P (tableauRow.lhs fun j => x j.val) tableauRow.rhs) ↔
      ∀ i row, s.rows[i]? = some row →
        P (row.sum x + row.relation.slackSign * x (s.slackAt i)
          + row.relation.artificialSign * x (s.artificialAt i)) row.rhs := by
  constructor
  · intro h i row hrow
    rcases exists_tableauRow hfit hrow with ⟨tableauRow, htableau, hrep⟩
    rw [← hrep.lhs, ← hrep.rhs]
    exact h tableauRow (List.mem_of_getElem? htableau)
  · intro h tableauRow hmem
    rcases List.mem_iff_getElem?.mp hmem with ⟨i, hi⟩
    rcases getElem?_tableau hfit hi with ⟨row, hrow, hrep⟩
    rw [hrep.lhs, hrep.rhs]
    exact h i row hrow

theorem hasSlack_iff (row : StandardRow Rat) : row.hasSlack = true ↔ row.relation ≠ .eq :=
  bne_iff_ne

theorem hasArtificial_iff (row : StandardRow Rat) :
    row.hasArtificial = true ↔ row.relation ≠ .le :=
  bne_iff_ne

/-- Beyond the columns of the variables a row has its own columns only. -/
theorem coeff_of_represents {tableauRow : TableauRow Rat w} {slack artificial : Nat}
    (h : tableauRow.Represents row slack artificial) (hrow : row.IsBelow columns) {j : Fin w}
    (hj : columns ≤ j.val) :
    tableauRow.coeff j = row.relation.slackSign * (Pi.single j.val 1 : Nat → Rat) slack
      + row.relation.artificialSign * (Pi.single j.val 1 : Nat → Rat) artificial := by
  -- The coefficient is what the row sees of a point that is one there alone.
  have hpoint : (fun k : Fin w => (Pi.single j.val 1 : Nat → Rat) k.val) = Pi.single j 1 := by
    funext k
    rw [Pi.single_apply, Pi.single_apply]
    exact if_congr Fin.ext_iff.symm rfl rfl
  have hsum : row.sum (Pi.single j.val 1) = 0 := by
    refine List.sum_eq_zero fun v hv => ?_
    rcases List.mem_map.mp hv with ⟨t, ht, rfl⟩
    have hlt := hrow t ht
    rw [Pi.single_eq_of_ne (by omega), mul_zero]
  have hlhs := h.lhs (Pi.single j.val 1)
  rw [hpoint, tableauRow.lhs_single, mul_one, hsum, zero_add] at hlhs
  exact hlhs

/-- A row without a slack column has no slack. -/
theorem slackSign_mul_eq_zero {z : Rat} (h : row.hasSlack = true → z = 0) :
    row.relation.slackSign * z = 0 := by
  by_cases hown : row.relation = .eq
  · rw [hown]
    exact zero_mul _
  · rw [h ((hasSlack_iff row).mpr hown), mul_zero]

/-- So it is for artificial columns. -/
theorem artificialSign_mul_eq_zero {z : Rat} (h : row.hasArtificial = true → z = 0) :
    row.relation.artificialSign * z = 0 := by
  by_cases hown : row.relation = .le
  · rw [hown]
    exact zero_mul _
  · rw [h ((hasArtificial_iff row).mpr hown), mul_zero]

/-- The first tableau is solved: no two rows share a slack column or an artificial
    one. -/
theorem tableau_isSolved (hfit : s.IsFit) : s.tableau.IsSolved := by
  intro i k a b hi hk
  rcases getElem?_tableau hfit hi with ⟨rowA, hrowA, hrepA⟩
  rcases getElem?_tableau hfit hk with ⟨rowB, hrowB, hrepB⟩
  have hbasic : s.columns ≤ b.basic.val := by
    rw [hrepB.basic]
    split
    · exact Nat.le_add_right _ _
    · exact columns_le_firstArtificial.trans (Nat.le_add_right _ _)
  rw [coeff_of_represents hrepA (hfit.below rowA (List.mem_of_getElem? hrowA)) hbasic, hrepB.basic]
  by_cases hle : rowB.relation = .le
  · -- The column is the slack column of the other row.
    have hslackB := (hasSlack_iff rowB).mpr (by rw [hle]; decide)
    have hart : s.artificialAt i ≠ s.slackAt k := by
      have hlt := slackAt_lt hrowB hslackB
      have hge : s.firstArtificial ≤ s.artificialAt i := Nat.le_add_right _ _
      omega
    rw [if_pos hle, Pi.single_eq_of_ne hart, mul_zero, add_zero]
    by_cases hik : i = k
    · subst hik
      cases hrowA.symm.trans hrowB
      rw [if_pos rfl, Pi.single_eq_same, hle]
      exact mul_one _
    · rw [if_neg hik]
      exact slackSign_mul_eq_zero fun hslackA =>
        Pi.single_eq_of_ne (slackAt_ne hrowA hslackA hrowB hslackB hik) _
  · -- The column is the artificial column of the other row.
    have hartB := (hasArtificial_iff rowB).mpr hle
    have hslack : rowA.relation.slackSign
        * (Pi.single (s.artificialAt k) 1 : Nat → Rat) (s.slackAt i) = 0 := by
      refine slackSign_mul_eq_zero fun hslackA => Pi.single_eq_of_ne ?_ _
      have hlt := slackAt_lt hrowA hslackA
      have hge : s.firstArtificial ≤ s.artificialAt k := Nat.le_add_right _ _
      omega
    rw [if_neg hle, hslack, zero_add]
    by_cases hik : i = k
    · subst hik
      cases hrowA.symm.trans hrowB
      rw [if_pos rfl, Pi.single_eq_same, mul_one]
      cases hrel : rowA.relation with
      | le => exact absurd hrel hle
      | ge => rfl
      | eq => rfl
    · rw [if_neg hik]
      exact artificialSign_mul_eq_zero fun hartA =>
        Pi.single_eq_of_ne (artificialAt_ne hrowA hartA hrowB hartB hik) _

/-! ### Points -/

/-- Values of columns satisfy the rows. -/
structure Admits (s : StandardForm Rat) (y : Nat → Rat) : Prop where
  nonneg : ∀ j, 0 ≤ y j
  holds : ∀ row ∈ s.rows, row.Holds y

/-- A point is not negative, satisfies a tableau, and has nothing in the artificial
    columns. -/
structure IsPoint (s : StandardForm Rat) (t : Tableau Rat s.width) (x : Fin s.width → Rat) :
    Prop where
  satisfies : t.Satisfies x
  nonneg : ∀ j, 0 ≤ x j
  proper : ∀ j, s.firstArtificial ≤ j.val → x j = 0

/-- What is left of a row when nothing is in its artificial column. -/
theorem holds_of_slack {y : Nat → Rat} {a : Rat} (ha : 0 ≤ a)
    (h : row.sum y + row.relation.slackSign * a = row.rhs) : row.Holds y := by
  cases hrel : row.relation with
  | le =>
      rw [hrel, Relation.slackSign, one_mul] at h
      rw [StandardRow.Holds, hrel]
      exact h ▸ le_add_of_nonneg_right ha
  | ge =>
      rw [hrel, Relation.slackSign, neg_one_mul] at h
      rw [StandardRow.Holds, hrel]
      exact h ▸ add_le_of_nonpos_right (neg_nonpos.mpr ha)
  | eq =>
      rw [hrel, Relation.slackSign, zero_mul, add_zero] at h
      rw [StandardRow.Holds, hrel]
      exact h

/-- The distance of the two sides goes into the slack column. -/
theorem slack_of_holds {y : Nat → Rat} (h : row.Holds y) :
    row.sum y + row.relation.slackSign * |row.rhs - row.sum y| = row.rhs := by
  cases hrel : row.relation with
  | le =>
      rw [StandardRow.Holds, hrel] at h
      rw [Relation.slackSign, one_mul, abs_of_nonneg (sub_nonneg.mpr h), add_sub_cancel]
  | ge =>
      rw [StandardRow.Holds, hrel] at h
      rw [Relation.slackSign, abs_of_nonpos (sub_nonpos.mpr h)]
      ring
  | eq =>
      rw [StandardRow.Holds, hrel] at h
      rw [Relation.slackSign, zero_mul, add_zero]
      exact h

/-- The columns of a point of the tableau satisfy the rows. -/
theorem admits_of_satisfies (hfit : s.IsFit) {x : Fin s.width → Rat} (h : s.IsPoint s.tableau x) :
    s.Admits (spread x) := by
  refine ⟨spread_nonneg h.nonneg, fun row hrow => ?_⟩
  rcases List.mem_iff_getElem?.mp hrow with ⟨i, hi⟩
  have hall := (forall_tableau_iff hfit (fun l r => l = r) (spread x)).mp
    (by rw [spread_comp]; exact h.satisfies) i row hi
  have hart : row.relation.artificialSign * spread x (s.artificialAt i) = 0 := by
    rw [spread]
    split
    · next hlt => rw [h.proper ⟨_, hlt⟩ (Nat.le_add_right _ _), mul_zero]
    · exact mul_zero _
  rw [hart, add_zero] at hall
  exact holds_of_slack (spread_nonneg h.nonneg _) hall

/-- Values that satisfy the rows are the columns of a point of the tableau. -/
theorem exists_satisfies (hfit : s.IsFit) {y : Nat → Rat} (h : s.Admits y) :
    ∃ x, s.IsPoint s.tableau x ∧ ∀ j : Fin s.width, j.val < s.columns → x j = y j.val := by
  -- A column past those of the variables belongs to the row with that many slacks before it.
  let z : Nat → Rat := fun n =>
    if n < s.columns then y n
    else
      match (s.rows.filter (·.hasSlack))[n - s.columns]? with
      | some row => |row.rhs - row.sum y|
      | none => 0
  have hz : ∀ n, n < s.columns → z n = y n := fun n hn => if_pos hn
  have hslack : ∀ i row, s.rows[i]? = some row → row.hasSlack = true →
      z (s.slackAt i) = |row.rhs - row.sum y| := by
    intro i row hi hrow
    have hget := getElem?_filter_countP hi hrow
    simp only [z, slackAt, Nat.add_sub_cancel_left, hget]
    exact if_neg (by omega)
  have hproper : ∀ n, s.firstArtificial ≤ n → z n = 0 := by
    intro n hn
    have hnone : (s.rows.filter (·.hasSlack))[n - s.columns]? = none := by
      rw [List.getElem?_eq_none_iff, ← List.countP_eq_length_filter]
      exact Nat.le_sub_of_add_le' hn
    simp only [z, hnone]
    exact if_neg (not_lt.mpr (columns_le_firstArtificial.trans hn))
  refine ⟨fun j => z j.val, ⟨?_, fun j => ?_, fun j hj => hproper _ hj⟩, fun j hj => hz _ hj⟩
  · refine (forall_tableau_iff hfit (fun l r => l = r) z).mpr fun i row hi => ?_
    have hrow := List.mem_of_getElem? hi
    have hleft := slack_of_holds (h.holds row hrow)
    rw [hproper (s.artificialAt i) (Nat.le_add_right _ _), mul_zero, add_zero,
      StandardRow.sum_congr (hfit.below row hrow) hz]
    by_cases hown : row.relation = .eq
    · rw [hown, Relation.slackSign, zero_mul] at hleft ⊢
      exact hleft
    · rw [hslack i row hi ((hasSlack_iff row).mpr hown)]
      exact hleft
  · simp only [z]
    split
    · exact h.nonneg _
    · split
      · exact abs_nonneg _
      · exact le_refl 0

end StandardForm

end CyclePlan
