import Mathlib.Data.Finset.Card
import Mathlib.Logic.Relation
import CyclePlan.Proofs.Simplex.Phases

/-!
# Corners

A run of pivots, seen as the corners that it visits.

The loop that pivots keeps a tableau and its reduced costs. The two together are
a corner here, and one round of the loop leads from a corner to the next one.
How a run ends is then told by the list of the corners that it visits: it stops
short if every pivot that was granted leads to one more corner, and otherwise
the last corner decides (`optimizeFrom_eq`).

Each corner has a point and a basis. A pivot puts one column into the basis and
takes one out (`Turn.eq_or_mem`, `Turn.eq_or_mem_of_mem`). It never makes the
point cost more, and where the cost stays the same the point does so too
(`Turn.point_eq`).

## Main definitions

* `Corner`, `Corner.basis`: Where pivoting stands.
* `Corner.next?`, `Corner.visits`, `Corner.verdict`: A run, corner by corner.
* `Turn`, `Leads`: A pivot that the rule chooses.
* `IsCorner`: The corners of a system of equations.

## Theorems

* `optimizeFrom_eq`: A run is told by the corners that it visits.
* `Turn.isCorner`: A pivot leads to a corner.
* `Turn.costOf_point_le`, `Turn.point_eq`: What it does to the point.
* `IsCorner.point_eq_of_basis`, `IsCorner.point_eq_of_cost`: When points agree.
-/

namespace CyclePlan

namespace Tableau

variable {w : Nat}

/-- Where pivoting stands. -/
structure Corner (w : Nat) where
  rows : Tableau Rat w
  reduced : Vector Rat w

namespace Corner

/-- Where pivoting starts. -/
def start (t : Tableau Rat w) (cost : Vector Rat w) : Corner w := ⟨t, t.reducedCosts cost⟩

/-- The columns that the rows are solved for. -/
def basis (s : Corner w) : Finset (Fin w) := (s.rows.map (·.basic)).toFinset

theorem mem_basis_iff {s : Corner w} {j : Fin w} : j ∈ s.basis ↔ s.rows.IsBasic j := by
  rw [basis, List.mem_toFinset, List.mem_map]
  exact Iff.rfl

/-- The corner that the next pivot leads to, if there is one. -/
def next? (allowed : Fin w → Bool) (s : Corner w) : Option (Corner w) := do
  let c ← entering? .exact allowed s.reduced
  let bound ← leaving? .exact s.rows c
  let row ← s.rows[bound.position]?
  return ⟨s.rows.pivot .exact bound.position c, priceOut s.reduced (row.normalize c) c⟩

/-- The corners that at most so many pivots lead to, from the first one on. -/
def visits (allowed : Fin w → Bool) : Nat → Corner w → List (Corner w)
  | 0, s => [s]
  | pivots + 1, s =>
    match s.next? allowed with
    | none => [s]
    | some s' => s :: visits allowed pivots s'

/-- What is found out at a corner that no pivot leads away from. -/
def verdict (allowed : Fin w → Bool) (s : Corner w) : PivotResult Rat w :=
  match entering? .exact allowed s.reduced with
  | none => .optimal s.rows
  | some _ => .unbounded s.rows

end Corner

open Corner

variable {allowed : Fin w → Bool} {s s' u v : Corner w} {c j : Fin w} {row other : TableauRow Rat w}
  {t : Tableau Rat w} {cost : Vector Rat w}

/-! ### A run, corner by corner -/

/-- A pivot that the rule chooses, with the column that enters and the row that leaves. -/
inductive Turn (allowed : Fin w → Bool) :
    Corner w → Fin w → TableauRow Rat w → Corner w → Prop where
  | pivot {t : Tableau Rat w} {reduced : Vector Rat w} {c : Fin w} {b : Bounding Rat w}
      {row : TableauRow Rat w} (henter : entering? .exact allowed reduced = some c)
      (hleave : leaving? .exact t c = some b) (hrow : t[b.position]? = some row) :
      Turn allowed ⟨t, reduced⟩ c row
        ⟨t.pivot .exact b.position c, priceOut reduced (row.normalize c) c⟩

/-- One pivot leads from a corner to another. -/
def Leads (allowed : Fin w → Bool) (s s' : Corner w) : Prop := ∃ c row, Turn allowed s c row s'

theorem next?_eq_some_iff : s.next? allowed = some s' ↔ Leads allowed s s' := by
  simp only [next?, Option.bind_eq_bind, Option.bind_eq_some_iff, Option.pure_def,
    Option.some.injEq]
  constructor
  · rintro ⟨c, henter, b, hleave, row, hrow, rfl⟩
    exact ⟨c, row, .pivot henter hleave hrow⟩
  · rintro ⟨c, row, ⟨henter, hleave, hrow⟩⟩
    exact ⟨_, henter, _, hleave, _, hrow, rfl⟩

/-- The loop makes one pivot after the other, or ends with what is found out. -/
theorem optimizeFrom_succ (pivots : Nat) (s : Corner w) :
    optimizeFrom .exact allowed (pivots + 1) s.rows s.reduced =
      match s.next? allowed with
      | none => s.verdict allowed
      | some s' => optimizeFrom .exact allowed pivots s'.rows s'.reduced := by
  cases henter : entering? .exact allowed s.reduced with
  | none => simp [optimizeFrom, next?, verdict, henter]
  | some c =>
      cases hleave : leaving? .exact s.rows c with
      | none => simp [optimizeFrom, next?, verdict, henter, hleave]
      | some b =>
          rcases exists_row_of_leaving? hleave with ⟨row, hrow, _⟩
          simp [optimizeFrom, next?, henter, hleave, hrow, getElem?_pivot_self .exact hrow]

theorem exists_visits (allowed : Fin w → Bool) (pivots : Nat) (s : Corner w) :
    ∃ rest, visits allowed pivots s = s :: rest := by
  cases pivots with
  | zero => exact ⟨[], rfl⟩
  | succ pivots =>
      rw [visits]
      split
      · exact ⟨[], rfl⟩
      · exact ⟨_, rfl⟩

/-- How a run ends is told by the corners that it visits. It stops short exactly if each
    of the pivots that were granted leads to one more corner. -/
theorem optimizeFrom_eq (pivots : Nat) (s : Corner w) :
    optimizeFrom .exact allowed pivots s.rows s.reduced =
      if (visits allowed pivots s).length = pivots + 1 then .stalled
      else ((visits allowed pivots s).getLastD s).verdict allowed := by
  induction pivots generalizing s with
  | zero => rfl
  | succ pivots ih =>
      rw [optimizeFrom_succ, visits]
      cases hnext : s.next? allowed with
      | none => simp
      | some s' =>
          rcases exists_visits allowed pivots s' with ⟨rest, hrest⟩
          simp only [ih, hrest, List.length_cons, List.getLastD_cons, Nat.add_right_cancel_iff]

/-- A run that ends before its pivots are used up visits no more corners if it is
    granted more. -/
theorem visits_of_le {pivots pivots' : Nat} (h : (visits allowed pivots s).length ≤ pivots)
    (hle : pivots ≤ pivots') : visits allowed pivots' s = visits allowed pivots s := by
  induction pivots generalizing s pivots' with
  | zero =>
      rcases exists_visits allowed 0 s with ⟨rest, hrest⟩
      rw [hrest, List.length_cons] at h
      omega
  | succ pivots ih =>
      obtain ⟨more, rfl⟩ : ∃ more, pivots' = more + 1 := ⟨pivots' - 1, by omega⟩
      rw [visits] at h
      rw [visits, visits]
      cases hnext : s.next? allowed with
      | none => rfl
      | some s' =>
          rw [hnext, List.length_cons] at h
          exact congrArg (s :: ·) (ih (by omega) (by omega))

theorem reaches_of_mem_visits {pivots : Nat} (h : u ∈ visits allowed pivots s) :
    Relation.ReflTransGen (Leads allowed) s u := by
  induction pivots generalizing s with
  | zero =>
      rw [visits, List.mem_singleton] at h
      rw [h]
  | succ pivots ih =>
      rw [visits] at h
      split at h
      · rw [List.mem_singleton] at h
        rw [h]
      · next s' hnext =>
        rcases List.mem_cons.mp h with rfl | hrest
        · exact .refl
        · exact .head (next?_eq_some_iff.mp hnext) (ih hrest)

/-! ### What one pivot keeps -/

/-- A corner of the equations that a tableau stands for, with costs. -/
structure IsCorner (t : Tableau Rat w) (cost : Vector Rat w) (s : Corner w) : Prop where
  solved : s.rows.IsSolved
  nonneg : ∀ row ∈ s.rows, 0 ≤ row.rhs
  satisfies_iff : ∀ x, s.rows.Satisfies x ↔ t.Satisfies x
  length_eq : s.rows.length = t.length
  priced : s.rows.IsPriced cost s.reduced

theorem start_isCorner (hsolved : t.IsSolved) (hrhs : ∀ row ∈ t, 0 ≤ row.rhs)
    (cost : Vector Rat w) : IsCorner t cost (start t cost) where
  solved := hsolved
  nonneg := hrhs
  satisfies_iff _ := Iff.rfl
  length_eq := rfl
  priced := isPriced_reducedCosts hsolved cost

namespace IsCorner

theorem point_satisfies (hs : IsCorner t cost s) (hu : IsCorner t cost u) :
    s.rows.Satisfies u.rows.point :=
  (hs.satisfies_iff _).mpr ((hu.satisfies_iff _).mp hu.solved.point_satisfies)

/-- A point is known from where it is zero. -/
theorem point_eq (hs : IsCorner t cost s) (hu : IsCorner t cost u)
    (hzero : ∀ j, j ∉ s.basis → u.rows.point j = 0) : u.rows.point = s.rows.point := by
  refine hs.solved.eq_of_lhs_eq (fun row hrow => ?_) fun j hj => ?_
  · rw [hs.point_satisfies hu row hrow, hs.solved.point_satisfies row hrow]
  · rw [hzero j (mt mem_basis_iff.mp hj), point_of_not_isBasic hj]

/-- Two corners with the same basis have the same point. -/
theorem point_eq_of_basis (hs : IsCorner t cost s) (hu : IsCorner t cost u)
    (hbasis : s.basis = u.basis) : u.rows.point = s.rows.point :=
  hs.point_eq hu fun _ hj => point_of_not_isBasic (mt mem_basis_iff.mpr (hbasis ▸ hj))

theorem card_basis (hs : IsCorner t cost s) : s.basis.card = t.length := by
  have hnodup : (s.rows.map (·.basic)).Nodup := by
    rw [List.nodup_iff_getElem?_ne_getElem?]
    intro i k hik hk heq
    rw [List.length_map] at hk
    rw [List.getElem?_map, List.getElem?_map, List.getElem?_eq_getElem hk,
      List.getElem?_eq_getElem (hik.trans hk)] at heq
    exact hs.solved.basic_ne (List.getElem?_eq_getElem (hik.trans hk))
      (List.getElem?_eq_getElem hk) hik.ne (Option.some.inj heq)
  rw [basis, List.toFinset_card_of_nodup hnodup, List.length_map, hs.length_eq]

end IsCorner

namespace Turn

theorem isAllowed (h : Turn allowed s c row s') : allowed c = true := by
  cases h with
  | pivot henter => exact (entering?_some henter).1

theorem reduced_neg (h : Turn allowed s c row s') : s.reduced.get c < 0 := by
  cases h with
  | pivot henter => exact (entering?_some henter).2

theorem reduced_nonneg (h : Turn allowed s c row s') (hj : allowed j = true) (hlt : j < c) :
    0 ≤ s.reduced.get j := by
  cases h with
  | pivot henter => exact nonneg_of_entering? henter hj hlt

theorem coeff_pos (h : Turn allowed s c row s') : 0 < row.coeff c := by
  cases h with
  | pivot _ hleave hrow => exact (leaving?_some hleave hrow).1

theorem row_mem (h : Turn allowed s c row s') : row ∈ s.rows := by
  cases h with
  | pivot _ _ hrow => exact List.mem_of_getElem? hrow

/-- Of the rows that bound the entering column with nothing on the right side, the row
    that leaves has the first basic column. -/
theorem basic_le (hs : IsCorner t cost s) (h : Turn allowed s c row s') (hother : other ∈ s.rows)
    (hpos : 0 < other.coeff c) (hzero : other.rhs = 0) : row.basic ≤ other.basic := by
  cases h with
  | pivot _ hleave hrow =>
      rcases exists_row_of_leaving? hleave with ⟨row', hrow', hpos', hratio, hbasic⟩
      obtain rfl : _ = row' := Option.some.inj (hrow.symm.trans hrow')
      have hrank := rank_le_of_leaving? hleave hother hpos
      rw [Bounding.rank, hratio, hbasic, hzero, zero_div, Prod.Lex.toLex_le_toLex] at hrank
      rcases hrank with hlt | ⟨_, hle⟩
      · have hnonneg := div_nonneg (hs.nonneg row (List.mem_of_getElem? hrow)) hpos'.le
        exact absurd hlt (not_lt.mpr hnonneg)
      · exact hle

/-- A pivot leads to a corner. -/
theorem isCorner (hs : IsCorner t cost s) (h : Turn allowed s c row s') : IsCorner t cost s' := by
  have hpos := h.coeff_pos
  cases h with
  | pivot _ hleave hrow =>
      exact ⟨hs.solved.pivot hrow hpos.ne', pivot_rhs_nonneg hleave hrow hs.nonneg,
        fun x => (pivot_satisfies_iff hrow hpos.ne' x).trans (hs.satisfies_iff x),
        (length_pivot .exact).trans hs.length_eq, hs.priced.pivot hs.solved hrow hpos.ne'⟩

/-! The basis loses the column of the row that leaves, and gets the one that enters. -/

theorem not_mem_basis (hs : IsCorner t cost s) (h : Turn allowed s c row s') : c ∉ s.basis :=
  mt mem_basis_iff.mp (hs.priced.not_isBasic h.reduced_neg)

theorem basic_mem (h : Turn allowed s c row s') : row.basic ∈ s.basis :=
  mem_basis_iff.mpr ⟨row, h.row_mem, rfl⟩

theorem mem_basis (h : Turn allowed s c row s') : c ∈ s'.basis := by
  cases h with
  | pivot _ _ hrow => exact mem_basis_iff.mpr ⟨_, mem_pivot_self .exact hrow, rfl⟩

/-- A column of the basis was there before, or it is the one that enters. -/
theorem eq_or_mem (h : Turn allowed s c row s') (hj : j ∈ s'.basis) : j = c ∨ j ∈ s.basis := by
  cases h with
  | pivot _ _ hrow =>
      rcases mem_basis_iff.mp hj with ⟨after, hafter, rfl⟩
      rcases mem_pivot_cases hrow hafter with rfl | ⟨k, other, _, hother, rfl⟩
      · exact .inl rfl
      · rw [TableauRow.eliminate_basic]
        exact .inr (mem_basis_iff.mpr ⟨other, List.mem_of_getElem? hother, rfl⟩)

/-- A column of the basis stays there, or it is that of the row that leaves. -/
theorem eq_or_mem_of_mem (h : Turn allowed s c row s') (hj : j ∈ s.basis) :
    j = row.basic ∨ j ∈ s'.basis := by
  cases h with
  | @pivot _ _ _ b _ _ _ hrow =>
      rcases mem_basis_iff.mp hj with ⟨other, hother, rfl⟩
      rcases List.mem_iff_getElem?.mp hother with ⟨k, hk⟩
      by_cases hkb : k = b.position
      · rw [hkb, hrow] at hk
        exact .inl (congrArg TableauRow.basic (Option.some.inj hk)).symm
      · refine .inr (mem_basis_iff.mpr ⟨other.eliminate .exact (row.normalize c) c, ?_,
          TableauRow.eliminate_basic _ _ _ _⟩)
        exact List.mem_of_getElem? ((getElem?_pivot_of_ne .exact hrow hkb).trans (by rw [hk]; rfl))

/-- The cost changes by what the entering column gets, at the rate of its reduced cost. -/
theorem costOf_point (hs : IsCorner t cost s) (h : Turn allowed s c row s') :
    costOf cost s'.rows.point =
      costOf cost s.rows.point + s.reduced.get c * s'.rows.point c := by
  rw [hs.priced.costOf_eq hs.solved (hs.point_satisfies (h.isCorner hs))]
  congr 1
  rw [costOf, Finset.sum_eq_single c]
  · intro j _ hj
    -- Another column is basic before, or it is not basic afterwards.
    by_cases hbasic : j ∈ s.basis
    · rcases mem_basis_iff.mp hbasic with ⟨other, hother, rfl⟩
      rw [hs.priced.basic other hother, zero_mul]
    · have hnot : j ∉ s'.basis := fun hmem => (h.eq_or_mem hmem).elim hj hbasic
      rw [point_of_not_isBasic (mt mem_basis_iff.mpr hnot), mul_zero]
  · exact fun hc => absurd (Finset.mem_univ _) hc

theorem costOf_point_le (hs : IsCorner t cost s) (h : Turn allowed s c row s') :
    costOf cost s'.rows.point ≤ costOf cost s.rows.point := by
  rw [h.costOf_point hs]
  have hgain := mul_nonpos_of_nonpos_of_nonneg h.reduced_neg.le
    (point_nonneg (h.isCorner hs).nonneg c)
  exact add_le_of_nonpos_right hgain

/-- A pivot that does not lower the cost leaves the point where it is. -/
theorem point_eq (hs : IsCorner t cost s) (h : Turn allowed s c row s')
    (hcost : costOf cost s'.rows.point = costOf cost s.rows.point) :
    s'.rows.point = s.rows.point := by
  rw [h.costOf_point hs, add_eq_left, mul_eq_zero] at hcost
  have hzero := hcost.resolve_left h.reduced_neg.ne
  refine hs.point_eq (h.isCorner hs) fun j hj => ?_
  by_cases hjc : j = c
  · rw [hjc, hzero]
  · have hnot : j ∉ s'.basis := fun hmem => (h.eq_or_mem hmem).elim hjc hj
    exact point_of_not_isBasic (mt mem_basis_iff.mpr hnot)

end Turn

/-! ### Runs -/

theorem IsCorner.reaches (hs : IsCorner t cost s)
    (hrun : Relation.ReflTransGen (Leads allowed) s u) : IsCorner t cost u := by
  induction hrun with
  | refl => exact hs
  | tail _ hstep ih =>
      rcases hstep with ⟨c, row, hturn⟩
      exact hturn.isCorner ih

theorem IsCorner.costOf_point_le (hs : IsCorner t cost s)
    (hrun : Relation.ReflTransGen (Leads allowed) s u) :
    costOf cost u.rows.point ≤ costOf cost s.rows.point := by
  induction hrun with
  | refl => exact le_refl _
  | tail hrun hstep ih =>
      rcases hstep with ⟨c, row, hturn⟩
      exact (hturn.costOf_point_le (hs.reaches hrun)).trans ih

/-- A run that does not lower the cost leaves the point where it is. -/
theorem IsCorner.point_eq_of_cost (hs : IsCorner t cost s)
    (hrun : Relation.ReflTransGen (Leads allowed) s u)
    (hcost : costOf cost s.rows.point ≤ costOf cost u.rows.point) :
    u.rows.point = s.rows.point := by
  induction hrun with
  | refl => rfl
  | @tail v u hrun hstep ih =>
      rcases hstep with ⟨c, row, hturn⟩
      have hv := hs.reaches hrun
      have hbefore := hs.costOf_point_le hrun
      have hafter := hturn.costOf_point_le hv
      rw [hturn.point_eq hv (hafter.antisymm (hbefore.trans hcost))]
      exact ih (hcost.trans hafter)

end Tableau

end CyclePlan
