import Mathlib.Data.Finset.Powerset
import Mathlib.Data.Fintype.Card
import Mathlib.Order.WellFounded
import CyclePlan.Proofs.Simplex.Corners
import CyclePlan.Proofs.Simplex.Expressions

/-!
# Why Pivoting Ends

Bland's rule never brings a basis back.

A pivot need not make the point of a tableau any cheaper. Where a row with
nothing on its right side leaves, the point stays where it is and only the
basis changes, so that no cost tells one tableau from the next, and other rules
for the choice of a pivot do go round in circles. What excludes it here is an
argument about the columns.

Suppose a basis came back. No pivot on the way has changed the point, since the
cost at the end is the one at the start. Every column that entered on the way
has left as well. Take the last of these columns, and two corners on the way,
one at which it enters and one at which it leaves. Raise the column that enters
at the second one. Seen from the first one, the cost changes by a sum over
columns, and one of its terms is negative (`Turn.exists_lowering`). The column of
that term has entered on the way, so it comes before the last one. But then it
would have been chosen in place of the last one, either to enter at the first
corner or to leave at the second (`Turn.not_entering`).

There are no more bases than ways to choose as many columns as there are rows.
So many pivots are enough, and a run that is granted more ends in the same way.
Both phases of a relaxation therefore come to an end.

## Theorems

* `Turn.not_entering`: What the rule excludes.
* `basis_ne`, `nodup_visits`, `length_visits_le`: No basis comes back.
* `optimize_ends`: Pivoting ends.
* `Model.exists_relax`: Relaxations end.
-/

namespace CyclePlan

namespace Tableau

open Corner

variable {w : Nat} {allowed : Fin w → Bool} {s s' u u' v v' : Corner w} {c j : Fin w}
  {row : TableauRow Rat w} {t : Tableau Rat w} {cost : Vector Rat w}

/-! ### What the rule excludes -/

namespace Turn

/-- Seen from another corner with the same point, a pivot lowers the cost through some
    column: the one that enters, or that of a row with nothing on its right side. -/
theorem exists_lowering (hu : IsCorner t cost u) (hv : IsCorner t cost v)
    (hpoint : u.rows.point = v.rows.point) (hturn : Turn allowed u c row u') :
    ∃ j, j ∉ v.basis ∧ (j = c ∧ v.reduced.get j < 0 ∨
      ∃ other ∈ u.rows, other.basic = j ∧ other.rhs = 0 ∧ 0 < v.reduced.get j * other.coeff c) := by
  have hc := mt mem_basis_iff.mpr (hturn.not_mem_basis hu)
  have hx : v.rows.Satisfies (u.rows.complete (Pi.single c 1)) :=
    (hv.satisfies_iff _).mpr ((hu.satisfies_iff _).mp (hu.solved.complete_single hc 1))
  -- Both corners see the same change of cost on the way from the common point.
  have hchange : costOf v.reduced (u.rows.complete (Pi.single c 1)) = u.reduced.get c := by
    have hseen := hv.priced.costOf_eq hv.solved hx
    rw [hu.priced.costOf_complete_single hu.solved hturn.reduced_neg, mul_one, hpoint] at hseen
    exact (add_left_cancel hseen).symm
  obtain ⟨j, hj⟩ : ∃ j, v.reduced.get j * u.rows.complete (Pi.single c 1) j < 0 := by
    by_contra hnone
    have hsum : 0 ≤ costOf v.reduced (u.rows.complete (Pi.single c 1)) :=
      Finset.sum_nonneg fun j _ => not_lt.mp fun hlt => hnone ⟨j, hlt⟩
    exact absurd hturn.reduced_neg (not_lt.mpr (hsum.trans_eq hchange))
  have hjv : j ∉ v.basis := by
    intro hmem
    rcases mem_basis_iff.mp hmem with ⟨other, hother, rfl⟩
    rw [hv.priced.basic other hother, zero_mul] at hj
    exact lt_irrefl 0 hj
  refine ⟨j, hjv, ?_⟩
  by_cases hju : u.rows.IsBasic j
  · rcases hju with ⟨other, hother, rfl⟩
    have hzero : other.rhs = 0 := by
      rw [← hu.solved.point_basic hother, hpoint]
      exact point_of_not_isBasic (mt mem_basis_iff.mpr hjv)
    rw [hu.solved.complete_basic _ hother, hzero, other.lhs_single, mul_one, zero_sub, mul_neg,
      neg_lt_zero] at hj
    exact .inr ⟨other, hother, rfl, hzero, hj⟩
  · rw [complete_of_not_isBasic _ hju] at hj
    by_cases hjc : j = c
    · rw [hjc, Pi.single_eq_same, mul_one] at hj
      exact .inl ⟨hjc, hjc ▸ hj⟩
    · rw [Pi.single_eq_of_ne hjc, mul_zero] at hj
      exact absurd hj (lt_irrefl 0)

/-- The column that leaves at one corner does not enter at another one with the same
    point, if the columns that are basic around the first pivot and not at the second
    corner are all allowed and come no later. -/
theorem not_entering {row' : TableauRow Rat w} (hu : IsCorner t cost u)
    (hv : IsCorner t cost v) (hpoint : u.rows.point = v.rows.point)
    (hturn : Turn allowed u c row u')
    (hmoved : ∀ j, j ∉ v.basis → j = c ∨ j ∈ u.basis → allowed j = true ∧ j ≤ row.basic) :
    ¬ Turn allowed v row.basic row' v' := by
  intro hturn'
  -- A column before the last one could have entered at the second corner.
  have hearlier : ∀ j, j ∉ v.basis → j = c ∨ j ∈ u.basis → j ≠ row.basic →
      j < row.basic ∧ 0 ≤ v.reduced.get j := by
    intro j hjv hju hne
    rcases hmoved j hjv hju with ⟨hallowed, hle⟩
    have hlt := lt_of_le_of_ne hle hne
    exact ⟨hlt, hturn'.reduced_nonneg hallowed hlt⟩
  rcases hturn.exists_lowering hu hv hpoint with
    ⟨j, hjv, ⟨rfl, hneg⟩ | ⟨other, hother, rfl, hzero, hpos⟩⟩
  · have hne : j ≠ row.basic := fun heq => hturn.not_mem_basis hu (heq ▸ hturn.basic_mem)
    exact absurd hneg (not_lt.mpr (hearlier j hjv (.inl rfl) hne).2)
  · have hju := mem_basis_iff.mpr ⟨other, hother, rfl⟩
    by_cases hrow : other = row
    · rw [hrow] at hpos
      exact absurd hpos (not_lt.mpr
        (mul_nonpos_of_nonpos_of_nonneg hturn'.reduced_neg.le hturn.coeff_pos.le))
    · -- It does not enter at the second corner, so its row would have left at the first.
      have hne := mt (hu.solved.eq_of_basic hother hturn.row_mem) hrow
      rcases hearlier _ hjv (.inr hju) hne with ⟨hlt, hnonneg⟩
      have hcoeff : 0 < other.coeff c := by
        by_contra hle
        exact absurd hpos (not_lt.mpr (mul_nonpos_of_nonneg_of_nonpos hnonneg (not_lt.mp hle)))
      exact absurd hlt (not_lt.mpr (hturn.basic_le hu hother hcoeff hzero))

end Turn

/-! ### Ways -/

/-- A corner on the way from one to another. -/
structure IsBetween (allowed : Fin w → Bool) (s s' u : Corner w) : Prop where
  before : Relation.ReflTransGen (Leads allowed) s u
  after : Relation.ReflTransGen (Leads allowed) u s'

/-- A pivot on the way from one corner to another. -/
structure IsOnWay (allowed : Fin w → Bool) (s s' u : Corner w) (c : Fin w)
    (row : TableauRow Rat w) (v : Corner w) : Prop where
  before : Relation.ReflTransGen (Leads allowed) s u
  turn : Turn allowed u c row v
  after : Relation.ReflTransGen (Leads allowed) v s'

theorem IsOnWay.isBetween (h : IsOnWay allowed s s' u c row v) : IsBetween allowed s s' u :=
  ⟨h.before, .head ⟨c, row, h.turn⟩ h.after⟩

theorem IsOnWay.extend {a b : Corner w} (h : IsOnWay allowed a b u c row v)
    (hbefore : Relation.ReflTransGen (Leads allowed) s a)
    (hafter : Relation.ReflTransGen (Leads allowed) b s') : IsOnWay allowed s s' u c row v :=
  ⟨hbefore.trans h.before, h.turn, h.after.trans hafter⟩

/-- A column that comes into the basis enters on the way. -/
theorem exists_entering (hrun : Relation.ReflTransGen (Leads allowed) s s') (hj : j ∉ s.basis)
    (hj' : j ∈ s'.basis) : ∃ u row v, IsOnWay allowed s s' u j row v := by
  induction hrun with
  | refl => exact absurd hj' hj
  | @tail u v hrun hstep ih =>
      rcases hstep with ⟨c, row, hturn⟩
      rcases hturn.eq_or_mem hj' with rfl | hmem
      · exact ⟨u, row, v, hrun, hturn, .refl⟩
      · rcases ih hmem with ⟨a, row', b, hway⟩
        exact ⟨a, row', b, hway.extend .refl (.single ⟨c, row, hturn⟩)⟩

/-- A column that is lost from the basis leaves on the way. -/
theorem exists_leaving (hrun : Relation.ReflTransGen (Leads allowed) s s') (hj : j ∈ s.basis)
    (hj' : j ∉ s'.basis) : ∃ u c row v, IsOnWay allowed s s' u c row v ∧ row.basic = j := by
  induction hrun with
  | refl => exact absurd hj hj'
  | @tail u v hrun hstep ih =>
      rcases hstep with ⟨c, row, hturn⟩
      by_cases hmem : j ∈ u.basis
      · have heq := (hturn.eq_or_mem_of_mem hmem).resolve_right hj'
        exact ⟨u, c, row, v, ⟨hrun, hturn, .refl⟩, heq.symm⟩
      · rcases ih hmem with ⟨a, c', row', b, hway, heq⟩
        exact ⟨a, c', row', b, hway.extend .refl (.single ⟨c, row, hturn⟩), heq⟩

/-- If a basis comes back, no pivot on the way has changed the point, since the cost at
    the end is the one at the start. -/
theorem IsBetween.point_eq (hu : IsBetween allowed s s' u) (hs : IsCorner t cost s)
    (hbasis : s.basis = s'.basis) : u.rows.point = s.rows.point := by
  have hends := hs.point_eq_of_basis (hs.reaches (hu.before.trans hu.after)) hbasis
  refine hs.point_eq_of_cost hu.before ?_
  rw [← hends]
  exact (hs.reaches hu.before).costOf_point_le hu.after

/-- If a basis comes back, what enters on the way also leaves. -/
theorem exists_leaving_of_entering (hs : IsCorner t cost s) (hbasis : s.basis = s'.basis)
    (hway : IsOnWay allowed s s' u j row v) :
    ∃ a c row' b, IsOnWay allowed s s' a c row' b ∧ row'.basic = j := by
  by_cases hj : j ∈ s.basis
  · have hlost := hway.turn.not_mem_basis (hs.reaches hway.before)
    rcases exists_leaving hway.before hj hlost with ⟨a, c, row', b, hway', heq⟩
    exact ⟨a, c, row', b, hway'.extend .refl hway.isBetween.after, heq⟩
  · rcases exists_leaving hway.after hway.turn.mem_basis (hbasis ▸ hj) with
      ⟨a, c, row', b, hway', heq⟩
    exact ⟨a, c, row', b, hway'.extend (hway.before.tail ⟨j, row, hway.turn⟩) .refl, heq⟩

/-- If a basis comes back, a column that is basic at one corner on the way and not at
    another enters on the way. -/
theorem exists_entering_of_mem (hbasis : s.basis = s'.basis) (hu : IsBetween allowed s s' u)
    (hv : IsBetween allowed s s' v) (hj : j ∈ u.basis) (hj' : j ∉ v.basis) :
    ∃ a row b, IsOnWay allowed s s' a j row b := by
  by_cases hmem : j ∈ s.basis
  · rcases exists_entering hv.after hj' (hbasis ▸ hmem) with ⟨a, row, b, hway⟩
    exact ⟨a, row, b, hway.extend hv.before .refl⟩
  · rcases exists_entering hu.before hmem hj with ⟨a, row, b, hway⟩
    exact ⟨a, row, b, hway.extend .refl hu.after⟩

/-- No basis comes back. -/
theorem basis_ne (hs : IsCorner t cost s) (hrun : Relation.TransGen (Leads allowed) s s') :
    s.basis ≠ s'.basis := by
  intro hbasis
  -- Of the columns that enter on the way, the last one is looked at.
  rcases Relation.TransGen.head'_iff.mp hrun with ⟨s₁, ⟨c₁, row₁, hfirst⟩, hrest⟩
  rcases (wellFounded_gt : WellFounded fun i j : Fin w => i > j).has_min
    {j | ∃ u row v, IsOnWay allowed s s' u j row v} ⟨c₁, s, row₁, s₁, .refl, hfirst, hrest⟩ with
    ⟨m, ⟨v, rowV, v', hv⟩, hlast⟩
  rcases exists_leaving_of_entering hs hbasis hv with ⟨u, c, row, u', hu, rfl⟩
  have hpoint := (hu.isBetween.point_eq hs hbasis).trans (hv.isBetween.point_eq hs hbasis).symm
  refine hu.turn.not_entering (hs.reaches hu.before) (hs.reaches hv.before) hpoint ?_ hv.turn
  intro j hjv hju
  obtain ⟨a, rowA, b, ha⟩ : ∃ a rowA b, IsOnWay allowed s s' a j rowA b := by
    rcases hju with rfl | hju
    · exact ⟨u, row, u', hu⟩
    · exact exists_entering_of_mem hbasis hu.isBetween hv.isBetween hju hjv
  exact ⟨ha.turn.isAllowed, not_lt.mp (hlast j ⟨a, rowA, b, ha⟩)⟩

/-! ### The number of pivots -/

/-- The corners that a run visits have different bases. -/
theorem nodup_visits (hs : IsCorner t cost s) (pivots : Nat) :
    ((visits allowed pivots s).map basis).Nodup := by
  induction pivots generalizing s with
  | zero => exact List.nodup_singleton _
  | succ pivots ih =>
      rw [visits]
      split
      · exact List.nodup_singleton _
      · next s' hnext =>
        have hstep := next?_eq_some_iff.mp hnext
        rw [List.map_cons, List.nodup_cons, List.mem_map]
        refine ⟨?_, ih (hs.reaches (.single hstep))⟩
        rintro ⟨u, hu, heq⟩
        exact basis_ne hs (.head' hstep (reaches_of_mem_visits hu)) heq.symm

/-- There are no more of them than ways to choose a basis. -/
theorem length_visits_le (allowed : Fin w → Bool) (hs : IsCorner t cost s) (pivots : Nat) :
    (visits allowed pivots s).length ≤ w.choose t.length := by
  have hsub : ((visits allowed pivots s).map basis).toFinset ⊆
      Finset.powersetCard t.length Finset.univ := by
    intro b hb
    rcases List.mem_map.mp (List.mem_toFinset.mp hb) with ⟨u, hu, rfl⟩
    exact Finset.mem_powersetCard.mpr
      ⟨Finset.subset_univ _, (hs.reaches (reaches_of_mem_visits hu)).card_basis⟩
  have hcard := Finset.card_le_card hsub
  rwa [List.toFinset_card_of_nodup (nodup_visits hs pivots), List.length_map,
    Finset.card_powersetCard, Finset.card_univ, Fintype.card_fin] at hcard

theorem verdict_ne_stalled (s : Corner w) : s.verdict allowed ≠ .stalled := by
  rw [verdict]
  cases entering? .exact allowed s.reduced with
  | none => exact fun h => by cases h
  | some c => exact fun h => by cases h

theorem optimize_eq (pivots : Nat) :
    t.optimize .exact pivots cost allowed =
      if (visits allowed pivots (start t cost)).length = pivots + 1 then .stalled
      else ((visits allowed pivots (start t cost)).getLastD (start t cost)).verdict allowed :=
  optimizeFrom_eq pivots (start t cost)

/-- With as many pivots as there are ways to choose a basis, or more, there is one answer. -/
theorem exists_optimize (hsolved : t.IsSolved) (hrhs : ∀ row ∈ t, 0 ≤ row.rhs)
    (cost : Vector Rat w) (allowed : Fin w → Bool) :
    ∃ answer, answer ≠ .stalled ∧ ∀ pivots, w.choose t.length ≤ pivots →
      t.optimize .exact pivots cost allowed = answer := by
  have hstart := start_isCorner hsolved hrhs cost
  have hlength := length_visits_le allowed hstart (w.choose t.length)
  refine ⟨((visits allowed (w.choose t.length) (start t cost)).getLastD (start t cost)).verdict
    allowed, verdict_ne_stalled _, fun pivots hpivots => ?_⟩
  rw [optimize_eq, visits_of_le hlength hpivots, if_neg (by omega)]

/-- Pivoting by Bland's rule ends. How a run ends is told by the corners that it visits, from
    the tableau that it starts with on. If that one is solved for its basic columns and has
    no negative right-hand side, all of them are so, and no two of them have the same basis.
    There is an answer that pivoting comes to whenever it is granted as many pivots as there
    are ways to choose a basis, or more. -/
theorem optimize_ends (hsolved : t.IsSolved) (hrhs : ∀ row ∈ t, 0 ≤ row.rhs)
    (cost : Vector Rat w) (allowed : Fin w → Bool) :
    (∀ pivots, t.optimize .exact pivots cost allowed =
        if (visits allowed pivots (start t cost)).length = pivots + 1 then .stalled
        else ((visits allowed pivots (start t cost)).getLastD (start t cost)).verdict allowed) ∧
      (∀ pivots, ∀ s ∈ visits allowed pivots (start t cost),
        s.rows.IsSolved ∧ ∀ row ∈ s.rows, 0 ≤ row.rhs) ∧
      (∀ pivots, ((visits allowed pivots (start t cost)).map basis).Nodup) ∧
      ∃ answer, answer ≠ .stalled ∧ ∀ pivots, w.choose t.length ≤ pivots →
        t.optimize .exact pivots cost allowed = answer := by
  have hstart := start_isCorner hsolved hrhs cost
  refine ⟨fun _ => optimize_eq _, fun pivots s hs => ?_, nodup_visits hstart,
    exists_optimize hsolved hrhs cost allowed⟩
  have hcorner := hstart.reaches (reaches_of_mem_visits hs)
  exact ⟨hcorner.solved, hcorner.nonneg⟩

/-- A tableau whose first six pivots all stay at one point. -/
def degenerate : Tableau Rat 7 :=
  [⟨#v[1 / 2, -11 / 2, -5 / 2, 9, 1, 0, 0], 0, 4⟩, ⟨#v[1 / 2, -3 / 2, -1 / 2, 1, 0, 1, 0], 0, 5⟩,
    ⟨#v[1, 0, 0, 0, 0, 0, 1], 1, 6⟩]

/-- Costs that only the last pivot lowers. -/
def degenerateCost : Vector Rat 7 := #v[-10, 57, 9, 24, 0, 0, 0]

theorem optimize_ends_degenerate :
    degenerate.IsSolved ∧ (∀ row ∈ degenerate, 0 ≤ row.rhs) ∧
      (visits (fun _ => true) 35 (start degenerate degenerateCost)).map
          (fun s => s.rows.map fun row => (row.basic, row.rhs)) =
        [[(4, 0), (5, 0), (6, 1)], [(0, 0), (5, 0), (6, 1)], [(0, 0), (1, 0), (6, 1)],
          [(2, 0), (1, 0), (6, 1)], [(2, 0), (3, 0), (6, 1)], [(4, 0), (3, 0), (6, 1)],
          [(4, 0), (0, 0), (6, 1)], [(4, 2), (0, 1), (2, 1)]] ∧
      ((visits (fun _ => true) 35 (start degenerate degenerateCost)).map basis).Nodup ∧
      ∃ answer, answer ≠ .stalled ∧ ∀ pivots, Nat.choose 7 3 ≤ pivots →
        degenerate.optimize .exact pivots degenerateCost (fun _ => true) = answer := by
  have hsolved : degenerate.IsSolved := by decide +kernel
  have hrhs : ∀ row ∈ degenerate, 0 ≤ row.rhs := by decide +kernel
  rcases optimize_ends hsolved hrhs degenerateCost fun _ => true with ⟨_, _, hnodup, hanswer⟩
  exact ⟨hsolved, hrhs, by decide +kernel, hnodup 35, hanswer⟩

end Tableau

/-! ### Relaxations -/

namespace StandardForm

variable {s : StandardForm Rat}

/-- The first phase comes to one answer if it is granted enough pivots. -/
theorem exists_phaseOne (hfit : s.IsFit) :
    ∃ answer enough, answer ≠ .stalled ∧ ∀ pivots, enough ≤ pivots →
      s.phaseOne .exact pivots = answer := by
  have hreached := tableau_isReached hfit
  rcases Tableau.exists_optimize hreached.solved hreached.nonneg s.phaseOneCost fun _ => true with
    ⟨answer, hends, hanswer⟩
  by_cases hnone : s.artificials = 0
  · exact ⟨.reached s.tableau, 0, (fun h => by cases h), fun _ _ => by rw [phaseOne, if_pos hnone]⟩
  · have hone : ∀ pivots, s.width.choose s.tableau.length ≤ pivots →
        s.phaseOne .exact pivots = s.phaseOne .exact (s.width.choose s.tableau.length) := by
      intro pivots hpivots
      rw [phaseOne, phaseOne, if_neg hnone, if_neg hnone, hanswer pivots hpivots,
        hanswer _ (Nat.le_refl _)]
    refine ⟨_, _, ?_, hone⟩
    rw [phaseOne, if_neg hnone, hanswer _ (Nat.le_refl _)]
    cases answer with
    | stalled => exact absurd rfl hends
    | optimal t | unbounded t =>
        dsimp only
        split
        · exact fun h => by cases h
        · exact fun h => by cases h

end StandardForm

namespace Model

open StandardForm

/-- A relaxation comes to one answer if it is granted enough pivots. -/
theorem exists_relax (m : Model Rat) (box : Box Rat) :
    ∃ answer enough, answer ≠ .stalled ∧ ∀ pivots, enough ≤ pivots →
      m.relax .exact pivots box = answer := by
  have hfit := ofModel_isFit m box
  by_cases hempty : box.any (·.isEmpty .exact) = true
  · exact ⟨.infeasible, 0, (fun h => by cases h), fun _ _ => by rw [relax, if_pos hempty]⟩
  · rcases exists_phaseOne hfit with ⟨one, enough, hends, hone⟩
    cases one with
    | stalled => exact absurd rfl hends
    | infeasible =>
        refine ⟨.infeasible, enough, (fun h => by cases h), fun pivots hpivots => ?_⟩
        simp only [relax, if_neg hempty, hone pivots hpivots]
    | reached t =>
        have hready := phaseOne_cases hfit enough
        rw [hone enough (Nat.le_refl _)] at hready
        rcases Tableau.exists_optimize hready.solved hready.nonneg
          ((ofModel m box).phaseTwoCost m.objective)
          (fun j => j.val < (ofModel m box).firstArtificial) with ⟨two, hends', htwo⟩
        let both := max enough ((ofModel m box).width.choose t.length)
        have hone' : ∀ pivots, both ≤ pivots →
            (ofModel m box).phaseOne .exact pivots = .reached t :=
          fun pivots hpivots => hone pivots (le_of_max_le_left hpivots)
        have htwo' : ∀ pivots, both ≤ pivots → t.optimize .exact pivots
            ((ofModel m box).phaseTwoCost m.objective)
            (fun j => j.val < (ofModel m box).firstArtificial) = two :=
          fun pivots hpivots => htwo pivots (le_of_max_le_right hpivots)
        refine ⟨m.relax .exact both box, both, ?_, fun pivots hpivots => ?_⟩
        · simp only [relax, if_neg hempty, hone' both (Nat.le_refl _), htwo' both (Nat.le_refl _)]
          cases two with
          | stalled => exact absurd rfl hends'
          | optimal _ | unbounded _ => exact fun h => by cases h
        · simp only [relax, if_neg hempty, hone' both (Nat.le_refl _), htwo' both (Nat.le_refl _),
            hone' pivots hpivots, htwo' pivots hpivots]

end Model

end CyclePlan
