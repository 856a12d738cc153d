import CyclePlan.Proofs.Simplex.Differences
import CyclePlan.Proofs.Lp.BranchAndBound

/-!
# Values That Pass for Whole

Where a search with tolerances answers as one without.

A search takes values for whole that are nearly so, and rounds them when it
answers. In general this moves them off the constraints. In a difference model it
does not: boxes have whole bounds from the first one on, since splitting keeps
bounds whole (`IsWholePart.split`), so the values that relaxations answer are on
the grid of the model. If no tolerance reaches from one multiple to the next, a
value on the grid that passes for whole is whole.

## Main definitions

* `IsWholePart`: A part of the first box, with whole bounds.

## Theorems

* `rootBounds_eq`: Whole bounds are not moved.
* `IsWholePart.split`: What splitting keeps.
* `exists_isIntegralPoint_of_solve`: What is answered is an integral point.
-/

namespace CyclePlan

namespace BranchAndBound

variable {m : Model Rat} {D : Nat} {tol : Tolerances Rat} {tolerance x : Rat}
  {root box : Box Rat} {values : List Rat} {j : Nat}

/-- A value on the grid that is nearly whole is whole. -/
theorem round_eq_of_onGrid (hx : OnGrid D x) (hD : 0 < D) (hsmall : IsSmall D tolerance)
    (h : |x - Scalar.round x| ≤ tolerance) : Scalar.round x = x := by
  have hgrid : OnGrid D (x - Scalar.round x) := hx.sub (.intCast (Scalar.roundRat x))
  exact (sub_eq_zero.mp ((hgrid.abs_le_iff hD hsmall).mp h)).symm

/-! ### Whole bounds -/

theorem ceil_sub_eq (n : Int) (hnonneg : 0 ≤ tolerance) (hlt : tolerance < 1) :
    Scalar.ceil ((n : Rat) - tolerance) = n := by
  refine congrArg Int.cast (le_antisymm (Rat.ceil_le_iff.mpr (sub_le_self _ hnonneg)) ?_)
  rw [← Int.sub_one_lt_iff, Rat.lt_ceil_iff]
  push_cast
  linarith

theorem floor_add_eq (n : Int) (hnonneg : 0 ≤ tolerance) (hlt : tolerance < 1) :
    Scalar.floor ((n : Rat) + tolerance) = n := by
  refine congrArg Int.cast (le_antisymm ?_ (Rat.le_floor_iff.mpr (le_add_of_nonneg_right hnonneg)))
  rw [← Int.lt_add_one_iff, Rat.floor_lt_iff]
  push_cast
  linarith

/-- Whole bounds are not moved. -/
theorem rootBounds_eq {v : Variable Rat} (h : Bounds.IsWhole ⟨v.lower, v.upper⟩)
    (hnonneg : 0 ≤ tolerance) (hlt : tolerance < 1) :
    rootBounds tolerance v = ⟨v.lower, v.upper⟩ := by
  rw [rootBounds]
  split
  · rcases h.lower with ⟨l, hl, hgrid⟩
    rcases OnGrid.one_iff.mp hgrid with ⟨n, rfl⟩
    dsimp only at hl
    rw [hl, Option.map_some, ceil_sub_eq n hnonneg hlt]
    cases hu : v.upper with
    | none => rfl
    | some u =>
        rcases OnGrid.one_iff.mp (h.upper u hu) with ⟨k, rfl⟩
        rw [Option.map_some, floor_add_eq k hnonneg hlt]
  · rfl

/-- The first box of a model with whole bounds holds these bounds. -/
theorem rootBox_eq (h : ∀ v ∈ m.vars, Bounds.IsWhole ⟨v.lower, v.upper⟩)
    (hnonneg : 0 ≤ tolerance) (hlt : tolerance < 1) :
    rootBox tolerance m = m.vars.map fun v => ⟨v.lower, v.upper⟩ :=
  List.map_congr_left fun v hv => rootBounds_eq (h v hv) hnonneg hlt

theorem isWhole_rootBox (h : ∀ v ∈ m.vars, Bounds.IsWhole ⟨v.lower, v.upper⟩)
    (hnonneg : 0 ≤ tolerance) (hlt : tolerance < 1) : ∀ b ∈ rootBox tolerance m, b.IsWhole := by
  rw [rootBox_eq h hnonneg hlt]
  exact List.forall_mem_map.mpr h

theorem forall_mem_modify {α : Type} {P : α → Prop} {f : α → α} {l : List α}
    (h : ∀ a ∈ l, P a) (hf : ∀ a, P a → P (f a)) (j : Nat) : ∀ a ∈ l.modify j f, P a := by
  intro a ha
  rcases List.mem_iff_getElem?.mp ha with ⟨i, hi⟩
  rw [List.getElem?_modify] at hi
  rcases Option.map_eq_some_iff.mp hi with ⟨b, hb, rfl⟩
  have hmem := List.mem_of_getElem? hb
  split
  · exact hf b (h b hmem)
  · exact h b hmem

/-- A part of a box, with whole bounds. -/
structure IsWholePart (root box : Box Rat) : Prop extends IsPart root box where
  whole : ∀ b ∈ box, b.IsWhole

/-- Splitting keeps bounds whole. -/
theorem IsWholePart.split (h : IsWholePart root box)
    (hvalues : List.Forall₂ Bounds.Admits box values) (hx : values[j]? = some x) :
    IsWholePart root (split box j x).1 ∧ IsWholePart root (split box j x).2 := by
  have hbelow : ∀ b : Bounds Rat, b.IsWhole →
      Bounds.IsWhole { b with upper := some (Scalar.floor x) } := by
    refine fun b hb => ⟨hb.lower, fun u hu => ?_⟩
    cases hu
    exact .intCast x.floor
  have habove : ∀ b : Bounds Rat, b.IsWhole →
      Bounds.IsWhole { b with lower := some (Scalar.floor x + 1) } := fun b hb =>
    ⟨⟨_, rfl, (OnGrid.intCast x.floor).add (.intCast 1)⟩, hb.upper⟩
  rcases h.toIsPart.split hvalues hx with ⟨hpart, hpart'⟩
  exact ⟨⟨hpart, forall_mem_modify h.whole hbelow j⟩, ⟨hpart', forall_mem_modify h.whole habove j⟩⟩

/-! ### Answers -/

/-- What a relaxation within whole bounds answers. -/
theorem isBestWithin_of_isDifferential (h : m.IsDifferential D) (htol : tol.IsFine D)
    (hwhole : ∀ b ∈ box, b.IsWhole) {pivots : Nat} {objective : Rat}
    (answer : m.relax tol pivots box = .optimal values objective) :
    m.IsBestWithin box values ∧ ∀ x ∈ values, OnGrid D x := by
  rcases h.relax_eq hwhole htol pivots with ⟨hsame, hgrid⟩
  rw [hsame] at answer
  have hexact := m.relax_isExact box pivots
  rw [answer] at hexact
  exact ⟨hexact.1, hgrid values objective answer⟩

/-- If the grid of a difference model is coarser than all tolerances, what is answered
    is an integral point. -/
theorem exists_isIntegralPoint_of_solve (h : m.IsDifferential D) (htol : tol.IsFine D)
    {config : SearchConfig Rat} (hsmall : IsSmall D config.tolerance) (pivots : Nat)
    (hassign : (solve (Model.relax tol pivots) config m).status.hasAssignment = true) :
    ∃ values, (solve (Model.relax tol pivots) config m).Carries m (fun v => values.getD v 0) ∧
      m.IsIntegralPoint values := by
  have hone : config.tolerance < 1 := by
    have hD : (1 : Rat) ≤ D := Nat.one_le_cast.mpr htol.pos
    exact (le_mul_of_one_le_right hsmall.nonneg hD).trans_lt hsmall.lt
  have hroot : IsWholePart (rootBox 0 m) (rootBox config.tolerance m) := by
    have hsame : rootBox 0 m = rootBox config.tolerance m :=
      (rootBox_eq h.bounds (le_refl 0) one_pos).trans (rootBox_eq h.bounds hsmall.nonneg hone).symm
    rw [hsame]
    exact ⟨⟨rfl, fun _ hin => hin⟩, isWhole_rootBox h.bounds hsmall.nonneg hone⟩
  have hsplit : ∀ box values objective j x, IsWholePart (rootBox 0 m) box →
      m.relax tol pivots box = .optimal values objective →
        fractional? config.tolerance m values = some (j, x) →
          IsWholePart (rootBox 0 m) (split box j x).1 ∧
            IsWholePart (rootBox 0 m) (split box j x).2 := by
    intro box values objective j x hpart answer hfraction
    rcases isBestWithin_of_isDifferential h htol hpart.whole answer with ⟨hbest, _⟩
    rcases exists_of_fractional? hfraction with ⟨v, _, hx, _⟩
    exact hpart.split hbest.within hx
  rcases exists_isFrom_of_solve config hsplit hroot hassign with
    ⟨b, status, nodes, ⟨box, objective, hpart, answer, hnearly, _⟩, heq⟩
  rcases isBestWithin_of_isDifferential h htol hpart.whole answer with ⟨hbest, hgrid⟩
  -- Whatever passes for whole is whole.
  have hround : ∀ (i : Nat) (v : Variable Rat) (x : Rat), m.vars[i]? = some v →
      b.values[i]? = some x → v.isIntegral = true → Scalar.round x = x :=
    fun i v x hv hx hkind => round_eq_of_onGrid (hgrid x (List.mem_of_getElem? hx)) htol.pos hsmall
      (abs_sub_round_le hnearly hv hx hkind)
  have hpoint := isIntegralPoint_of_rootBox ⟨hpart.within _ hbest.within, hbest.meets⟩ hround
  refine ⟨b.values, ?_, hpoint⟩
  rw [heq]
  exact carries_solutionOf hpoint.length hround status nodes b.bound

end BranchAndBound

end CyclePlan
