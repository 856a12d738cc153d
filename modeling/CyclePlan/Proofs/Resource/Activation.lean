import Mathlib.Algebra.BigOperators.Group.Finset.Piecewise
import Mathlib.Algebra.Order.BigOperators.Group.Finset
import CyclePlan.Proofs.Lp.Extension
import CyclePlan.Proofs.Resource.Trial
import CyclePlan.Resource.TimeIndexed

/-!
# Activations

A start cycle, spelled out in variables that are zero or one.

A node of a limited class has one activation for every cycle up to its horizon, and
two rows tie them down: their sum is one, and weighted with their cycles they add up
to the start cycle. Whole numbers between zero and one leave a single way to do
this. One activation is one, its cycle is the start cycle, and the others are zero
(`activations_iff`). A sum of activations over nodes is then a number of nodes that
start in a cycle (`share_holds_iff`), which is what a capacity bounds.

## Main definitions

* `activation`: The variable of a node and a cycle.
* `Row.once`, `Row.link`, `Row.share`: The three kinds of rows.
* `StartsWithin`: A start cycle with the activations that go with it.

## Theorems

* `activations_iff`: What the activations of a node are.
* `share_holds_iff`: What a row over nodes means.
-/

namespace CyclePlan

/-! ### Variables and rows -/

/-- The variable that says that a node starts in a cycle. -/
def activation (node : String) (t : Nat) : Variable Rat :=
  ⟨startsAtVar node t, .binary, some 0, some 1⟩

/-- The activations of a node up to a horizon. -/
def activations (horizon : Nat) (node : String) : List (Variable Rat) :=
  (List.range (horizon + 1)).map (activation node)

namespace Row

/-- A node starts once. -/
def once (horizon : Nat) (node : String) : Row :=
  ⟨(List.range (horizon + 1)).map fun t => (startsAtVar node t, 1), .eq, 1⟩

/-- A node starts in the cycle of its activation. -/
def link (horizon : Nat) (node : String) : Row :=
  ⟨(startVar node, 1) ::
    (List.range (horizon + 1)).map fun t => (startsAtVar node t, -Scalar.ofInt t), .eq, 0⟩

/-- No more nodes start in a cycle than there are units. -/
def share (nodes : List String) (capacity t : Nat) : Row :=
  ⟨nodes.map fun n => (startsAtVar n t, 1), .le, Scalar.ofInt capacity⟩

end Row

variable {horizon capacity t : Nat} {node : String} {nodes : List String} {y : String → Rat}

/-- A variable between zero and one that is whole is zero or one. -/
theorem activation_iff {x : Rat} :
    ((activation node t).Admits x ∧ ∃ k : Int, x = k) ↔ x = 0 ∨ x = 1 := by
  constructor
  · rintro ⟨hadmits, k, rfl⟩
    have hlower : (0 : Rat) ≤ k := hadmits.above 0 rfl
    have hupper : (k : Rat) ≤ 1 := hadmits.below 1 rfl
    have hlower' : 0 ≤ k := by exact_mod_cast hlower
    have hupper' : k ≤ 1 := by exact_mod_cast hupper
    have hcases : k = 0 ∨ k = 1 := by omega
    exact hcases.imp (fun h => by rw [h, Int.cast_zero]) fun h => by rw [h, Int.cast_one]
  · have hadmits : ∀ {x : Rat}, 0 ≤ x → x ≤ 1 → (activation node t).Admits x := by
      intro x hlower hupper
      refine ⟨fun l hl => ?_, fun u hu => ?_⟩
      · cases hl
        exact hlower
      · cases hu
        exact hupper
    rintro (rfl | rfl)
    · exact ⟨hadmits (le_refl 0) (by norm_num), 0, Int.cast_zero.symm⟩
    · exact ⟨hadmits (by norm_num) (le_refl 1), 1, Int.cast_one.symm⟩

theorem once_holds_iff :
    (Row.once horizon node).Holds y ↔
      ∑ t ∈ Finset.range (horizon + 1), y (startsAtVar node t) = 1 := by
  simp only [Row.Holds, Row.once, Relation.Holds, Row.sum, List.map_map, Function.comp_def, one_mul]
  exact Iff.rfl

theorem link_holds_iff :
    (Row.link horizon node).Holds y ↔
      y (startVar node) = ∑ t ∈ Finset.range (horizon + 1), t * y (startsAtVar node t) := by
  have hsum : ∑ t ∈ Finset.range (horizon + 1), -(t : Rat) * y (startsAtVar node t)
      = -∑ t ∈ Finset.range (horizon + 1), (t : Rat) * y (startsAtVar node t) := by
    rw [← Finset.sum_neg_distrib]
    exact Finset.sum_congr rfl fun t _ => by ring
  have hterms : ((List.range (horizon + 1)).map fun t : Nat =>
      -(Scalar.ofInt (t : Int) : Rat) * y (startsAtVar node t)).sum
        = ∑ t ∈ Finset.range (horizon + 1), -(t : Rat) * y (startsAtVar node t) := rfl
  simp only [Row.Holds, Row.link, Relation.Holds, Row.sum, List.map_cons, List.sum_cons,
    List.map_map, Function.comp_def, one_mul]
  rw [hterms, hsum, ← sub_eq_add_neg, sub_eq_zero]

/-- A node starts in a cycle up to the horizon, and its activations say so. -/
structure StartsWithin (horizon : Nat) (node : String) (y : String → Rat) : Prop where
  start : ∃ t ≤ horizon, y (startVar node) = t
  active : ∀ t ≤ horizon, y (startsAtVar node t) = if y (startVar node) = t then 1 else 0

/-- Bits that add up to one are zero but for one of them. -/
theorem exists_single_bit {f : Nat → Rat} (hbit : ∀ t ≤ horizon, f t = 0 ∨ f t = 1)
    (hsum : ∑ t ∈ Finset.range (horizon + 1), f t = 1) :
    ∃ t ≤ horizon, ∀ u ≤ horizon, f u = if t = u then 1 else 0 := by
  -- If all were zero, so would be their sum.
  have hsome : ∃ t ≤ horizon, f t = 1 := by
    by_contra hnone
    push Not at hnone
    have hzero : ∑ t ∈ Finset.range (horizon + 1), f t = 0 := Finset.sum_eq_zero fun t ht =>
      have hle := Finset.mem_range_succ_iff.mp ht
      (hbit t hle).resolve_right (hnone t hle)
    rw [hzero] at hsum
    exact zero_ne_one hsum
  rcases hsome with ⟨t, ht, hone⟩
  -- The others share what is left of one, and that is nothing.
  have hrest : ∑ u ∈ (Finset.range (horizon + 1)).erase t, f u = 0 := by
    rw [Finset.sum_erase_eq_sub (Finset.mem_range_succ_iff.mpr ht), hsum, hone, sub_self]
  have hsign : ∀ u ∈ (Finset.range (horizon + 1)).erase t, 0 ≤ f u := by
    intro u hu
    rcases hbit u (Finset.mem_range_succ_iff.mp (Finset.mem_of_mem_erase hu)) with h | h
    · rw [h]
    · rw [h]
      exact zero_le_one
  refine ⟨t, ht, fun u hu => ?_⟩
  split
  · next heq => rw [← heq, hone]
  · next hne =>
    exact (Finset.sum_eq_zero_iff_of_nonneg hsign).mp hrest u
      (Finset.mem_erase.mpr ⟨Ne.symm hne, Finset.mem_range_succ_iff.mpr hu⟩)

/-- A single bit picks one value out of a sum. -/
theorem sum_single_bit {f g : Nat → Rat} (ht : t ≤ horizon)
    (hf : ∀ u ≤ horizon, f u = if t = u then 1 else 0) :
    ∑ u ∈ Finset.range (horizon + 1), g u * f u = g t := by
  rw [Finset.sum_congr rfl fun u hu => by
      rw [hf u (Finset.mem_range_succ_iff.mp hu), mul_ite, mul_one, mul_zero],
    Finset.sum_ite_eq, if_pos (Finset.mem_range_succ_iff.mpr ht)]

/-- Whole activations in their bounds keep the two rows of a node exactly if they
    spell out its start cycle. -/
theorem activations_iff :
    ((∀ w ∈ activations horizon node, w.Admits (y w.name) ∧ ∃ k : Int, y w.name = k) ∧
        (Row.once horizon node).Holds y ∧ (Row.link horizon node).Holds y) ↔
      StartsWithin horizon node y := by
  have hbits : (∀ w ∈ activations horizon node, w.Admits (y w.name) ∧ ∃ k : Int, y w.name = k) ↔
      ∀ t ≤ horizon, y (startsAtVar node t) = 0 ∨ y (startsAtVar node t) = 1 := by
    rw [activations, List.forall_mem_map]
    refine forall_congr' fun t => ?_
    rw [List.mem_range, Nat.lt_succ_iff]
    exact imp_congr_right fun _ => activation_iff
  rw [hbits, once_holds_iff, link_holds_iff]
  constructor
  · rintro ⟨hbit, honce, hlink⟩
    rcases exists_single_bit hbit honce with ⟨t, ht, hsingle⟩
    rw [sum_single_bit ht hsingle] at hlink
    refine ⟨⟨t, ht, hlink⟩, fun u hu => ?_⟩
    simp only [hlink, Nat.cast_inj]
    exact hsingle u hu
  · rintro ⟨⟨t, ht, hstart⟩, hactive⟩
    have hsingle : ∀ u ≤ horizon, y (startsAtVar node u) = if t = u then 1 else 0 := by
      intro u hu
      simp only [hactive u hu, hstart, Nat.cast_inj]
    refine ⟨fun u hu => ?_, ?_, ?_⟩
    · rw [hsingle u hu]
      split
      · exact .inr rfl
      · exact .inl rfl
    · have hone := sum_single_bit (g := fun _ => 1) ht hsingle
      simpa only [one_mul] using hone
    · rw [sum_single_bit ht hsingle, hstart]

theorem StartsWithin.bounds (h : StartsWithin horizon node y) :
    0 ≤ y (startVar node) ∧ y (startVar node) ≤ horizon := by
  rcases h.start with ⟨t, ht, hstart⟩
  rw [hstart]
  exact ⟨Nat.cast_nonneg t, by exact_mod_cast ht⟩

/-- Activations add up to the number of nodes that start in their cycle. -/
theorem sum_share (h : ∀ n ∈ nodes, StartsWithin horizon n y) (ht : t ≤ horizon) :
    Row.sum (Row.share nodes capacity t).terms y
      = nodes.countP (fun n => y (startVar n) == t) := by
  rw [Row.sum, Row.share, List.map_map]
  induction nodes with
  | nil => rfl
  | cons n nodes ih =>
      rw [List.forall_mem_cons] at h
      rw [List.map_cons, List.sum_cons, ih h.2, Function.comp_apply, one_mul, h.1.active t ht,
        List.countP_cons, Nat.cast_add]
      by_cases heq : y (startVar n) = t
      · simp only [heq, beq_self_eq_true, if_true, Nat.cast_one, add_comm]
      · simp only [heq, beq_eq_false_iff_ne.mpr heq, Bool.false_eq_true, if_false, Nat.cast_zero,
          add_comm]

/-- A row over nodes bounds how many of them start in its cycle. -/
theorem share_holds_iff (h : ∀ n ∈ nodes, StartsWithin horizon n y) (ht : t ≤ horizon) :
    (Row.share nodes capacity t).Holds y ↔
      nodes.countP (fun n => y (startVar n) == t) ≤ capacity := by
  rw [Row.Holds, sum_share h ht]
  exact Nat.cast_le

end CyclePlan
