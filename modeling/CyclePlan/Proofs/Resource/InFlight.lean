import Mathlib.Algebra.BigOperators.Group.Finset.Basic
import Mathlib.Data.List.FinRange
import Mathlib.Data.List.Nodup
import CyclePlan.Proofs.Resource.Columns
import CyclePlan.Proofs.Resource.TimeIndexed
import CyclePlan.Resource.Ordering

/-!
# Operations in Flight

How many operations are under way at once if each waits for the one some places
before it.

A list in which every item waits for the one `k` places before it falls into `k`
chains, one for each residue of the places. Along a chain an item ends before the
next one starts, so at no time are two items of one chain in flight
(`finish_le_start_of_chain`). Items that are in flight at the same time therefore
have different residues, of which there are `k` (`countP_inFlight_le`). Items of
different chains may start in any order. With a capacity of nothing every item waits
for itself, and then none takes any time.

The list is that of the operations of a class in a block, as an order of the view has
them. What is counted on it is counted on the graph, since operations that need a
unit are never taken out of the view (`View.countP_orderedUnits`).

## Main definitions

* `Operation.competes`: An operation needs a unit of a class in a block.

## Theorems

* `mem_pairsAtDistance_iff`, `length_pairsAtDistance`: Which pairs there are.
* `countP_inFlight_le`: How many items are in flight.
* `View.countP_nodes`, `View.countP_orderedUnits`: Counting on the graph.
* `length_waitingPairs`: How many operations wait.
-/

namespace CyclePlan

/-! ### Chains -/

section

variable {β : Type} {k : Nat} {xs : List β} {start finish : β → Rat}

/-- The pairs at a distance are given by the place of the first item. -/
theorem mem_pairsAtDistance_iff {p : β × β} :
    p ∈ pairsAtDistance k xs ↔ ∃ i, xs[i]? = some p.1 ∧ xs[i + k]? = some p.2 := by
  rw [pairsAtDistance, List.mem_iff_getElem?]
  refine exists_congr fun i => ?_
  rw [List.getElem?_zip_eq_some, List.getElem?_drop, Nat.add_comm k i]

theorem length_pairsAtDistance (k : Nat) (xs : List β) :
    (pairsAtDistance k xs).length = xs.length - k := by
  rw [pairsAtDistance, List.length_zip, List.length_drop]
  exact Nat.min_eq_right (Nat.sub_le _ _)

/-- An item ends before any later one of its chain starts. -/
theorem finish_le_start_of_chain (hlasts : ∀ n ∈ xs, start n ≤ finish n)
    (hwaits : ∀ p ∈ pairsAtDistance k xs, finish p.1 ≤ start p.2) {i : Nat} {a b : β} (m : Nat)
    (ha : xs[i]? = some a) (hb : xs[i + (m + 1) * k]? = some b) : finish a ≤ start b := by
  induction m generalizing b with
  | zero =>
      rw [Nat.zero_add, Nat.one_mul] at hb
      exact hwaits (a, b) (mem_pairsAtDistance_iff.mpr ⟨i, ha, hb⟩)
  | succ m ih =>
      -- The item before the last one is there as well, and the last one waits for it.
      have hplace : i + (m + 1 + 1) * k = i + (m + 1) * k + k := by
        rw [Nat.succ_mul (m + 1), Nat.add_assoc]
      rw [hplace] at hb
      have hlt : i + (m + 1) * k < xs.length := by
        have hlast := (List.getElem?_eq_some_iff.mp hb).1
        omega
      have hc := List.getElem?_eq_getElem hlt
      calc finish a ≤ start xs[i + (m + 1) * k] := ih hc
        _ ≤ finish xs[i + (m + 1) * k] := hlasts _ (List.getElem_mem hlt)
        _ ≤ start b := hwaits (_, b) (mem_pairsAtDistance_iff.mpr ⟨_, hc, hb⟩)

/-- So of two items with the same residue, the first ends before the second starts. -/
theorem finish_le_start_of_mod_eq (hlasts : ∀ n ∈ xs, start n ≤ finish n)
    (hwaits : ∀ p ∈ pairsAtDistance k xs, finish p.1 ≤ start p.2) {i j : Nat} {a b : β}
    (hlt : i < j) (hmod : i % k = j % k) (ha : xs[i]? = some a) (hb : xs[j]? = some b) :
    finish a ≤ start b := by
  rcases Nat.dvd_of_mod_eq_zero (Nat.sub_mod_eq_zero_of_mod_eq hmod.symm) with ⟨m, hm⟩
  cases m with
  | zero =>
      rw [Nat.mul_zero] at hm
      omega
  | succ m =>
      have hplace : j = i + (m + 1) * k := by
        rw [Nat.mul_comm, ← hm]
        omega
      rw [hplace] at hb
      exact finish_le_start_of_chain hlasts hwaits m ha hb

/-- At no time are more items in flight than there are chains. -/
theorem countP_inFlight_le (hlasts : ∀ n ∈ xs, start n ≤ finish n)
    (hwaits : ∀ p ∈ pairsAtDistance k xs, finish p.1 ≤ start p.2) (time : Rat) :
    xs.countP (fun n => decide (start n ≤ time ∧ time < finish n)) ≤ k := by
  let flying (n : β) : Bool := decide (start n ≤ time ∧ time < finish n)
  let places := (List.finRange xs.length).filter fun i => flying (xs.get i)
  have hcount : xs.countP flying = (places.map fun i => i.1 % k).length := by
    conv_lhs => rw [← List.map_get_finRange xs]
    rw [List.countP_map, List.countP_eq_length_filter, List.length_map]
    rfl
  have hflying : ∀ i ∈ places, start (xs.get i) ≤ time ∧ time < finish (xs.get i) :=
    fun i hi => of_decide_eq_true (List.mem_filter.mp hi).2
  have hapart : ∀ i ∈ places, ∀ j ∈ places, i.1 < j.1 → i.1 % k ≠ j.1 % k := by
    intro i hi j hj hlt hmod
    have hle := finish_le_start_of_mod_eq hlasts hwaits hlt hmod
      (List.getElem?_eq_getElem i.2) (List.getElem?_eq_getElem j.2)
    exact absurd (hle.trans (hflying j hj).1) (not_le.mpr (hflying i hi).2)
  have hnodup : (places.map fun i => i.1 % k).Nodup := by
    refine List.Nodup.map_on (fun i hi j hj hmod => ?_) ((List.nodup_finRange _).filter _)
    rcases Nat.lt_trichotomy i.1 j.1 with hlt | heq | hlt
    · exact absurd hmod (hapart i hi j hj hlt)
    · exact Fin.ext heq
    · exact absurd hmod.symm (hapart j hj i hi hlt)
  have hrange : (places.map fun i => i.1 % k) ⊆ List.range k := by
    intro r hr
    rcases List.mem_map.mp hr with ⟨i, hi, rfl⟩
    rcases Nat.eq_zero_or_pos k with rfl | hpos
    · -- The item waits for itself, so it cannot be in flight.
      have hself := List.getElem?_eq_getElem i.2
      have hle := hwaits (xs.get i, xs.get i) (mem_pairsAtDistance_iff.mpr ⟨i.1, hself, hself⟩)
      exact absurd (hle.trans (hflying i hi).1) (not_le.mpr (hflying i hi).2)
    · exact List.mem_range.mpr (Nat.mod_lt _ hpos)
  have hle := (List.Nodup.subperm hnodup hrange).length_le
  rw [List.length_range] at hle
  exact le_trans (le_of_eq hcount) hle

end

/-! ### Counting on the graph -/

/-- Whether an operation needs a unit of a class in a block. -/
def Operation.competes {α : Type} (block : Nat) (unit : String) (op : Operation α) : Bool :=
  op.block == block && op.kind.unit? == some unit

/-- Only operations without a class are taken out of the view. -/
theorem Opcode.not_isStripped_of_unit? {kind : Opcode} {unit : String}
    (h : kind.unit? = some unit) : kind.isStripped = false := by
  cases kind <;> first | rfl | cases h

namespace View

variable {α : Type} {g : Graph α} {v : View α} {p : Node α → Bool} {q : Operation α → Bool}

/-- So operations of a class are nodes of the view. -/
theorem exists_nodeOf_mem (hview : ofGraph g = .ok v) {op : Operation α} (hop : op ∈ g.ops)
    {unit : String} (hunit : op.kind.unit? = some unit) : ∃ id, nodeOf id op ∈ v.nodes := by
  rcases List.mem_iff_getElem?.mp hop with ⟨id, hid⟩
  exact ⟨id, nodeOf_mem_nodes hview hid (Opcode.not_isStripped_of_unit? hunit)⟩

/-- What never holds of an operation that is taken out is counted on the graph. -/
theorem countP_nodes (hview : ofGraph g = .ok v) (hsame : ∀ id op, p (nodeOf id op) = q op)
    (hkept : ∀ op, q op = true → op.kind.isStripped = false) :
    v.nodes.countP p = g.ops.countP q := by
  rw [(ofGraph_eq_ok_iff.mp hview).1, Graph.keptNodes, List.countP_map, List.countP_filter]
  conv_rhs => rw [← List.zipIdx_map_fst 0 g.ops, List.countP_map]
  refine List.countP_congr fun d _ => ?_
  simp only [Function.comp_apply, hsame, Bool.and_eq_true, Bool.not_eq_true', and_iff_left_iff_imp]
  exact hkept d.1

/-- The queue of a class in a block is counted on the graph. -/
theorem countP_orderedUnits {g : Graph Rat} {v : View Rat} {p : Node Rat → Bool}
    {q : Operation Rat → Bool} (hview : ofGraph g = .ok v)
    (hsame : ∀ id op, p (nodeOf id op) = q op) (block : Nat) (unit : String) :
    (v.orderedUnits block unit).countP p
      = g.ops.countP fun op => op.competes block unit && q op := by
  rw [orderedUnits, List.countP_filter, (orderedNodes_perm hview).countP_eq]
  refine countP_nodes hview (fun id op => ?_) fun op hop => ?_
  · rw [hsame, Bool.and_comm]
    rfl
  · rw [Operation.competes, Bool.and_eq_true, Bool.and_eq_true] at hop
    exact Opcode.not_isStripped_of_unit? (beq_iff_eq.mp hop.1.2)

theorem length_orderedUnits {g : Graph Rat} {v : View Rat} (hview : ofGraph g = .ok v)
    (block : Nat) (unit : String) :
    (v.orderedUnits block unit).length = g.ops.countP (·.competes block unit) := by
  have hall := countP_orderedUnits (p := fun _ => true) hview (fun _ _ => rfl) block unit
  simp only [List.countP_true, Bool.and_true] at hall
  exact hall

end View

/-! ### How many operations wait -/

/-- In every block and class, all operations wait but those that fit into the capacity. -/
theorem length_waitingPairs {g : Graph Rat} {v : View Rat} (hdefects : g.defects = [])
    (hview : View.ofGraph g = .ok v) (limits : Limits) :
    (waitingPairs v limits).length =
      ∑ block ∈ Finset.range g.blocks.length,
        (limits.toList.map fun l => g.ops.countP (·.competes block l.1) - l.2).sum := by
  let waiting (block : Nat) : Nat :=
    (limits.toList.map fun l => g.ops.countP (·.competes block l.1) - l.2).sum
  have hblock : ∀ block, (limits.toList.flatMap fun l =>
      pairsAtDistance l.2 (v.orderedUnits block l.1)).length = waiting block := by
    intro block
    rw [List.length_flatMap]
    refine congrArg List.sum (List.map_congr_left fun l _ => ?_)
    rw [length_pairsAtDistance, View.length_orderedUnits hview]
  have hlength : (waitingPairs v limits).length = (v.blocks.map waiting).sum := by
    rw [waitingPairs, List.length_flatMap]
    exact congrArg List.sum (List.map_congr_left fun block _ => hblock block)
  rw [hlength, ← List.sum_toFinset waiting v.blocks_nodup]
  refine Finset.sum_subset (fun block hmem => ?_) fun block _ hnone => ?_
  · rcases v.mem_blocks_iff.mp (List.mem_toFinset.mp hmem) with ⟨n, hn, rfl⟩
    rcases (View.mem_nodes_iff hview).mp hn with ⟨op, hop, _, heq⟩
    rw [Finset.mem_range, heq]
    exact Graph.block_lt_of_defects hdefects op (List.mem_of_getElem? hop)
  · -- A block that the view does not have has no operations to wait for.
    refine List.sum_eq_zero fun k hk => ?_
    rcases List.mem_map.mp hk with ⟨l, _, rfl⟩
    have hzero : g.ops.countP (·.competes block l.1) = 0 := by
      refine List.countP_eq_zero.mpr fun op hop hcompetes => hnone ?_
      rw [Operation.competes, Bool.and_eq_true, beq_iff_eq, beq_iff_eq] at hcompetes
      rcases View.exists_nodeOf_mem hview hop hcompetes.2 with ⟨_, hn⟩
      exact List.mem_toFinset.mpr (v.mem_blocks_iff.mpr ⟨_, hn, hcompetes.1⟩)
    rw [hzero, Nat.zero_sub]

end CyclePlan
