import Mathlib.Algebra.BigOperators.Group.Finset.Basic
import Mathlib.Algebra.Order.BigOperators.Group.Finset
import Mathlib.Data.Int.Interval
import CyclePlan.Proofs.Graph.Fit
import CyclePlan.Schedule.Check

/-!
# Columns

Counting operations column by column.

A reservation table is a list that is filtered and mapped several times before
anything is counted. What is counted can be said over the nodes of the view
directly: the nodes of a class, among those with given names, whose cycles fall
into a column (`View.share`). Placing one more operation changes a share by at
most one, and only that of its class in its column.

Cycles of operations that have not been placed do not matter, so shares are taken
with a function from names to cycles that only has to be right about the placed
ones.

If every column has at most so many operations of a class, then there are at most
that many times the number of columns, since every operation is in some column.

## Main definitions

* `columnAt`: The column of a cycle.
* `View.share`: The operations of a class in a column.

## Theorems

* `View.hasRoom_iff`: Room in the table is room in the share.
* `View.share_place_le`, `View.share_place_other`: One more operation.
* `View.countP_le_of_columns`: From columns to all operations.
* `View.orderedNodes_perm`: The order has all nodes.
* `Schedule.checkColumns_eq_nil_iff`, `Schedule.countP_le_of_checkColumns`: What the check
  of a schedule means.
-/

namespace CyclePlan

/-- The column of a cycle, where an interval below one counts as one. -/
def columnAt (interval cycle : Int) : Int := cycle % max interval 1

theorem columnAt_nonneg (interval cycle : Int) : 0 ≤ columnAt interval cycle :=
  Int.emod_nonneg _ (by omega)

theorem columnAt_lt (interval cycle : Int) : columnAt interval cycle < max interval 1 :=
  Int.emod_lt_of_pos _ (by omega)

/-- The table has the same columns. -/
theorem columnOf_eq_iff {t : ReservationTable} {interval : Int}
    (ht : t.interval = (max interval 1).toNat) {a b : Int} :
    t.columnOf a = t.columnOf b ↔ columnAt interval a = columnAt interval b := by
  have hwidth : (t.interval : Int) = max interval 1 := by
    rw [ht]
    omega
  have ha := columnAt_nonneg interval a
  have hb := columnAt_nonneg interval b
  rw [ReservationTable.columnOf, ReservationTable.columnOf, hwidth]
  rw [columnAt] at ha hb
  rw [columnAt, columnAt]
  omega

theorem columnOf_eq_natCast_iff {t : ReservationTable} {interval : Int}
    (ht : t.interval = (max interval 1).toNat) {cycle : Int} {column : Nat} :
    t.columnOf cycle = column ↔ columnAt interval cycle = column := by
  have hwidth : (t.interval : Int) = max interval 1 := by
    rw [ht]
    omega
  have hsign := columnAt_nonneg interval cycle
  rw [columnAt] at hsign
  rw [ReservationTable.columnOf, hwidth, columnAt]
  omega

namespace View

variable {v : View Rat} {interval : Int} {unit other node : String} {c : String → Int}
  {cycle? : String → Option Int} {placed : List String} {cycle column : Int} {capacity : Nat}

/-- Whether a node is one of those placed, of a class and in a column. -/
def isAt (interval : Int) (unit : String) (c : String → Int) (placed : List String)
    (column : Int) (n : Node Rat) : Bool :=
  n.kind.unit? == some unit && placed.contains n.name && columnAt interval (c n.name) == column

/-- How many placed operations of a class a column has. -/
def share (v : View Rat) (interval : Int) (unit : String) (c : String → Int)
    (placed : List String) (column : Int) : Nat :=
  v.nodes.countP (isAt interval unit c placed column)

theorem isAt_iff {n : Node Rat} :
    isAt interval unit c placed column n = true ↔
      n.kind.unit? = some unit ∧ n.name ∈ placed ∧ columnAt interval (c n.name) = column := by
  rw [isAt, Bool.and_eq_true, Bool.and_eq_true, beq_iff_eq, beq_iff_eq, List.contains_iff_mem,
    and_assoc]

@[simp] theorem share_nil : v.share interval unit c [] column = 0 := by
  rw [share, List.countP_eq_zero]
  intro n _ hn
  exact absurd (isAt_iff.mp hn).2.1 List.not_mem_nil

/-- What is recorded for a node. -/
def reservation? (cycle? : String → Option Int) (n : Node Rat) : Option Reservation :=
  (cycle? n.name).bind fun k => n.kind.unit?.map (⟨n.name, ·, k⟩)

theorem reservations_ofView :
    (ReservationTable.ofView v cycle? interval).reservations =
      v.nodes.filterMap (reservation? cycle?) := by
  rw [ReservationTable.ofView, ReservationTable.ofCycles, List.filterMap_filterMap]
  refine List.filterMap_congr fun n _ => ?_
  rw [reservation?]
  cases cycle? n.name with
  | none => rfl
  | some k => rfl

/-- The table counts a node beside a new one exactly if the node is placed, of the
    class and in the column. -/
theorem counted_iff {t : ReservationTable} (ht : t.interval = (max interval 1).toNat)
    (hcycles : ∀ name ∈ placed, cycle? name = some (c name)) (hnew : node ∉ placed)
    (n : Node Rat) :
    ((reservation? cycle? n).map fun r =>
      (r.unit == unit && r.node != node && placed.contains r.node) &&
        t.columnOf r.cycle == t.columnOf cycle).getD false = true ↔
      isAt interval unit c placed (columnAt interval cycle) n = true := by
  rw [isAt_iff, reservation?]
  -- Whether the node is placed decides between the two, and the rest agrees.
  by_cases hmem : n.name ∈ placed
  · have hname : n.name ≠ node := fun heq => hnew (heq ▸ hmem)
    rw [hcycles _ hmem, Option.bind_some]
    cases hunit : n.kind.unit? with
    | none => simp
    | some u => simp [hmem, hname, columnOf_eq_iff ht]
  · cases cycle? n.name with
    | none => simp [hmem]
    | some k =>
        rw [Option.bind_some]
        cases hunit : n.kind.unit? with
        | none => simp
        | some u => simp [hmem]

/-- The table has room for an operation exactly if the share of its class in its
    column is below the capacity. -/
theorem hasRoom_iff (hcycles : ∀ name ∈ placed, cycle? name = some (c name))
    (hnew : node ∉ placed) :
    (ReservationTable.ofView v cycle? interval).hasRoom node unit cycle capacity placed = true ↔
      v.share interval unit c placed (columnAt interval cycle) < capacity := by
  rw [ReservationTable.hasRoom, decide_eq_true_eq, ReservationTable.column, List.countP_filter,
    reservations_ofView, List.countP_filterMap, share]
  rw [List.countP_congr fun n _ => counted_iff rfl hcycles hnew n]

/-! ### One more operation -/

theorem countP_name_le_one (hnames : (v.nodes.map (·.name)).Nodup) (node : String) :
    v.nodes.countP (fun n => n.name == node) ≤ 1 := by
  have hcount := List.nodup_iff_count_le_one.mp hnames node
  rwa [List.count, List.countP_map] at hcount

theorem countP_or_le {ν : Type} {p q r : ν → Bool} {l : List ν}
    (h : ∀ n ∈ l, p n = true → q n = true ∨ r n = true) :
    l.countP p ≤ l.countP q + l.countP r := by
  induction l with
  | nil => exact Nat.le_refl 0
  | cons n l ih =>
      have hrest := ih fun n' hn' => h n' (List.mem_cons_of_mem _ hn')
      have hfirst := h n List.mem_cons_self
      rw [List.countP_cons, List.countP_cons, List.countP_cons]
      cases hp : p n with
      | false =>
          simp only [Bool.false_eq_true, if_false]
          omega
      | true =>
          rcases hfirst hp with hq | hr
          · simp only [hq, if_true]
            omega
          · simp only [hr, if_true]
            omega

/-- One more operation makes a share larger by at most one. -/
theorem share_place_le (hnames : (v.nodes.map (·.name)).Nodup) :
    v.share interval other (Function.update c node cycle) (node :: placed) column ≤
      v.share interval other c placed column + 1 := by
  have hone := countP_name_le_one hnames node
  -- What is counted now was counted before, or has the name of the new operation.
  have hsplit := countP_or_le (l := v.nodes)
    (p := isAt interval other (Function.update c node cycle) (node :: placed) column)
    (q := isAt interval other c placed column) (r := fun n => n.name == node) fun n _ hn => by
      rcases isAt_iff.mp hn with ⟨hunit, hmem, hcolumn⟩
      by_cases hname : n.name = node
      · exact .inr (beq_iff_eq.mpr hname)
      · rw [Function.update_of_ne hname] at hcolumn
        exact .inl (isAt_iff.mpr ⟨hunit, (List.mem_cons.mp hmem).resolve_left hname, hcolumn⟩)
  rw [share, share]
  omega

/-- It leaves the shares of other classes and other columns alone. -/
theorem share_place_other (hnames : (v.nodes.map (·.name)).Nodup) {m : Node Rat}
    (hm : m ∈ v.nodes) (hunit : m.kind.unit? = some unit)
    (helse : other ≠ unit ∨ column ≠ columnAt interval cycle) :
    v.share interval other (Function.update c m.name cycle) (m.name :: placed) column ≤
      v.share interval other c placed column := by
  refine List.countP_mono_left fun n hn hat => ?_
  rcases isAt_iff.mp hat with ⟨hother, hmem, hcolumn⟩
  by_cases hname : n.name = m.name
  · -- This is the new operation, so class and column are its own.
    exfalso
    rw [hname, Function.update_self] at hcolumn
    rw [List.inj_on_of_nodup_map hnames hn hm hname, hunit] at hother
    rcases helse with helse | helse
    · exact helse (Option.some.inj hother).symm
    · exact helse hcolumn.symm
  · rw [Function.update_of_ne hname] at hcolumn
    exact isAt_iff.mpr ⟨hother, (List.mem_cons.mp hmem).resolve_left hname, hcolumn⟩

/-! ### All operations -/

/-- A list whose entries lie in a range and do not come up too often is short. -/
theorem length_le_of_count {l : List Int} {width : Nat} (hrange : ∀ a ∈ l, 0 ≤ a ∧ a < width)
    (hcount : ∀ a, l.count a ≤ capacity) : l.length ≤ capacity * width := by
  have hsub : l.toFinset ⊆ Finset.Ico (0 : Int) width := by
    intro a ha
    exact Finset.mem_Ico.mpr (hrange a (List.mem_toFinset.mp ha))
  have hcard := Finset.card_le_card hsub
  rw [Int.card_Ico, Int.sub_zero, Int.toNat_natCast] at hcard
  calc l.length = ∑ a ∈ l.toFinset, l.count a := (List.sum_toFinset_count_eq_length l).symm
    _ ≤ l.toFinset.card • capacity := Finset.sum_le_card_nsmul _ _ _ fun a _ => hcount a
    _ = capacity * l.toFinset.card := Nat.mul_comm _ _
    _ ≤ capacity * width := Nat.mul_le_mul_left _ hcard

/-- If no column has more operations of some sort than the capacity, there are at
    most as many as fit into all columns. -/
theorem countP_le_of_columns {ν : Type} {l : List ν} {sort : ν → Bool} {k : ν → Int}
    (h : ∀ column,
      l.countP (fun n => sort n && columnAt interval (k n) == column) ≤ capacity) :
    l.countP sort ≤ capacity * (max interval 1).toNat := by
  rw [List.countP_eq_length_filter, ← List.length_map (f := fun n => columnAt interval (k n))]
  -- The list of all columns in use has an entry for every operation.
  refine length_le_of_count (fun a ha => ?_) fun a => ?_
  · rcases List.mem_map.mp ha with ⟨n, _, rfl⟩
    have hlow := columnAt_nonneg interval (k n)
    have hhigh := columnAt_lt interval (k n)
    omega
  · refine le_trans (le_of_eq ?_) (h a)
    rw [List.count, List.countP_map, List.countP_filter]
    refine List.countP_congr fun n _ => ?_
    simp only [Function.comp, Bool.and_eq_true, and_comm]

/-! ### Orders -/

theorem filterMap_range_getElem? {ν : Type} (l : List ν) :
    (List.range l.length).filterMap (fun i => l[i]?) = l := by
  induction l with
  | nil => rfl
  | cons a l ih =>
      rw [List.length_cons, List.range_succ_eq_map, List.filterMap_cons, List.filterMap_map]
      exact congrArg (List.cons a) ih

/-- The order of a view has every node once. -/
theorem orderedNodes_perm {g : Graph Rat} (hview : ofGraph g = .ok v) :
    v.orderedNodes.Perm v.nodes := by
  rcases ofGraph_eq_ok_iff.mp hview with ⟨_, _, _, horder, _⟩
  have hperm := (Graph.linearExtension?_perm horder).filterMap v.node?
  have hall : (List.range v.nodes.length).filterMap v.node? = v.nodes :=
    filterMap_range_getElem? v.nodes
  rwa [hall] at hperm

end View

/-! ### Schedules -/

namespace Schedule

variable {α : Type} {s : Schedule α} {g : Graph α} {limits : Limits} {interval : Int}
  {unit : String} {capacity : Nat} {k : Operation α → Int}

/-- What is recorded for an operation. -/
def reservation? (s : Schedule α) (op : Operation α) : Option Reservation :=
  (s.cycle? op.name).bind fun c => op.kind.unit?.map (⟨op.name, ·, c⟩)

theorem reservations_ofSchedule :
    (ReservationTable.ofSchedule g s interval).reservations = g.ops.filterMap s.reservation? := by
  rw [ReservationTable.ofSchedule, ReservationTable.ofCycles, List.filterMap_filterMap]
  refine List.filterMap_congr fun op _ => ?_
  rw [reservation?]
  cases s.cycle? op.name with
  | none => rfl
  | some c => rfl

/-- A column of the table has the operations of a class whose cycles fall into it. -/
theorem occupancy_ofSchedule
    (hk : ∀ op ∈ g.ops, op.kind.unit? = some unit → s.cycle? op.name = some (k op)) (column : Nat) :
    (ReservationTable.ofSchedule g s interval).occupancy column unit =
      g.ops.countP fun op =>
        op.kind.unit? == some unit && columnAt interval (k op) == (column : Int) := by
  rw [ReservationTable.occupancy, ReservationTable.column, List.countP_filter,
    reservations_ofSchedule, List.countP_filterMap]
  refine List.countP_congr fun op hop => ?_
  rw [reservation?]
  by_cases hunit : op.kind.unit? = some unit
  · rw [hk op hop hunit, Option.bind_some, hunit]
    simp [columnOf_eq_natCast_iff (t := ReservationTable.ofSchedule g s interval) rfl]
  · -- An operation of another class counts for nothing, whether it is recorded or not.
    cases s.cycle? op.name with
    | none => simp [hunit]
    | some c =>
        rw [Option.bind_some]
        cases hother : op.kind.unit? with
        | none => simp
        | some u =>
            rw [hother, Option.some.injEq] at hunit
            simp [hunit]

/-- A schedule passes the check of columns if no column has more operations of a class
    than the capacity. -/
theorem checkColumns_eq_nil_iff :
    s.checkColumns g limits interval = [] ↔
      ∀ unit capacity, limits.capacity? unit = some capacity →
        ∀ column < (max interval 1).toNat,
          (ReservationTable.ofSchedule g s interval).occupancy column unit ≤ capacity := by
  have hwidth : (ReservationTable.ofSchedule g s interval).interval = (max interval 1).toNat := rfl
  have hentry : ∀ unit capacity, limits.capacity? unit = some capacity ↔
      (unit, capacity) ∈ limits.toList := fun _ _ => NameMap.get?_eq_some_iff
  simp only [checkColumns, List.flatMap_eq_nil_iff, List.filterMap_eq_nil_iff, List.mem_range,
    hwidth, hentry, Prod.forall, ite_eq_right_iff, reduceCtorEq, imp_false, Nat.not_lt]

/-- If a schedule passes, then there are no more operations of a class than fit into all
    columns. -/
theorem countP_le_of_checkColumns (hnone : s.checkColumns g limits interval = [])
    (hk : ∀ op ∈ g.ops, op.kind.unit? = some unit → s.cycle? op.name = some (k op))
    (hcapacity : limits.capacity? unit = some capacity) :
    g.ops.countP (fun op => op.kind.unit? == some unit) ≤ capacity * (max interval 1).toNat := by
  refine View.countP_le_of_columns (k := k) fun column => ?_
  by_cases hrange : 0 ≤ column ∧ column < max interval 1
  · have hle := checkColumns_eq_nil_iff.mp hnone unit capacity hcapacity column.toNat (by omega)
    rwa [occupancy_ofSchedule hk, Int.toNat_of_nonneg hrange.1] at hle
  · -- No cycle falls outside of the range.
    refine le_trans (le_of_eq (List.countP_eq_zero.mpr fun op _ hop => hrange ?_)) (Nat.zero_le _)
    rw [← beq_iff_eq.mp (Bool.and_eq_true_iff.mp hop).2]
    exact ⟨columnAt_nonneg _ _, columnAt_lt _ _⟩

end Schedule

end CyclePlan
