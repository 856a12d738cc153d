import Mathlib.Data.Int.ModEq
import Mathlib.Data.List.Rotate
import CyclePlan.Proofs.Schedule.KeyFigures

/-!
# Columns by Residue

A reservation table sorts operations by the residues of their start cycles.

The columns are taken out of one list of reservations, each by its own look at
the list. The same columns come about if the operations are gone through once and
each of them is put at the end of its column (`columns_ofCycles`). In this form
it can be seen that nothing is lost or recorded twice: together the columns are
the recorded operations in another order (`columns_flatten_perm`), so that the
numbers of operations of a class in the columns add up to the number of all of
them.

What an interval means is that a table does not change if everything starts one
interval later. Later by any number of cycles, the columns move on by as many
places, and those that leave the table at the end come in again at its start
(`columns_delayed`).

## Main definitions

* `ReservationTable.recorded?`: What is recorded of an operation.
* `ReservationTable.post`: Puts an operation at the end of its column.
* `Reservation.delay`, `ReservationTable.delayed`: Starting later.

## Theorems

* `ReservationTable.column_ofCycles`, `ReservationTable.columns_ofCycles`: What the columns
  hold.
* `ReservationTable.columns_flatten_perm`: Together they hold everything once.
* `ReservationTable.columns_delayed`: They rotate.
* `ReservationTable.get?_peaks`: The peaks of all classes.
* `ReservationTable.ofCycles_sorts_by_residue`: All of this about one table.
-/

namespace CyclePlan

/-- The same reservation some cycles later. -/
def Reservation.delay (d : Int) (r : Reservation) : Reservation := { r with cycle := r.cycle + d }

namespace ReservationTable

variable {t : ReservationTable} {entries : List (String × Opcode × Int)} {interval d : Int}
  {unit : String} {bound : Nat}

/-- What is recorded of an operation given by name, kind and start cycle, if it needs a
    shareable unit. -/
def recorded? (e : String × Opcode × Int) : Option Reservation :=
  e.2.1.unit?.map (⟨e.1, ·, e.2.2⟩)

/-- Puts an operation at the end of its column, if it needs a shareable unit. -/
def post (interval : Int) (columns : List (List Reservation)) (e : String × Opcode × Int) :
    List (List Reservation) :=
  match recorded? e with
  | none => columns
  | some r => columns.modify (columnAt interval r.cycle).toNat (· ++ [r])

/-- The same operation some cycles later. -/
def delayed (d : Int) (e : String × Opcode × Int) : String × Opcode × Int :=
  (e.1, e.2.1, e.2.2 + d)

theorem reservations_ofCycles :
    (ofCycles entries interval).reservations = entries.filterMap recorded? := rfl

theorem interval_ofCycles (entries : List (String × Opcode × Int)) (interval : Int) :
    ((ofCycles entries interval).interval : Int) = max interval 1 := by
  change ((max interval 1).toNat : Int) = max interval 1
  omega

theorem columnOf_ofCycles (entries : List (String × Opcode × Int)) (interval cycle : Int) :
    ((ofCycles entries interval).columnOf cycle : Int) = columnAt interval cycle :=
  ((columnOf_eq_natCast_iff rfl).mp rfl).symm

theorem columnOf_lt (cycle : Int) :
    (ofCycles entries interval).columnOf cycle < (ofCycles entries interval).interval := by
  have hcolumn := columnOf_ofCycles entries interval cycle
  have hinterval := interval_ofCycles entries interval
  have hlt := columnAt_lt interval cycle
  omega

theorem length_columns : t.columns.length = t.interval := by
  rw [columns, List.length_map, List.length_range]

theorem getElem_columns {column : Nat} (h : column < t.columns.length) :
    t.columns[column] = t.column column := by
  simp only [columns, List.getElem_map, List.getElem_range]

/-! ### What the columns hold -/

theorem cycle_of_recorded? {e : String × Opcode × Int} {r : Reservation}
    (h : recorded? e = some r) : r.cycle = e.2.2 := by
  rcases Option.map_eq_some_iff.mp h with ⟨_, _, rfl⟩
  rfl

/-- A column holds the operations whose cycles fall into it, in the order in which they
    are given. -/
theorem column_ofCycles (column : Nat) :
    (ofCycles entries interval).column column =
      (entries.filter fun e => columnAt interval e.2.2 == column).filterMap recorded? := by
  rw [ReservationTable.column, reservations_ofCycles, List.filter_filterMap, List.filterMap_filter]
  refine List.filterMap_congr fun e _ => ?_
  cases hrecorded : recorded? e with
  | none => simp
  | some r =>
      rw [← cycle_of_recorded? hrecorded]
      simp [Option.filter, columnOf_eq_natCast_iff (t := ofCycles entries interval) rfl]

theorem column_concat (e : String × Opcode × Int) (column : Nat) :
    (ofCycles (entries ++ [e]) interval).column column =
      (ofCycles entries interval).column column ++
        (recorded? e).toList.filter fun r => columnAt interval r.cycle == column := by
  rw [column_ofCycles, column_ofCycles, List.filter_append, List.filterMap_append]
  congr 1
  cases hrecorded : recorded? e with
  | none => by_cases hcolumn : columnAt interval e.2.2 = column <;> simp [hcolumn, hrecorded]
  | some r =>
      rw [Option.toList_some, List.filter_singleton, List.filter_singleton,
        cycle_of_recorded? hrecorded]
      cases columnAt interval e.2.2 == (column : Int) with
      | false => rfl
      | true => exact List.filterMap_cons_some hrecorded

/-- The columns come about by putting one operation after the other at the end of its
    column. -/
theorem columns_ofCycles :
    (ofCycles entries interval).columns =
      entries.foldl (post interval) (List.replicate (max interval 1).toNat []) := by
  induction entries using List.reverseRecOn with
  | nil =>
      refine List.map_const'.trans ?_
      rw [List.length_range]
      rfl
  | append_singleton entries e ih =>
      rw [List.foldl_append, ← ih, List.foldl_cons, List.foldl_nil, post]
      cases hrecorded : recorded? e with
      | none =>
          refine List.map_congr_left fun column _ => ?_
          rw [column_concat, hrecorded, Option.toList_none, List.filter_nil, List.append_nil]
      | some r =>
          refine List.ext_getElem ?_ fun column _ _ => ?_
          · rw [List.length_modify, length_columns, length_columns]
            rfl
          · rw [getElem_columns, List.getElem_modify, getElem_columns, column_concat, hrecorded,
              Option.toList_some, List.filter_singleton]
            have hsign := columnAt_nonneg interval r.cycle
            by_cases hcolumn : columnAt interval r.cycle = column
            · rw [if_pos (by omega), beq_iff_eq.mpr hcolumn]
              rfl
            · rw [if_neg (by omega), beq_eq_false_iff_ne.mpr hcolumn]
              exact List.append_nil _

example : (ofCycles [("m", .mul, 0), ("n", .mul, -2), ("q", .mul, 3), ("p", .phi, 0)] 2).columns.map
    (List.map (·.node)) = [["m", "n"], ["q"]] := by decide

/-- Sorting by a number below a bound only changes the order. -/
theorem flatten_filter_perm (f : Reservation → Nat) {n : Nat} {l : List Reservation}
    (h : ∀ r ∈ l, f r < n) :
    ((List.range n).map fun c => l.filter fun r => f r == c).flatten.Perm l := by
  induction n generalizing l with
  | zero =>
      rw [List.eq_nil_iff_forall_not_mem.mpr fun r hr => absurd (h r hr) (Nat.not_lt_zero _)]
      rfl
  | succ n ih =>
      -- The last number is split off, and the others sort what is left.
      have hbelow : ∀ r ∈ l.filter fun r => !(f r == n), f r < n := by
        intro r hr
        rcases List.mem_filter.mp hr with ⟨hmem, hne⟩
        have hlt := h r hmem
        have hneq : f r ≠ n := by simpa using hne
        omega
      have hrest : ((List.range n).map fun c => l.filter fun r => f r == c).flatten.Perm
          (l.filter fun r => !(f r == n)) := by
        refine .trans (.of_eq (congrArg _ (List.map_congr_left fun c hc => ?_))) (ih hbelow)
        rw [List.filter_filter]
        refine List.filter_congr fun r _ => ?_
        have hlt := List.mem_range.mp hc
        by_cases heq : f r = c
        · simp [heq, hlt.ne]
        · simp [heq]
      rw [List.range_succ, List.map_append, List.flatten_append, List.map_singleton,
        List.flatten_singleton]
      exact (hrest.append_right _).trans
        (List.perm_append_comm.trans (List.filter_append_perm _ l))

/-- All columns together hold what is recorded, each operation once. -/
theorem columns_flatten_perm (entries : List (String × Opcode × Int)) (interval : Int) :
    (ofCycles entries interval).columns.flatten.Perm (entries.filterMap recorded?) :=
  flatten_filter_perm _ fun r _ => columnOf_lt r.cycle

/-- The numbers of operations of a class in the columns add up. -/
theorem sum_occupancy (unit : String) :
    ((List.range (ofCycles entries interval).interval).map fun column =>
        (ofCycles entries interval).occupancy column unit).sum =
      entries.countP fun e => e.2.1.unit? == some unit := by
  have hcount := (columns_flatten_perm entries interval).countP_eq fun r => r.unit == unit
  rw [List.countP_flatten, columns, List.map_map, List.countP_filterMap] at hcount
  refine hcount.trans (List.countP_congr fun e _ => ?_)
  rw [recorded?]
  cases e.2.1.unit? with
  | none => simp
  | some other => simp

/-! ### Starting later -/

theorem reservations_delayed :
    (ofCycles (entries.map (delayed d)) interval).reservations =
      (ofCycles entries interval).reservations.map (·.delay d) := by
  rw [reservations_ofCycles, reservations_ofCycles, List.filterMap_map, List.map_filterMap]
  refine List.filterMap_congr fun e _ => ?_
  rw [Function.comp, recorded?, recorded?, Option.map_map]
  rfl

/-- Columns move on by as many places as cycles are added. -/
theorem columnAt_add_eq_iff {cycle column : Int} (hcolumn : columnAt interval column = column) :
    columnAt interval (cycle + d) = column ↔
      columnAt interval cycle = columnAt interval (column + columnAt interval (-d)) := by
  rw [columnAt] at hcolumn
  rw [columnAt, columnAt, columnAt, columnAt, Int.add_emod_emod]
  constructor
  · intro h
    have hback : cycle + d ≡ column [ZMOD max interval 1] := h.trans hcolumn.symm
    have hforth := hback.add_right (-d)
    rw [add_neg_cancel_right] at hforth
    exact hforth
  · intro h
    have hforth : cycle ≡ column + -d [ZMOD max interval 1] := h
    have hback := hforth.add_right d
    rw [neg_add_cancel_right] at hback
    exact Eq.trans hback hcolumn

/-- Where everything starts later, the columns rotate. -/
theorem columns_delayed :
    (ofCycles (entries.map (delayed d)) interval).columns =
      ((ofCycles entries interval).columns.rotate
        ((ofCycles entries interval).columnOf (-d))).map (List.map (·.delay d)) := by
  have hinterval := interval_ofCycles entries interval
  refine List.ext_getElem ?_ fun column h _ => ?_
  · rw [List.length_map, List.length_rotate, length_columns, length_columns]
    rfl
  · have hcolumn : columnAt interval column = column := by
      rw [length_columns] at h
      rw [columnAt, ← interval_ofCycles (entries.map (delayed d)) interval]
      exact Int.emod_eq_of_lt (Int.natCast_nonneg _) (by omega)
    rw [List.getElem_map, List.getElem_rotate, getElem_columns, getElem_columns, length_columns,
      ReservationTable.column, ReservationTable.column, reservations_delayed, List.filter_map]
    refine congrArg _ (List.filter_congr fun r _ => ?_)
    have hmoved : (((column + (ofCycles entries interval).columnOf (-d)) %
        (ofCycles entries interval).interval : Nat) : Int) =
          columnAt interval (column + columnAt interval (-d)) := by
      rw [Int.natCast_emod, Int.natCast_add, columnOf_ofCycles, hinterval]
      rfl
    rw [Bool.eq_iff_iff, Function.comp, beq_iff_eq, beq_iff_eq, columnOf_eq_natCast_iff rfl,
      columnOf_eq_natCast_iff rfl, hmoved]
    exact columnAt_add_eq_iff hcolumn

/-- Later by a multiple of the interval, they stay where they are. -/
theorem columns_delayed_of_dvd (h : max interval 1 ∣ d) :
    (ofCycles (entries.map (delayed d)) interval).columns =
      (ofCycles entries interval).columns.map (List.map (·.delay d)) := by
  have hzero : (ofCycles entries interval).columnOf (-d) = 0 := by
    have hcolumn := columnOf_ofCycles entries interval (-d)
    rw [columnAt, Int.emod_eq_zero_of_dvd (Int.dvd_neg.mpr h)] at hcolumn
    omega
  rw [columns_delayed, hzero, List.rotate_zero]

/-! ### Peaks -/

theorem peak_le_iff :
    t.peak unit ≤ bound ↔ ∀ column < t.interval, t.occupancy column unit ≤ bound := by
  have hmax : ∀ (l : List Nat) (first : Nat),
      l.foldl max first ≤ bound ↔ first ≤ bound ∧ ∀ n ∈ l, n ≤ bound := by
    intro l
    induction l with
    | nil => simp
    | cons n l ih =>
        intro first
        rw [List.foldl_cons, ih, Nat.max_le, List.forall_mem_cons, and_assoc]
  rw [peak, hmax, List.forall_mem_map]
  simp only [Nat.zero_le, true_and, List.mem_range]

/-- A class is listed only if something has been counted. -/
theorem pos_of_get?_peaks {n : Nat} (h : t.peaks.get? unit = some n) : 0 < n := by
  by_contra hzero
  have hall : (t.peaks.get? unit).getD 0 ≤ 0 := by
    rw [h]
    exact not_lt.mp hzero
  have hnone : t.peaks.get? unit = none := by
    refine NameMap.get?_ofPeaks_eq_none_iff.mpr fun e he hname => ?_
    rcases List.mem_flatMap.mp he with ⟨column, _, hcount⟩
    have hpos := (mem_tally_iff.mp hcount).2
    have hle := NameMap.getD_ofPeaks_le_iff.mp hall e he hname
    omega
  rw [hnone] at h
  cases h

/-- The peaks of all classes are the peaks of single ones, and those of classes that do not
    occur are left out. -/
theorem get?_peaks (t : ReservationTable) (unit : String) :
    t.peaks.get? unit = if t.peak unit = 0 then none else some (t.peak unit) := by
  have hpeak : (t.peaks.get? unit).getD 0 = t.peak unit :=
    le_antisymm (peaks_le_iff.mpr (peak_le_iff.mp (Nat.le_refl _)))
      (peak_le_iff.mpr (peaks_le_iff.mp (Nat.le_refl _)))
  cases hget : t.peaks.get? unit with
  | none =>
      rw [hget, Option.getD_none] at hpeak
      rw [← hpeak, if_pos rfl]
  | some n =>
      rw [hget, Option.getD_some] at hpeak
      rw [← hpeak, if_neg (pos_of_get?_peaks hget).ne']

/-- A reservation table sorts the operations that need a shareable unit by the residues of
    their start cycles. Each of them is put at the end of the column of its cycle, one after
    the other, and into no other column; together the columns hold all of them once and
    nothing else. So the numbers of operations of a class in the columns add up to the number
    of all operations of the class. Where everything starts later, the columns rotate by as
    many places, and a delay by a multiple of the interval leaves the nodes of all columns.
    The peaks of all classes are those of single ones, where a class without operations is
    left out. -/
theorem ofCycles_sorts_by_residue (entries : List (String × Opcode × Int)) (interval : Int) :
    let t := ofCycles entries interval
    (t.columns.length : Int) = max interval 1 ∧
      (∀ cycle, (t.columnOf cycle : Int) = cycle % max interval 1 ∧
        t.columnOf cycle < t.columns.length) ∧
      (∀ column, t.column column =
        (entries.filter fun e => t.columnOf e.2.2 == column).filterMap recorded?) ∧
      t.columns = entries.foldl (post interval) (List.replicate (max interval 1).toNat []) ∧
      t.columns.flatten.Perm (entries.filterMap recorded?) ∧
      (∀ unit, ((List.range t.interval).map fun column => t.occupancy column unit).sum =
        entries.countP fun e => e.2.1.unit? == some unit) ∧
      (∀ d, (ofCycles (entries.map (delayed d)) interval).columns =
        (t.columns.rotate (t.columnOf (-d))).map (List.map (·.delay d))) ∧
      (∀ k, (ofCycles (entries.map (delayed (k * max interval 1))) interval).columns.map
          (List.map (·.node)) = t.columns.map (List.map (·.node))) ∧
      ∀ unit, t.peaks.get? unit = if t.peak unit = 0 then none else some (t.peak unit) := by
  refine ⟨?_, fun cycle => ⟨columnOf_ofCycles _ _ cycle, ?_⟩, fun column => ?_, columns_ofCycles,
    columns_flatten_perm _ _, sum_occupancy, fun _ => columns_delayed, fun k => ?_, get?_peaks _⟩
  · rw [length_columns, interval_ofCycles]
  · rw [length_columns]
    exact columnOf_lt cycle
  · rw [column_ofCycles]
    refine congrArg _ (List.filter_congr fun e _ => ?_)
    rw [Bool.eq_iff_iff, beq_iff_eq, beq_iff_eq, columnOf_eq_natCast_iff rfl]
  · rw [columns_delayed_of_dvd (Int.dvd_mul_left k _), List.map_map]
    refine List.map_congr_left fun column _ => ?_
    rw [Function.comp, List.map_map]
    rfl

end ReservationTable

end CyclePlan
