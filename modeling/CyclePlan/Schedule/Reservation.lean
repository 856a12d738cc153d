import CyclePlan.Graph.View
import CyclePlan.Schedule.Basic
import CyclePlan.Tally

/-!
# Modulo reservation tables

Which units are busy once iterations of a loop overlap.

When a new iteration starts every `interval` cycles, operations whose start
cycles differ by a multiple of the interval are issued at the same moment. The
table records every operation of a shareable class, and its columns are the
residues of the start cycles. It is a snapshot of one assignment and is made
anew whenever the assignment changes.

An interval below one counts as one.

## Main definitions

* `Reservation`: A recorded operation.
* `ReservationTable`: The recorded operations, with the interval.
* `ReservationTable.ofCycles`, `ReservationTable.ofSchedule`,
  `ReservationTable.ofView`: Tables.
* `ReservationTable.column`, `ReservationTable.occupancy`,
  `ReservationTable.peak`: What a column holds.
* `ReservationTable.peaks`: The peaks of all classes at once.
* `ReservationTable.hasRoom`: Whether an operation may be placed in a cycle.
-/

namespace CyclePlan

/-- A recorded operation. -/
structure Reservation where
  node : String
  /-- The class of unit that it needs. -/
  unit : String
  cycle : Int
  deriving DecidableEq, Repr

/-- The operations that need a shareable unit, and the interval at which they
    are repeated. -/
structure ReservationTable where
  /-- The number of columns. -/
  interval : Nat
  reservations : List Reservation
  deriving DecidableEq, Repr

namespace ReservationTable

/-- The table of operations given by name, kind and start cycle. -/
def ofCycles (entries : List (String × Opcode × Int)) (interval : Int) : ReservationTable where
  interval := (max interval 1).toNat
  reservations := entries.filterMap fun e => e.2.1.unit?.map (⟨e.1, ·, e.2.2⟩)

/-- The table of the nodes of a view that a lookup gives a start cycle. -/
def ofView {α : Type} (v : View α) (cycle? : String → Option Int) (interval : Int) :
    ReservationTable :=
  ofCycles (v.nodes.filterMap fun n => (cycle? n.name).map (n.name, n.kind, ·)) interval

/-- The table of a schedule. -/
def ofSchedule {α : Type} (g : Graph α) (s : Schedule α) (interval : Int) : ReservationTable :=
  ofCycles (g.ops.filterMap fun op => (s.cycle? op.name).map (op.name, op.kind, ·)) interval

variable (t : ReservationTable)

/-- The column of a cycle. Negative cycles have one as well. -/
def columnOf (cycle : Int) : Nat := (cycle % t.interval).toNat

/-- What a column holds, in the order in which it was recorded. -/
def column (c : Nat) : List Reservation := t.reservations.filter fun r => t.columnOf r.cycle == c

/-- The columns. -/
def columns : List (List Reservation) := (List.range t.interval).map t.column

/-- The number of operations of a class in a column. -/
def occupancy (c : Nat) (unit : String) : Nat := (t.column c).countP fun r => r.unit == unit

/-- The greatest number of operations of a class in one column. -/
def peak (unit : String) : Nat :=
  ((List.range t.interval).map fun c => t.occupancy c unit).foldl max 0

/-- The peaks of the classes that occur, from one count of each column. -/
def peaks : NameMap Nat := .ofPeaks (t.columns.flatMap fun column => tally (column.map (·.unit)))

/-- Whether an operation of a class may be placed in a cycle: of the operations
    of that class that share the column and are placed for good, itself apart,
    there are fewer than the capacity. -/
def hasRoom (node unit : String) (cycle : Int) (capacity : Nat) (placed : List String) : Bool :=
  ((t.column (t.columnOf cycle)).countP fun r =>
    r.unit == unit && r.node != node && placed.contains r.node) < capacity

end ReservationTable

end CyclePlan
