import CyclePlan.Schedule.Check

/-!
# Key figures

What a schedule achieves, in a few numbers.

The latency of a kernel is the latest cycle in which a block ends, and that of
a block the distance between its two supernodes, which are found by their
names. Resource peaks are counted per cycle of a block and, for overlapping
iterations, per column of the reservation table.

## Main definitions

* `KeyFigures`: The key figures.
* `Schedule.peakIssue`: The greatest numbers of operations in one slot.
* `Schedule.keyFigures`: The key figures of a schedule.
* `KeyFigures.isWithin`: Whether they stay within targets.
-/

namespace CyclePlan

/-- Key figures of a schedule. -/
structure KeyFigures where
  /-- The latest cycle in which a block ends. -/
  latency : Int
  /-- Cycles between the two ends of each block, by the label of the block. -/
  blockLatency : NameMap Int
  /-- The initiation interval, if iterations overlap. -/
  interval : Option Int
  /-- The greatest number of operations of a class that start together in a
      block. -/
  peakIssue : NameMap Nat
  /-- The greatest number of operations of a class in one column. -/
  columnPeak : NameMap Nat
  scheduledNodes : Nat
  deriving DecidableEq, Repr

namespace Schedule

variable {α : Type} [Scalar α] (s : Schedule α)

/-- The greatest number of operations of each class that are issued in one
    slot, as far as there are any. -/
def peakIssue (g : Graph α) : NameMap Nat :=
  .ofPeaks ((tally (g.ops.filterMap s.slotOf?)).map fun e => (e.1.unit, e.2))

/-- Cycles between the two supernodes of a block, if both are scheduled. -/
def blockLatency? (b : Block) : Option Int := do
  let start ← s.cycle? (Block.sourceName b.id)
  let finish ← s.cycle? (Block.sinkName b.id)
  return finish - start

/-- The start cycle of a block's last supernode, if it is scheduled. -/
def sinkCycle? (g : Graph α) (id : Nat) : Except GraphError (Option Int) :=
  match g.node? id with
  | some op => .ok (s.cycle? op.name)
  | none => .error (.noSuchNode id)

/-- The key figures of a schedule of a graph. -/
def keyFigures (g : Graph α) : Except GraphError KeyFigures := do
  let sinkCycles ← g.blockSinks.mapM (s.sinkCycle? g)
  let blockLatencies := g.blocks.filterMap fun b => (s.blockLatency? b).map (b.name, ·)
  return {
    -- A kernel that ends before cycle zero has latency zero.
    latency := max (greatest (sinkCycles.filterMap id)) 0
    blockLatency := .ofList blockLatencies
    interval := s.interval
    peakIssue := s.peakIssue g
    columnPeak :=
      match s.interval with
      | some interval => (ReservationTable.ofSchedule g s interval).peaks
      | none => .empty
    scheduledNodes := s.cycles.size }

end Schedule

/-- Whether the latency and, where both are given, the interval stay within
    targets. -/
def KeyFigures.isWithin (k : KeyFigures) (maxLatency : Int) (maxInterval : Option Int) : Bool :=
  k.latency ≤ maxLatency &&
    match maxInterval, k.interval with
    | some target, some interval => interval ≤ target
    | _, _ => true

end CyclePlan
