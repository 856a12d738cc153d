import CyclePlan.Proofs.Action
import CyclePlan.Proofs.Resource.Columns
import CyclePlan.Proofs.Schedule.Check
import CyclePlan.Schedule.KeyFigures

/-!
# Key Figures and Checks

What the key figures say about the resource limits.

Operations that compete are counted four times, each time in another way. The check of
what is issued goes through the slots in use and collects names, and the key figures
count once over all operations and keep the greatest number for each class. The check of
the columns counts one class in one column at a time, and the peaks of a table count all
classes of each column at once. Each of the four is compared with a plain count over the
operations of the graph, the number of those that are issued in a slot or that fall into
a column.

From there on the four agree. A check finds nothing exactly if the greatest number for
each limited class is within its capacity, where a class that does not occur counts as
zero. All operations of a slot fall into one column, so that a class has no greater peak
in the slots than in the columns, and a legal table has legal slots.

## Main definitions

* `Limits.Admit`: Whether peaks are within the capacities.
* `Schedule.figures`: The key figures where all supernodes are there.
* `Schedule.rolled`: Operations that share columns and no slot.

## Theorems

* `Schedule.keyFigures_eq_ok_iff`: When there are key figures, and which.
* `Schedule.peakIssue_le_iff`, `ReservationTable.peaks_le_iff`: What a peak says.
* `Schedule.peakIssue_le_peaks`: Slots are parts of columns.
* `Schedule.key_figures_decide_checks`: Key figures and checks agree.
-/

namespace CyclePlan

/-- No limited class has a greater peak than its capacity. -/
def Limits.Admit (limits : Limits) (peaks : NameMap Nat) : Prop :=
  ∀ unit capacity, limits.capacity? unit = some capacity → (peaks.get? unit).getD 0 ≤ capacity

theorem Limits.admit_iff {limits : Limits} {peaks : NameMap Nat} :
    limits.Admit peaks ↔ ∀ e ∈ limits.toList, (peaks.get? e.1).getD 0 ≤ e.2 := by
  simp only [Admit, Prod.forall]
  exact forall₂_congr fun _ _ => imp_congr_left NameMap.get?_eq_some_iff

instance (limits : Limits) (peaks : NameMap Nat) : Decidable (limits.Admit peaks) :=
  decidable_of_iff' _ Limits.admit_iff

namespace ReservationTable

variable {t : ReservationTable} {unit : String} {bound : Nat}

/-- The peak of a class is the greatest number that a column has of it. -/
theorem peaks_le_iff :
    (t.peaks.get? unit).getD 0 ≤ bound ↔
      ∀ column < t.interval, t.occupancy column unit ≤ bound := by
  rw [peaks, NameMap.getD_ofPeaks_le_iff, List.forall_mem_flatMap, columns, List.forall_mem_map]
  refine forall_congr' fun column => ?_
  rw [List.mem_range]
  refine forall_congr' fun _ => ?_
  rw [tally_le_iff (p := (· = unit)), forall_eq, List.count, List.countP_map]
  rfl

end ReservationTable

namespace Schedule

variable {α : Type} {s : Schedule α} {g : Graph α} {limits : Limits} {interval : Int}
  {unit : String} {bound : Nat} {k : KeyFigures}

/-! ### Key figures -/

/-- The key figures of a schedule, where supernodes that are not there are passed over. -/
def figures (s : Schedule α) (g : Graph α) : KeyFigures where
  latency :=
    max (greatest ((g.blockSinks.filterMap g.node?).filterMap fun op => s.cycle? op.name)) 0
  blockLatency := .ofList (g.blocks.filterMap fun b => (s.blockLatency? b).map (b.name, ·))
  interval := s.interval
  peakIssue := s.peakIssue g
  columnPeak :=
    match s.interval with
    | some interval => (ReservationTable.ofSchedule g s interval).peaks
    | none => .empty
  scheduledNodes := s.cycles.size

theorem sinkCycle?_eq_ok_iff {u : Nat} {cycle : Option Int} :
    s.sinkCycle? g u = .ok cycle ↔ ∃ op, g.node? u = some op ∧ cycle = s.cycle? op.name := by
  rw [sinkCycle?]
  cases g.node? u with
  | none => simp
  | some op => simp [eq_comm]

theorem exists_sinkCycle?_iff {u : Nat} : (∃ cycle, s.sinkCycle? g u = .ok cycle) ↔ u < g.size := by
  simp only [sinkCycle?_eq_ok_iff, Graph.node?, List.getElem?_eq_some_iff]
  constructor
  · rintro ⟨_, _, ⟨hlt, _⟩, _⟩
    exact hlt
  · intro hlt
    exact ⟨_, _, ⟨hlt, rfl⟩, rfl⟩

theorem filterMap_sinkCycles {us : List Nat} {cycleOf : Nat → Option Int}
    (h : ∀ u ∈ us, s.sinkCycle? g u = .ok (cycleOf u)) :
    (us.map cycleOf).filterMap id =
      (us.filterMap g.node?).filterMap fun op => s.cycle? op.name := by
  rw [List.filterMap_map, List.filterMap_filterMap]
  refine List.filterMap_congr fun u hu => ?_
  rcases sinkCycle?_eq_ok_iff.mp (h u hu) with ⟨op, hop, hcycle⟩
  simp [hop, hcycle]

/-- There are key figures if all last supernodes that blocks have recorded are there. -/
theorem keyFigures_eq_ok_iff :
    s.keyFigures g = .ok k ↔ (∀ u ∈ g.blockSinks, u < g.size) ∧ k = s.figures g := by
  constructor
  · intro h
    cases hcycles : g.blockSinks.mapM (s.sinkCycle? g) with
    | error e =>
        rw [keyFigures, hcycles] at h
        cases h
    | ok cycles =>
        rcases mapM_ok_iff.mp hcycles with ⟨cycleOf, hall, rfl⟩
        rw [keyFigures, hcycles] at h
        refine ⟨fun u hu => exists_sinkCycle?_iff.mp ⟨_, hall u hu⟩, ?_⟩
        rw [figures, ← filterMap_sinkCycles hall]
        exact (Except.ok.inj h).symm
  · rintro ⟨hthere, rfl⟩
    -- A supernode that is there has a cycle to look up, or none.
    have hall : ∀ u ∈ g.blockSinks,
        s.sinkCycle? g u = .ok ((g.node? u).bind fun op => s.cycle? op.name) := by
      intro u hu
      have hlt : u < g.ops.length := hthere u hu
      have hop : g.node? u = some g.ops[u] := List.getElem?_eq_getElem hlt
      exact sinkCycle?_eq_ok_iff.mpr ⟨_, hop, by rw [hop, Option.bind_some]⟩
    rw [keyFigures, mapM_ok_iff.mpr ⟨_, hall, rfl⟩, figures, ← filterMap_sinkCycles hall]
    rfl

/-! ### Peaks -/

/-- The peak of a class is the greatest number of its operations in a slot. -/
theorem peakIssue_le_iff :
    ((s.peakIssue g).get? unit).getD 0 ≤ bound ↔
      ∀ slot : IssueSlot, slot.unit = unit →
        g.ops.countP (fun op => s.slotOf? op == some slot) ≤ bound := by
  have hcount : ∀ slot : IssueSlot,
      (g.ops.filterMap s.slotOf?).count slot =
        g.ops.countP fun op => s.slotOf? op == some slot := by
    intro slot
    rw [List.count, List.countP_filterMap]
    refine List.countP_congr fun op _ => ?_
    cases s.slotOf? op with
    | none => simp
    | some other => simp
  rw [peakIssue, NameMap.getD_ofPeaks_le_iff, List.forall_mem_map]
  simp only [← hcount]
  exact tally_le_iff (p := fun slot : IssueSlot => slot.unit = unit)

/-- The operations of a slot are among those of its class in its column. -/
theorem countP_slot_le_occupancy (s : Schedule α) (g : Graph α) (interval : Int)
    (slot : IssueSlot) :
    g.ops.countP (fun op => s.slotOf? op == some slot) ≤
      (ReservationTable.ofSchedule g s interval).occupancy
        ((ReservationTable.ofSchedule g s interval).columnOf slot.cycle) slot.unit := by
  rw [ReservationTable.occupancy, ReservationTable.column, List.countP_filter,
    reservations_ofSchedule, List.countP_filterMap]
  refine List.countP_mono_left fun op _ hop => ?_
  rcases slotOf?_eq_some_iff.mp (beq_iff_eq.mp hop) with ⟨_, hunit, hcycle⟩
  rw [reservation?, hcycle, hunit]
  simp

/-- A class has no greater peak in the slots than in the columns. -/
theorem peakIssue_le_peaks (s : Schedule α) (g : Graph α) (interval : Int) (unit : String) :
    ((s.peakIssue g).get? unit).getD 0 ≤
      ((ReservationTable.ofSchedule g s interval).peaks.get? unit).getD 0 := by
  rw [peakIssue_le_iff]
  rintro slot rfl
  -- The column of a slot is one of the table, also if its cycle is negative.
  refine (countP_slot_le_occupancy s g interval slot).trans
    (ReservationTable.peaks_le_iff.mp (le_refl _) _ ?_)
  have hwidth : 0 < (ReservationTable.ofSchedule g s interval).interval := by
    change 0 < (max interval 1).toNat
    omega
  rw [ReservationTable.columnOf]
  have hsign := Int.emod_nonneg slot.cycle (Int.natCast_ne_zero.mpr hwidth.ne')
  have hrange := Int.emod_lt_of_pos slot.cycle (Int.natCast_pos.mpr hwidth)
  omega

/-! ### Checks -/

theorem checkIssue_eq_nil_iff_admits :
    s.checkIssue g limits = [] ↔ limits.Admit (s.peakIssue g) := by
  rw [checkIssue_eq_nil_iff]
  constructor
  · intro h unit capacity hcapacity
    exact peakIssue_le_iff.mpr fun slot hslot => h slot capacity (hslot ▸ hcapacity)
  · intro h slot capacity hcapacity
    exact peakIssue_le_iff.mp (h slot.unit capacity hcapacity) slot rfl

theorem checkColumns_eq_nil_iff_admits :
    s.checkColumns g limits interval = [] ↔
      limits.Admit (ReservationTable.ofSchedule g s interval).peaks := by
  rw [checkColumns_eq_nil_iff]
  exact forall₃_congr fun _ _ _ =>
    (ReservationTable.peaks_le_iff (t := ReservationTable.ofSchedule g s interval)).symm

/-- There are key figures exactly if all last supernodes that blocks have recorded are
    there, and then they decide both checks. No slot has more operations of a class than the
    greatest number allowed exactly if the peak per slot is within the capacity, no column
    has exactly if the peak per column is. No class has more operations in a slot than in a
    column, so what passes the check of the columns passes the other. -/
theorem key_figures_decide_checks (s : Schedule α) (g : Graph α) (limits : Limits) :
    ((∃ k, s.keyFigures g = .ok k) ↔ ∀ u ∈ g.blockSinks, u < g.size) ∧
      ∀ k, s.keyFigures g = .ok k →
        (s.checkIssue g limits = [] ↔ limits.Admit k.peakIssue) ∧
          ∀ interval, s.interval = some interval →
            (s.checkColumns g limits interval = [] ↔ limits.Admit k.columnPeak) ∧
              (∀ unit, (k.peakIssue.get? unit).getD 0 ≤ (k.columnPeak.get? unit).getD 0) ∧
              (s.checkColumns g limits interval = [] → s.checkIssue g limits = []) := by
  refine ⟨?_, fun k hk => ?_⟩
  · simp only [keyFigures_eq_ok_iff, exists_and_left, exists_eq, and_true]
  · rcases keyFigures_eq_ok_iff.mp hk with ⟨_, rfl⟩
    refine ⟨checkIssue_eq_nil_iff_admits, fun interval hinterval => ?_⟩
    have hcolumns : (s.figures g).columnPeak =
        (ReservationTable.ofSchedule g s interval).peaks := by
      rw [figures, hinterval]
    rw [hcolumns]
    refine ⟨checkColumns_eq_nil_iff_admits, peakIssue_le_peaks s g interval, fun h => ?_⟩
    rw [checkColumns_eq_nil_iff_admits] at h
    exact checkIssue_eq_nil_iff_admits.mpr fun unit capacity hcapacity =>
      (peakIssue_le_peaks s g interval unit).trans (h unit capacity hcapacity)

/-- Five operations of one block. The two divisions are of different kinds. -/
def rolledGraph : Graph Rat where
  name := "rolled"
  ops := [.ofKind "m" .mul 0, .ofKind "n" .mul 0, .ofKind "q" .div 0, .ofKind "r" .udiv 0,
    .ofKind "p" .phi 0]
  register := ["m", "n", "q", "r", "p"]
  blocks := [{ id := 0, name := "entry", members := [0, 1, 2, 3, 4] }]

/-- The multiplications start four cycles apart, the first one before cycle zero, and a new
    iteration starts every two cycles. -/
def rolled : Schedule Rat where
  outcome := .feasible
  cycles := .ofList [("m", -3), ("n", 1), ("q", 0), ("r", 0), ("p", -2)]
  interval := some 2

/-- One multiplier is enough for the slots, and not for the columns. -/
theorem key_figures_decide_checks_rolled :
    ∃ k limits, limits.capacity? "mul" = some 1 ∧ limits.capacity? "div" = some 2 ∧
      rolled.keyFigures rolledGraph = .ok k ∧
      k.peakIssue.entries = [("div", 2), ("mul", 1)] ∧
      k.columnPeak.entries = [("div", 2), ("mul", 2)] ∧
      rolled.checkIssue rolledGraph limits = [] ∧
      rolled.checkColumns rolledGraph limits 2 ≠ [] := by
  have hfigures : rolled.keyFigures rolledGraph = .ok (rolled.figures rolledGraph) :=
    keyFigures_eq_ok_iff.mpr ⟨nofun, rfl⟩
  let limits : Limits := ⟨.ofList [("mul", 1), ("div", 2)]⟩
  rcases (key_figures_decide_checks rolled rolledGraph limits).2 _ hfigures with ⟨hissue, hcolumns⟩
  refine ⟨_, limits, by decide +kernel, by decide +kernel, hfigures, by decide +kernel,
    by decide +kernel, hissue.mpr (by decide +kernel), fun hnone => ?_⟩
  exact absurd ((hcolumns 2 rfl).1.mp hnone) (by decide +kernel)

end Schedule

end CyclePlan
