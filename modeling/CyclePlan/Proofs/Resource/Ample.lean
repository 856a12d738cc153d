import CyclePlan.Proofs.Pinning
import CyclePlan.Proofs.Resource.Compaction
import CyclePlan.Proofs.Resource.InFlight

/-!
# Ample Limits

Limits that are never in the way.

Suppose that every limited class has a unit for each of its operations. An operation that
looks for room counts the others of its class that were placed in its column, never
itself. That is fewer than there are operations of the class, so there is room wherever it
looks and whatever was placed before (`Limits.Ample.fits`). A column of a finished schedule
may have all operations of a class, and the check allows that (`Limits.Ample.checkColumns`).

The queues of the limited classes have every limited operation once, so that is how many
passes it takes to look at each of them (`View.sum_unitQueue_le`).

## Main definitions

* `Limits.Ample`: A unit for every operation.

## Theorems

* `Limits.Ample.fits`: There is room everywhere.
* `Limits.Ample.checkColumns`: The check finds nothing.
* `View.sum_unitQueue_le`, `View.limitedCount_eq`: How many operations wait.
-/

namespace CyclePlan

/-- Every limited class has a unit for each of its operations. -/
def Limits.Ample (limits : Limits) (g : Graph Rat) : Prop :=
  ∀ e ∈ limits.toList, g.ops.countP (fun op => op.kind.unit? == some e.1) ≤ e.2

instance (limits : Limits) (g : Graph Rat) : Decidable (limits.Ample g) :=
  inferInstanceAs (Decidable (∀ e ∈ limits.toList, _))

variable {limits : Limits} {g : Graph Rat} {v : View Rat} {interval : Int} {unit : String}
  {capacity : Nat}

/-! ### Room -/

/-- Items are no more than what they were made from. -/
theorem countP_filterMap_le {β γ : Type} {f : β → Option γ} {p : γ → Bool} {q : β → Bool}
    {l : List β} (h : ∀ a ∈ l, ∀ b, f a = some b → p b = true → q a = true) :
    (l.filterMap f).countP p ≤ l.countP q := by
  rw [List.countP_filterMap]
  refine List.countP_mono_left fun a ha hcounted => ?_
  cases hb : f a with
  | none =>
      rw [hb] at hcounted
      cases hcounted
  | some b =>
      rw [hb] at hcounted
      exact h a ha b hb hcounted

/-- What is recorded of an operation has its name and its class. -/
theorem eq_of_recorded {cycle? : Option Int} {kind : Opcode} {name : String} {r : Reservation}
    (h : cycle?.bind (fun k => kind.unit?.map (⟨name, ·, k⟩)) = some r) :
    r.node = name ∧ kind.unit? = some r.unit := by
  rcases Option.bind_eq_some_iff.mp h with ⟨k, _, hunit⟩
  rcases Option.map_eq_some_iff.mp hunit with ⟨u, hu, rfl⟩
  exact ⟨rfl, hu⟩

/-- A column has no more operations of a class than there are. -/
theorem Schedule.occupancy_le (s : Schedule Rat) (g : Graph Rat) (interval : Int) (column : Nat)
    (unit : String) :
    (ReservationTable.ofSchedule g s interval).occupancy column unit ≤
      g.ops.countP fun op => op.kind.unit? == some unit := by
  rw [ReservationTable.occupancy, ReservationTable.column, List.countP_filter,
    reservations_ofSchedule]
  refine countP_filterMap_le fun op _ r hr hcounted => ?_
  rcases eq_of_recorded hr with ⟨_, hunit⟩
  rw [Bool.and_eq_true, beq_iff_eq] at hcounted
  rw [hunit, hcounted.1, beq_iff_eq]

/-- The check of columns finds nothing, whatever the schedule and the interval. -/
theorem Limits.Ample.checkColumns (hample : limits.Ample g) (s : Schedule Rat) (interval : Int) :
    s.checkColumns g limits interval = [] := by
  refine Schedule.checkColumns_eq_nil_iff.mpr fun unit capacity hcapacity column _ => ?_
  exact (s.occupancy_le g interval column unit).trans
    (hample (unit, capacity) (NameMap.get?_eq_some_iff.mp hcapacity))

/-- An operation of a limited class has room in every cycle, whatever was placed. -/
theorem Limits.Ample.fits (hample : limits.Ample g) {h : Handle Rat}
    (hview : View.ofGraph g = .ok h.view) {n : View.Node Rat} (hn : n ∈ h.view.nodes)
    (hunit : n.kind.unit? = some unit) (hentry : (unit, capacity) ∈ limits.toList) (interval : Int)
    (placed : List String) (cycle : Int) :
    CyclePlan.fits h interval unit capacity placed n.name cycle = true := by
  have hothers : ∀ m : View.Node Rat, (m.kind.unit? == some unit && m.name != n.name) = true →
      (m.kind.unit? == some unit) = true := fun _ hm => (Bool.and_eq_true_iff.mp hm).1
  rw [CyclePlan.fits, ReservationTable.hasRoom, decide_eq_true_eq, ReservationTable.column,
    List.countP_filter, View.reservations_ofView]
  calc _ ≤ h.view.nodes.countP fun m => m.kind.unit? == some unit && m.name != n.name := by
        refine countP_filterMap_le fun m _ r hr hcounted => ?_
        rcases eq_of_recorded hr with ⟨hname, hclass⟩
        simp only [Bool.and_eq_true, beq_iff_eq] at hcounted
        rw [hclass, hcounted.1.1.1, ← hname, beq_self_eq_true, Bool.true_and]
        exact hcounted.1.1.2
    -- The operation itself is not among the others.
    _ < h.view.nodes.countP fun m => m.kind.unit? == some unit :=
        countP_lt_countP (fun m _ => hothers m) hn (beq_iff_eq.mpr hunit) (by simp)
    _ = g.ops.countP fun op => op.kind.unit? == some unit :=
        View.countP_nodes hview (fun _ _ => rfl) fun op hop =>
          Opcode.not_isStripped_of_unit? (beq_iff_eq.mp hop)
    _ ≤ capacity := hample _ hentry

/-! ### Passes -/

/-- Items of different kinds are counted together once. -/
theorem sum_countP_le {β : Type} {keys : List String} (hnodup : keys.Nodup) {l : List β}
    {k : β → Option String} {q : β → Bool}
    (h : ∀ a ∈ l, ∀ key ∈ keys, k a = some key → q a = true) :
    (keys.map fun key => l.countP (k · == some key)).sum ≤ l.countP q := by
  induction keys generalizing q with
  | nil => exact Nat.zero_le _
  | cons key keys ih =>
      rcases List.nodup_cons.mp hnodup with ⟨hnew, hrest⟩
      -- The first kind, and then those of the items that are not of it.
      have hlater := ih hrest (q := fun a => q a && k a != some key) fun a ha key' hkey' hk => by
        rw [h a ha key' (List.mem_cons_of_mem _ hkey') hk, hk, Bool.true_and, bne_iff_ne]
        rintro ⟨rfl⟩
        exact hnew hkey'
      have hfirst : l.countP (k · == some key) ≤ l.countP fun a => q a && k a == some key := by
        refine List.countP_mono_left fun a ha hk => ?_
        rw [h a ha key List.mem_cons_self (beq_iff_eq.mp hk), Bool.true_and, hk]
      rw [List.map_cons, List.sum_cons,
        List.countP_eq_countP_filter_add l q (fun a => k a == some key), List.countP_filter,
        List.countP_filter]
      exact Nat.add_le_add hfirst hlater

namespace View

theorem length_unitQueue (hview : ofGraph g = .ok v) (unit : String) :
    (v.unitQueue unit).length = v.nodes.countP fun n => n.kind.unit? == some unit := by
  rw [unitQueue, List.length_map, ← List.countP_eq_length_filter,
    (orderedNodes_perm hview).countP_eq]

/-- The queues of the limited classes have no more operations than are limited. -/
theorem sum_unitQueue_le (hview : ofGraph g = .ok v) (limits : Limits) :
    (limits.toList.map fun e => (v.unitQueue e.1).length).sum ≤ v.limitedCount limits := by
  have hsum := sum_countP_le (l := v.nodes) (k := fun n => n.kind.unit?) limits.toList_nodup
    (q := fun n => (limits.capacityOf? n.kind).isSome) fun n _ unit hmem hunit => by
      rcases List.mem_map.mp hmem with ⟨e, he, rfl⟩
      exact Limits.capacityOf?_isSome_iff.mpr ⟨e, he, hunit⟩
  rw [List.map_map] at hsum
  simp only [length_unitQueue hview]
  exact hsum

/-- Limited operations are counted on the graph. -/
theorem limitedCount_eq (hview : ofGraph g = .ok v) (limits : Limits) :
    v.limitedCount limits = g.ops.countP fun op => (limits.capacityOf? op.kind).isSome := by
  refine countP_nodes hview (fun _ _ => rfl) fun op hop => ?_
  rcases Limits.capacityOf?_isSome_iff.mp hop with ⟨_, _, hunit⟩
  exact Opcode.not_isStripped_of_unit? hunit

end View

end CyclePlan
