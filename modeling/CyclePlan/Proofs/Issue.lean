import CyclePlan.Proofs.OrderedProblem
import CyclePlan.Proofs.Schedule.Check

/-!
# Operations that are Issued

What ordering does for the operations that start in the same cycle.

The check of a schedule counts operations that start together, and ordering bounds
operations that are in flight together. An operation that takes time is in flight in
the cycle in which it starts, so of those no more start together than the capacity
allows (`Engine.issue_le_of_holds`), and where all operations of limited classes take
time the check finds nothing (`Engine.ordered_schedule_checks`).

An operation that takes no time is never in flight. It is ordered like any other, but
the one that waits for it may start in the same cycle. If nothing takes time, then as
soon as possible everything starts in the first cycle, and the check reports every
queue that is longer than its capacity (`Engine.instant_schedule_exceeds`).

## Main definitions

* `Graph.instants`: Two multiplications that take no time.

## Theorems

* `Schedule.slotOf?_eq_some_iff_competes`, `Schedule.checkIssue_ne_nil`: What the check
  looks at.
* `Engine.issue_le_of_holds`: Operations that take time.
* `Engine.ordered_schedule_checks`: When the check finds nothing.
* `Engine.instant_schedule_exceeds`: Where it finds something.
-/

namespace CyclePlan

/-! ### The check -/

namespace Schedule

variable {s : Schedule Rat} {g : Graph Rat} {limits : Limits} {slot : IssueSlot}
  {op : Operation Rat}

/-- An operation is issued in a slot if it competes there and starts in its cycle. -/
theorem slotOf?_eq_some_iff_competes :
    s.slotOf? op = some slot ↔
      op.competes slot.block slot.unit = true ∧ s.cycle? op.name = some slot.cycle := by
  rw [Operation.competes, Bool.and_eq_true, beq_iff_eq, beq_iff_eq, slotOf?_eq_some_iff, and_assoc]

/-- A slot with more operations than the capacity is found. -/
theorem checkIssue_ne_nil {capacity : Nat} (hcapacity : limits.capacity? slot.unit = some capacity)
    (hmany : capacity < g.ops.countP fun op => s.slotOf? op == some slot) :
    s.checkIssue g limits ≠ [] :=
  fun hnone => Nat.not_le.mpr hmany (checkIssue_eq_nil_iff.mp hnone slot capacity hcapacity)

/-- An operation that needs a unit is issued in the cycle that it is given. -/
theorem Realizes.slotOf?_eq {v : View Rat} {y : String → Rat} {block : Nat} {unit : String}
    {cycle : Int} (h : s.Realizes v y) (hview : View.ofGraph g = .ok v) (hop : op ∈ g.ops)
    (hcompetes : op.competes block unit = true)
    (hstart : ∀ n ∈ v.nodes, n.name = op.name → y (startVar n.name) = cycle) :
    s.slotOf? op = some ⟨block, cycle, unit⟩ := by
  have hkind := hcompetes
  rw [Operation.competes, Bool.and_eq_true, beq_iff_eq, beq_iff_eq] at hkind
  rcases View.exists_nodeOf_mem hview hop hkind.2 with ⟨_, hn⟩
  exact slotOf?_eq_some_iff_competes.mpr
    ⟨hcompetes, (h.cycle_iff op.name cycle).mpr ⟨⟨_, hn, rfl⟩, hstart _ hn rfl⟩⟩

end Schedule

/-! ### Operations that take time -/

namespace Engine

variable {t : Discipline} {solver : Solver Rat} {sameBlockOnly : Bool} {g : Graph Rat}
  {v : View Rat} {m : Model Rat} {ls : List Limits} {limits : Limits} {outcome : Outcome}
  {e e' e₁ e₂ : Engine Rat} {s : Schedule Rat} {y : String → Rat}

/-- Of the operations that take time, no more start together than there are units. -/
theorem issue_le_of_holds (hfit : g.Fit) (hview : View.ofGraph g = .ok v)
    (hreal : s.Realizes v y) (hholds : ∀ r ∈ waitingRows v limits, r.Holds y) {slot : IssueSlot}
    {capacity : Nat} (hcapacity : limits.capacity? slot.unit = some capacity) :
    g.ops.countP (fun op => s.slotOf? op == some slot && decide (0 < op.latency)) ≤ capacity := by
  refine le_trans (List.countP_mono_left fun op _ hop => ?_)
    (countP_inFlight_of_holds hfit hview hholds hcapacity slot.block slot.cycle)
  rw [Bool.and_eq_true, beq_iff_eq, decide_eq_true_iff] at hop
  rcases Schedule.slotOf?_eq_some_iff_competes.mp hop.1 with ⟨hcompetes, hcycle⟩
  -- In the cycle in which it starts, it is in flight.
  have hstart := ((hreal.cycle_iff op.name slot.cycle).mp hcycle).2
  rw [hcompetes, Bool.true_and, decide_eq_true_iff, hstart]
  exact ⟨le_refl _, by linarith [hop.2]⟩

/-- After ordering by some limits, every schedule that is found issues in each cycle no
    more operations of a block and class that take time than the limits allow. If all
    operations of limited classes take time, then its check finds nothing. -/
theorem ordered_schedule_checks (hsound : solver.Sound)
    (hload : perform (load g) (fresh t solver sameBlockOnly) = (.ok ⟨⟩, e₁))
    (hbuild : perform build e₁ = (.ok ⟨⟩, e₂)) (hordered : OrderedBy e₂ ls e)
    (hlimits : limits ∈ ls) (hsolve : perform solve e = (.ok outcome, e'))
    (hassign : outcome.hasAssignment = true) :
    ∃ s, e'.schedule = .ok s ∧
      (∀ slot capacity, limits.capacity? slot.unit = some capacity →
        g.ops.countP (fun op => s.slotOf? op == some slot && decide (0 < op.latency))
          ≤ capacity) ∧
      ((∀ op ∈ g.ops, (limits.capacityOf? op.kind).isSome = true → 0 < op.latency) →
        s.checkIssue g limits = []) := by
  have hfit := Graph.fit_of_defects (load_ok_iff.mp hload).1
  rcases build_renders hload hbuild with ⟨v, m, hview, hm, rfl⟩
  rcases hordered.exists_realizes hsound (hfit.node_names_nodup hview) hm hsolve hassign with
    ⟨s, y, hschedule, hreal, hy⟩
  have hholds : ∀ r ∈ waitingRows v limits, r.Holds y := fun r hr =>
    (Program.isSolution_withRows_iff.mp hy).2 r (List.mem_flatMap.mpr ⟨limits, hlimits, hr⟩)
  have hissue : ∀ slot capacity, limits.capacity? slot.unit = some capacity →
      g.ops.countP (fun op => s.slotOf? op == some slot && decide (0 < op.latency))
        ≤ capacity := fun slot capacity => issue_le_of_holds hfit hview hreal hholds
  refine ⟨s, hschedule, hissue, fun htime => ?_⟩
  refine Schedule.checkIssue_eq_nil_iff.mpr fun slot capacity hcapacity => ?_
  refine le_trans (List.countP_mono_left fun op hop hslot => ?_) (hissue slot capacity hcapacity)
  have hcompetes := (Schedule.slotOf?_eq_some_iff_competes.mp (beq_iff_eq.mp hslot)).1
  rw [Operation.competes, Bool.and_eq_true, beq_iff_eq, beq_iff_eq] at hcompetes
  have hlimited := Limits.capacityOf?_isSome_of_unit? hcompetes.2 hcapacity
  rw [hslot, Bool.true_and, decide_eq_true_iff]
  exact htime op hop hlimited

/-- Three additions in two blocks, which take a cycle each, ordered for one adder. -/
theorem ordered_schedule_checks_additions :
    oracle.Sound ∧ ∃ e₁ e₂ e e' s,
      perform (load Graph.additions) (fresh .asap oracle true) = (.ok ⟨⟩, e₁) ∧
      perform build e₁ = (.ok ⟨⟩, e₂) ∧ OrderedBy e₂ [Limits.oneAdder] e ∧
      perform solve e = (.ok .optimal, e') ∧ Outcome.optimal.hasAssignment = true ∧
      e'.schedule = .ok s ∧
      (∀ slot capacity, Limits.oneAdder.capacity? slot.unit = some capacity →
        Graph.additions.ops.countP (fun op => s.slotOf? op == some slot &&
          decide (0 < op.latency)) ≤ capacity) ∧
      s.checkIssue Graph.additions Limits.oneAdder = [] := by
  have hfit := Graph.fit_of_defects Graph.additions_defects
  rcases exists_load .asap oracle true Graph.additions_defects with ⟨e₁, hload⟩
  rcases exists_build_asap hload with ⟨e₂, hbuild⟩
  rcases build_renders hload hbuild with ⟨v, m, hview, hm, rfl⟩
  have hordered := (OrderedBy.start (e := builtWith .asap oracle true v m)).ordered
    [Limits.oneAdder]
  have hfree : v.FreeUnits [Limits.oneAdder] :=
    View.freeUnits_of_entries (List.forall_mem_singleton.mpr ⟨[("add", 1)], rfl⟩)
  rcases hordered.exists_solve (.inl rfl) oracle_exact hfit hview hm hfree with
    ⟨e', _, hsolve, _⟩
  rcases ordered_schedule_checks oracle_sound hload hbuild hordered List.mem_cons_self hsolve rfl
    with ⟨s, hschedule, hissue, hchecks⟩
  exact ⟨oracle_sound, e₁, _, _, e', s, hload, hbuild, hordered, hsolve, rfl, hschedule, hissue,
    hchecks (by decide +kernel)⟩

/-! ### Operations that take no time -/

/-- If nothing takes time, then as soon as possible everything starts in the first cycle,
    ordered or not. -/
theorem OrderedBy.starts_of_instant
    (hm : m.Renders (Discipline.program .asap v sameBlockOnly))
    (hordered : OrderedBy (builtWith .asap solver sameBlockOnly v m) ls e)
    (hinstant : ∀ n ∈ v.nodes, n.latency = 0) {x : Nat → Rat} (hx : e.model.IsOptimum x) :
    ∀ n ∈ v.nodes, e.model.valueOf x (startVar n.name) = 0 := by
  have hprogram := hordered.renders hm
  have hleast : ((Discipline.program .asap v sameBlockOnly).withRows
      (ls.flatMap (waitingRows v))).IsLeast v fun _ => 0 := by
    refine ⟨Program.isSolution_withRows_iff.mpr ⟨Discipline.asap_isSolution_iff.mpr
      ⟨fun _ _ => le_refl _, fun _ _ => ⟨0, Int.cast_zero.symm⟩, fun p hp => ?_⟩,
      fun r hr => ?_⟩, fun z hz n hn => ?_⟩
    · have hsource := (View.mem_nodes_of_forwardPairs (List.mem_of_mem_filter hp)).1
      rw [hinstant _ hsource, add_zero]
    · rcases List.mem_flatMap.mp hr with ⟨limits, _, hr⟩
      rcases List.mem_map.mp hr with ⟨p, hp, rfl⟩
      rw [Row.dependency_holds_iff, hinstant _ (mem_nodes_of_waitingPairs hp).1, add_zero]
    · exact (Discipline.startsHold_of_isSolution
        (Program.isSolution_withRows_iff.mp hz).1).nonneg n hn
  exact hleast.eq_of_isBest (Discipline.asap_sumsStarts.withRows _)
    ((hprogram.isOptimum_iff x).mp hx)

/-- If nothing takes time, then after any ordering calls the check reports every class
    with more operations in a block than units. -/
theorem instant_schedule_exceeds (hexact : solver.Exact)
    (hload : perform (load g) (fresh .asap solver sameBlockOnly) = (.ok ⟨⟩, e₁))
    (hbuild : perform build e₁ = (.ok ⟨⟩, e₂)) (hordered : OrderedBy e₂ ls e)
    (hinstant : ∀ op ∈ g.ops, op.latency = 0) {block : Nat} {unit : String} {capacity : Nat}
    (hcapacity : limits.capacity? unit = some capacity)
    (hmany : capacity < g.ops.countP (·.competes block unit)) :
    ∃ e' s, perform solve e = (.ok .optimal, e') ∧ e'.schedule = .ok s ∧
      s.checkIssue g limits ≠ [] := by
  have hfit := Graph.fit_of_defects (load_ok_iff.mp hload).1
  rcases build_renders hload hbuild with ⟨v, m, hview, hm, rfl⟩
  have hlatency : ∀ n ∈ v.nodes, n.latency = 0 := by
    intro n hn
    rcases (View.mem_nodes_iff hview).mp hn with ⟨op, hop, _, heq⟩
    rw [heq]
    exact hinstant op (List.mem_of_getElem? hop)
  have hfree : v.FreeUnits ls := fun _ _ n hn _ => hlatency n hn
  rcases hordered.exists_solve (.inl rfl) hexact hfit hview hm hfree with
    ⟨e', x, hsolve, hcarries, hoptimum⟩
  rcases solved_realizes (hfit.node_names_nodup hview) hm hordered.reaches hsolve rfl hcarries
    hoptimum.integral with ⟨s, hschedule, _, _, hreal⟩
  have hstart := hordered.starts_of_instant hm hlatency hoptimum
  rw [hordered.valueOf_eq hm] at hstart
  -- All operations of the class in the block share the slot of the first cycle.
  have hcount : g.ops.countP (·.competes block unit)
      ≤ g.ops.countP fun op => s.slotOf? op == some ⟨block, 0, unit⟩ := by
    refine List.countP_mono_left fun op hop hcompetes => beq_iff_eq.mpr ?_
    exact hreal.slotOf?_eq hview hop hcompetes fun n hn _ => by rw [hstart n hn, Int.cast_zero]
  exact ⟨e', s, hsolve, hschedule,
    Schedule.checkIssue_ne_nil hcapacity (Nat.lt_of_lt_of_le hmany hcount)⟩

end Engine

/-- Two multiplications that take no time. -/
def Graph.instants : Graph Rat where
  name := "muls"
  ops := [{ name := "m1", kind := .mul, block := 0, latency := 0 },
    { name := "m2", kind := .mul, block := 0, latency := 0 },
    .ofKind "ssrc_0" .superSource 0, .ofKind "ssink_0" .superSink 0]
  register := ["m1", "m2", "ssrc_0", "ssink_0"]
  edges := [⟨2, 0, false⟩, ⟨0, 3, false⟩, ⟨2, 1, false⟩, ⟨1, 3, false⟩]
  blocks := [{ id := 0, name := "b", members := [0, 1], source := some 2, sink := some 3 }]

theorem Graph.instants_defects : instants.defects = [] := by decide +kernel

namespace Engine

/-- They share one multiplier and are ordered for it, and both start in the first cycle. -/
theorem exists_overfull_slot :
    oracle.Exact ∧ ∃ e₁ e₂ e e' s,
      perform (load Graph.instants) (fresh .asap oracle true) = (.ok ⟨⟩, e₁) ∧
      perform build e₁ = (.ok ⟨⟩, e₂) ∧
      OrderedBy e₂ [(Limits.ofEntries [("mul", 1)]).1] e ∧
      perform solve e = (.ok .optimal, e') ∧ e'.schedule = .ok s ∧
      s.checkIssue Graph.instants (Limits.ofEntries [("mul", 1)]).1 ≠ [] := by
  rcases exists_load .asap oracle true Graph.instants_defects with ⟨e₁, hload⟩
  rcases exists_build_asap hload with ⟨e₂, hbuild⟩
  have hordered := (OrderedBy.start (e := e₂)).ordered [(Limits.ofEntries [("mul", 1)]).1]
  have hinstant : ∀ op ∈ Graph.instants.ops, op.latency = 0 := by decide +kernel
  have hcapacity : (Limits.ofEntries [("mul", 1)]).1.capacity? "mul" = some 1 := by
    decide +kernel
  have hmany : 1 < Graph.instants.ops.countP (·.competes 0 "mul") := by decide +kernel
  rcases instant_schedule_exceeds oracle_exact hload hbuild hordered hinstant hcapacity hmany with
    ⟨e', s, hsolve, hschedule, hover⟩
  exact ⟨oracle_exact, e₁, e₂, _, e', s, hload, hbuild, hordered, hsolve, hschedule, hover⟩

end Engine

end CyclePlan
