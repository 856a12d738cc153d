import Mathlib.Algebra.Group.Ext
import Mathlib.Data.List.Permutation
import CyclePlan.Proofs.Engine.Loans
import CyclePlan.Proofs.Engine.Potentials
import CyclePlan.Proofs.LastSolve
import CyclePlan.Proofs.Lp.BackedSolver
import CyclePlan.Proofs.Resource.Columns
import CyclePlan.Proofs.Resource.Trial

/-!
# Pinning Keeps Within Limits

If pinning succeeds, no solution of the model overfills a column.

The procedure looks at a solution, but what it promises is about all solutions of
the model that it leaves behind. The bridge is that an operation is placed by
deciding its start cycle for good: the column that it was placed in is its column
in every solution. So it is enough to count the operations placed so far, and the
invariant of the loop is that no column has too many of them (`Pins`). A
push does not touch the invariant, since a sound solver leaves all operations that
have been placed where they are.

The procedure only ever asks whether there is room among the operations placed so
far. At the end these are all operations of limited classes, because a
class is only left when its queue is empty.

Counting passes is part of the same invariant (`Stage`): each pass pins or pushes,
and adds one constraint either way.

## Main definitions

* `Pins`: What has been decided.
* `Stage`: The invariant of pinning.
* `Graph.trailing`, `View.trailing`: Two additions and a multiplication behind one of them.
* `Engine.solvedTrailing`: The graph, solved for an interval of two cycles.

## Theorems

* `Stage.pin`, `Stage.push`: What one pass preserves.
* `Stage.place`, `Stage.placeAll`: What the loops preserve.
* `pinToColumns_legal`: What success means.
-/

namespace CyclePlan

variable {limits : Limits} {interval : Int} {budget : PinningBudget} {h h' : Handle Rat}
  {t t' : Trial Rat} {p p' : Progress} {unit : String} {capacity remaining pushes : Nat}
  {placed queue : List String} {n : View.Node Rat} {cycle : Int} {c : String → Int}

/-- The operations placed so far have cycles that the model has decided and that
    the last solution agrees with, and no column has too many of them. -/
structure Pins (limits : Limits) (interval : Int) (h : Handle Rat) (placed : List String)
    (c : String → Int) : Prop where
  read : ∀ name ∈ placed, h.cycle? name = some (c name)
  forced : ∀ name ∈ placed, h.model.Forces (startVar name) (c name)
  legal : ∀ unit capacity, limits.capacity? unit = some capacity →
    ∀ column, h.view.share interval unit c placed column ≤ capacity

/-- An operation is placed where there is room. -/
theorem Pins.pin (hp : Pins limits interval h placed c)
    (hnames : (h.view.nodes.map (·.name)).Nodup) (hn : n ∈ h.view.nodes)
    (hunit : n.kind.unit? = some unit) (hcapacity : limits.capacity? unit = some capacity)
    (hnew : n.name ∉ placed) (hcycle : h.cycle? n.name = some cycle)
    (hroom : fits h interval unit capacity placed n.name cycle = true)
    (hknown : h.model.Knows (startVar n.name)) :
    Pins limits interval
      { h with model := h.model.withRow (Row.pin (startVar n.name) cycle) }
      (n.name :: placed) (Function.update c n.name cycle) := by
  have hold : ∀ name ∈ placed, Function.update c n.name cycle name = c name := by
    intro name hname
    refine Function.update_of_ne (fun heq => ?_) _ _
    exact hnew (heq ▸ hname)
  refine ⟨fun name hname => ?_, fun name hname => ?_, fun other bound hbound column => ?_⟩
  · change h.cycle? name = _
    rcases List.mem_cons.mp hname with rfl | hname
    · rw [Function.update_self, hcycle]
    · rw [hold name hname]
      exact hp.read name hname
  · rcases List.mem_cons.mp hname with rfl | hname
    · rw [Function.update_self]
      exact Model.forces_pin hknown cycle
    · rw [hold name hname]
      exact (hp.forced name hname).withRow _
  · change h.view.share interval other _ _ column ≤ bound
    have hbefore := hp.legal other bound hbound
    by_cases helse : other ≠ unit ∨ column ≠ columnAt interval cycle
    · exact le_trans (View.share_place_other hnames hn hunit helse) (hbefore column)
    · -- Its own class and column, where there was room for one more.
      rw [not_or, ne_eq, ne_eq, Decidable.not_not, Decidable.not_not] at helse
      rcases helse with ⟨rfl, rfl⟩
      cases hcapacity.symm.trans hbound
      have hfits := (View.hasRoom_iff hp.read hnew).mp hroom
      exact le_trans (View.share_place_le hnames) hfits

/-- A solution of a model in which all that was decided still holds agrees with
    it. -/
theorem Pins.of_isSatisfied (hp : Pins limits interval h placed c) (hview : h'.view = h.view)
    (hforced : ∀ name k, h.model.Forces name k → h'.model.Forces name k)
    (hsatisfied : h'.IsSatisfied) : Pins limits interval h' placed c := by
  rcases hsatisfied with ⟨x, hx⟩
  refine ⟨fun name hname => ?_, fun name hname => hforced _ _ (hp.forced name hname), ?_⟩
  · -- What the new solution says is a value in a point, and that has been decided.
    have hvalue := hforced _ _ (hp.forced name hname)
    have hread := Handle.Holds.cycle? hx hvalue.known
    rwa [hvalue.valueOf x (Handle.Holds.isPoint hx).1, Scalar.roundInt_intCast] at hread
  · rw [hview]
    exact hp.legal

/-- The invariant of pinning, from the handle that it began with. -/
structure Stage (limits : Limits) (interval : Int) (budget : PinningBudget) (h : Handle Rat)
    (t : Trial Rat) (p : Progress) : Prop where
  view : t.handle.view = h.view
  solver : t.handle.solver = h.solver
  starts : ∀ n ∈ h.view.nodes, startVariable n ∈ t.handle.model.vars
  satisfied : h.IsSatisfied → t.handle.IsSatisfied
  nodup : p.placed.Nodup
  passes : p.remaining + p.placed.length + p.pushes = budget.iterations
  added : t.added.length = p.placed.length + p.pushes
  pins : ∃ c, Pins limits interval t.handle p.placed c

/-- A solution still satisfies the model if an operation is pinned where the
    solution has it. -/
theorem Handle.IsSatisfied.pin (hx : h.IsSatisfied) (hstart : startVariable n ∈ h.model.vars)
    (hcycle : h.cycle? n.name = some cycle) :
    Handle.IsSatisfied
      { h with model := h.model.withRow (Row.pin (startVar n.name) cycle) } := by
  rcases hx with ⟨x, hx⟩
  have hknown : h.model.Knows (startVar n.name) := ⟨_, hstart, rfl⟩
  have hread := Handle.Holds.cycle? hx hknown
  rcases hx with ⟨s, hs, hstatus, hcarries, hpoint, hintegral⟩
  rcases (h.model.isIntegral_iff x).mp hintegral _ hstart rfl with ⟨k, hk⟩
  change h.model.valueOf x (startVar n.name) = k at hk
  -- The value is whole, so reading it has not changed it.
  rw [hk, Scalar.roundInt_intCast, hcycle] at hread
  cases hread
  exact ⟨x, s, hs, hstatus, hcarries,
    Model.isPoint_withRow_iff.mpr ⟨hpoint, Row.pin_holds_iff.mpr hk⟩, hintegral⟩

/-- A pass that pins. -/
theorem Stage.pin (hs : Stage limits interval budget h t ⟨remaining + 1, placed, pushes⟩)
    (hnames : (h.view.nodes.map (·.name)).Nodup) (hn : n ∈ h.view.nodes)
    (hunit : n.kind.unit? = some unit) (hcapacity : limits.capacity? unit = some capacity)
    (hnew : n.name ∉ placed) (hcycle : t.handle.cycle? n.name = some cycle)
    (hroom : fits t.handle interval unit capacity placed n.name cycle = true)
    (hknown : t.handle.model.Knows (startVar n.name)) :
    Stage limits interval budget h (t.withRow (Row.pin (startVar n.name) cycle))
      ⟨remaining, n.name :: placed, pushes⟩ := by
  have hpasses := hs.passes
  have hadded := hs.added
  rcases hs.pins with ⟨c, hp⟩
  have hpinned := hp.pin (by rw [hs.view]; exact hnames) (by rw [hs.view]; exact hn) hunit
    hcapacity hnew hcycle hroom hknown
  refine ⟨hs.view, hs.solver, hs.starts, fun hx => ?_, ?_, ?_, ?_, _, hpinned⟩
  · exact (hs.satisfied hx).pin (hs.starts n hn) hcycle
  · exact List.nodup_cons.mpr ⟨hnew, hs.nodup⟩
  · simp only [List.length_cons] at hpasses ⊢
    omega
  · simp only [Trial.withRow, List.length_append, List.length_cons, List.length_nil] at hadded ⊢
    omega

/-- A pass that pushes. -/
theorem Stage.push {r : Row}
    (hs : Stage limits interval budget h t ⟨remaining + 1, placed, pushes⟩)
    (hsound : h.solver.Sound)
    (ht : t' = { t.withRow r with handle := (t.withRow r).handle.solve })
    (hassign : t'.handle.hasAssignment = true) :
    Stage limits interval budget h t' ⟨remaining, placed, pushes + 1⟩ := by
  have hpasses := hs.passes
  have hadded := hs.added
  rcases hs.pins with ⟨c, hp⟩
  rw [ht] at hassign ⊢
  -- The solve may move anything, but no point of the model moves what was decided.
  have hsatisfied := Handle.IsSatisfied.solve (h := (t.withRow r).handle)
    (by rw [← hs.solver] at hsound; exact hsound) hassign
  refine ⟨hs.view, hs.solver, hs.starts, fun _ => hsatisfied, hs.nodup, ?_, ?_, c, ?_⟩
  · simp only [] at hpasses ⊢
    omega
  · simp only [Trial.withRow, List.length_append, List.length_cons, List.length_nil] at hadded ⊢
    omega
  · exact hp.of_isSatisfied rfl (fun name k hforced => hforced.withRow r) hsatisfied

/-! ### The loops -/

/-- A queue of operations of one class that have not been placed. -/
structure IsQueue (v : View Rat) (unit : String) (placed queue : List String) : Prop where
  nodes : ∀ name ∈ queue, ∃ n ∈ v.nodes, n.name = name ∧ n.kind.unit? = some unit
  nodup : queue.Nodup
  fresh : ∀ name ∈ queue, name ∉ placed

theorem IsQueue.tail {v : View Rat} {name : String}
    (h : IsQueue v unit placed (name :: queue)) : IsQueue v unit (name :: placed) queue := by
  rcases List.nodup_cons.mp h.nodup with ⟨hhead, hnodup⟩
  refine ⟨fun other hother => h.nodes other (List.mem_cons_of_mem _ hother), hnodup, ?_⟩
  intro other hother hmem
  rcases List.mem_cons.mp hmem with rfl | hmem
  · exact hhead hother
  · exact h.fresh other (List.mem_cons_of_mem _ hother) hmem

/-- Placing a class keeps the invariant and places the whole queue. The induction
    is on the passes that are left, since a push keeps the queue as it is. -/
theorem Stage.place (hsound : h.solver.Sound) (hnames : (h.view.nodes.map (·.name)).Nodup)
    (hcapacity : limits.capacity? unit = some capacity)
    (hs : Stage limits interval budget h t ⟨remaining, placed, pushes⟩)
    (hqueue : IsQueue h.view unit placed queue)
    (hrun : perform (CyclePlan.place budget interval unit capacity remaining placed pushes queue) t
      = (.ok p, t')) :
    Stage limits interval budget h t' p ∧ p.placed = queue.reverse ++ placed := by
  induction remaining generalizing placed pushes queue t with
  | zero =>
      cases queue with
      | nil =>
          rw [CyclePlan.place] at hrun
          cases hrun
          exact ⟨hs, rfl⟩
      | cons node queue =>
          rw [CyclePlan.place] at hrun
          exact absurd hrun (giveUp_ne_ok p)
  | succ remaining ih =>
      cases queue with
      | nil =>
          rw [CyclePlan.place] at hrun
          cases hrun
          exact ⟨hs, rfl⟩
      | cons node queue =>
          rcases perform_place_cons_ok hrun with
            ⟨cycle, hcycle, ⟨hroom, hknown, hrest⟩ | ⟨t₁, ht, hassign, hrest⟩⟩
          · rcases hqueue.nodes node List.mem_cons_self with ⟨n, hn, rfl, hunit⟩
            have hpinned := hs.pin hnames hn hunit hcapacity
              (hqueue.fresh _ List.mem_cons_self) hcycle hroom hknown
            rcases ih hpinned hqueue.tail hrest with ⟨hend, hplaced⟩
            refine ⟨hend, ?_⟩
            rw [hplaced, List.reverse_cons, List.append_assoc]
            rfl
          · exact ih (hs.push hsound ht hassign) hqueue hrest

theorem mem_unitQueue_iff {g : Graph Rat} {v : View Rat} (hview : View.ofGraph g = .ok v)
    {name : String} :
    name ∈ v.unitQueue unit ↔ ∃ n ∈ v.nodes, n.name = name ∧ n.kind.unit? = some unit := by
  rw [View.unitQueue, List.mem_map]
  constructor
  · rintro ⟨n, hn, hname⟩
    rcases List.mem_filter.mp hn with ⟨hn, hunit⟩
    exact ⟨n, (View.orderedNodes_perm hview).mem_iff.mp hn, hname, beq_iff_eq.mp hunit⟩
  · rintro ⟨n, hn, hname, hunit⟩
    exact ⟨n, List.mem_filter.mpr ⟨(View.orderedNodes_perm hview).mem_iff.mpr hn,
      beq_iff_eq.mpr hunit⟩, hname⟩

theorem unitQueue_nodup {g : Graph Rat} {v : View Rat} (hview : View.ofGraph g = .ok v)
    (hnames : (v.nodes.map (·.name)).Nodup) (unit : String) : (v.unitQueue unit).Nodup := by
  have hordered : (v.orderedNodes.map (·.name)).Nodup :=
    ((View.orderedNodes_perm hview).map _).nodup_iff.mpr hnames
  exact (List.filter_sublist.map _).nodup hordered

/-- Placing classes one after the other keeps the invariant and places exactly
    the operations of these classes. -/
theorem Stage.placeAll {g : Graph Rat} (hsound : h.solver.Sound)
    (hview : View.ofGraph g = .ok h.view) (hnames : (h.view.nodes.map (·.name)).Nodup)
    {entries : List (String × Nat)}
    (hlimits : ∀ e ∈ entries, limits.capacity? e.1 = some e.2)
    (hdistinct : (entries.map (·.1)).Nodup) (hs : Stage limits interval budget h t p)
    (hfresh : ∀ n ∈ h.view.nodes, n.name ∈ p.placed →
      ∀ e ∈ entries, n.kind.unit? ≠ some e.1)
    (hrun : perform (CyclePlan.placeAll budget interval h.view entries p) t = (.ok p', t')) :
    Stage limits interval budget h t' p' ∧
      ∀ name, name ∈ p'.placed ↔ name ∈ p.placed ∨
        ∃ n ∈ h.view.nodes, n.name = name ∧ ∃ e ∈ entries, n.kind.unit? = some e.1 := by
  induction entries generalizing p t with
  | nil =>
      rw [CyclePlan.placeAll] at hrun
      cases hrun
      refine ⟨hs, fun name => ⟨.inl, ?_⟩⟩
      rintro (hname | ⟨_, _, _, _, hmem, _⟩)
      · exact hname
      · exact absurd hmem List.not_mem_nil
  | cons e entries ih =>
      rcases List.nodup_cons.mp hdistinct with ⟨hhead, hdistinct⟩
      rw [CyclePlan.placeAll] at hrun
      -- Nothing of this class has been placed, so its queue is fresh.
      rcases perform_bind_ok_iff.mp hrun with ⟨p₁, t₁, hfirst, hrest⟩
      have hqueue : IsQueue h.view e.1 p.placed (h.view.unitQueue e.1) := by
        refine ⟨fun name hname => (mem_unitQueue_iff hview).mp hname,
          unitQueue_nodup hview hnames e.1, fun name hname hplaced => ?_⟩
        rcases (mem_unitQueue_iff hview).mp hname with ⟨n, hn, rfl, hunit⟩
        exact hfresh n hn hplaced e List.mem_cons_self hunit
      rcases Stage.place hsound hnames (hlimits e List.mem_cons_self) hs hqueue hfirst with
        ⟨hstage, hplaced⟩
      have hmem : ∀ name, name ∈ p₁.placed ↔ name ∈ p.placed ∨
          ∃ n ∈ h.view.nodes, n.name = name ∧ n.kind.unit? = some e.1 := by
        intro name
        rw [hplaced, List.mem_append, List.mem_reverse, mem_unitQueue_iff hview, or_comm]
      have hfresh₁ : ∀ n ∈ h.view.nodes, n.name ∈ p₁.placed →
          ∀ d ∈ entries, n.kind.unit? ≠ some d.1 := by
        intro n hn hname d hd hunit
        rcases (hmem n.name).mp hname with hold | ⟨m, hm, heq, hfound⟩
        · exact hfresh n hn hold d (List.mem_cons_of_mem _ hd) hunit
        · -- No class comes up twice.
          rw [List.inj_on_of_nodup_map hnames hm hn heq, hunit] at hfound
          exact hhead (List.mem_map.mpr ⟨d, hd, Option.some.inj hfound⟩)
      rcases ih (fun d hd => hlimits d (List.mem_cons_of_mem _ hd)) hdistinct hstage hfresh₁ hrest
        with ⟨hend, hall⟩
      refine ⟨hend, fun name => ?_⟩
      rw [hall, hmem, or_assoc]
      refine or_congr_right ⟨?_, ?_⟩
      · rintro (⟨n, hn, hname, hunit⟩ | ⟨n, hn, hname, d, hd, hunit⟩)
        · exact ⟨n, hn, hname, e, List.mem_cons_self, hunit⟩
        · exact ⟨n, hn, hname, d, List.mem_cons_of_mem _ hd, hunit⟩
      · rintro ⟨n, hn, hname, d, hd, hunit⟩
        rcases List.mem_cons.mp hd with rfl | hd
        · exact .inl ⟨n, hn, hname, hunit⟩
        · exact .inr ⟨n, hn, hname, d, hd, hunit⟩

/-! ### The result -/

namespace Limits

theorem toList_nodup (limits : Limits) : (limits.toList.map (·.1)).Nodup := by
  rw [List.Nodup, List.pairwise_map]
  refine limits.capacities.ascending.imp fun hlt heq => ?_
  rw [heq] at hlt
  exact String.lt_irrefl _ hlt

/-- An operation is limited if its class is among the entries. -/
theorem capacityOf?_isSome_iff {kind : Opcode} :
    (limits.capacityOf? kind).isSome = true ↔ ∃ e ∈ limits.toList, kind.unit? = some e.1 := by
  rw [capacityOf?, Option.isSome_iff_exists]
  constructor
  · rintro ⟨capacity, hcapacity⟩
    rcases Option.bind_eq_some_iff.mp hcapacity with ⟨unit, hunit, hfound⟩
    exact ⟨(unit, capacity), NameMap.get?_eq_some_iff.mp hfound, hunit⟩
  · rintro ⟨⟨unit, capacity⟩, hmem, hunit⟩
    exact ⟨capacity, Option.bind_eq_some_iff.mpr
      ⟨unit, hunit, NameMap.get?_eq_some_iff.mpr hmem⟩⟩

theorem capacityOf?_isSome_of_unit? {kind : Opcode} (hunit : kind.unit? = some unit)
    (hcapacity : limits.capacity? unit = some capacity) :
    (limits.capacityOf? kind).isSome = true :=
  capacityOf?_isSome_iff.mpr ⟨(unit, capacity), NameMap.get?_eq_some_iff.mp hcapacity, hunit⟩

end Limits

/-- At the end, exactly the operations of limited classes have been placed. -/
theorem Stage.of_pinToColumns {g : Graph Rat} {report : PinningReport} (hsound : h.solver.Sound)
    (hview : View.ofGraph g = .ok h.view) (hnames : (h.view.nodes.map (·.name)).Nodup)
    (hstarts : ∀ n ∈ h.view.nodes, startVariable n ∈ h.model.vars)
    (hrun : perform (pinToColumns limits interval budget) h = (.ok report, h')) :
    ∃ t p, Stage limits interval budget h t p ∧ h' = t.handle ∧
      report = ⟨budget.iterations - p.remaining, p.placed.length, p.pushes, t.added⟩ ∧
      ∀ name, name ∈ p.placed ↔
        ∃ n ∈ h.view.nodes, n.name = name ∧ (limits.capacityOf? n.kind).isSome = true := by
  rcases perform_pinToColumns_ok_iff.mp hrun with ⟨_, p, t, hplace, rfl, rfl⟩
  have hstart : Stage limits interval budget h { handle := h }
      { remaining := budget.iterations } := by
    refine ⟨rfl, rfl, hstarts, fun hx => hx, List.nodup_nil, rfl, rfl, fun _ => 0, ?_, ?_, ?_⟩
    · exact fun name hname => absurd hname List.not_mem_nil
    · exact fun name hname => absurd hname List.not_mem_nil
    · intro unit capacity _ column
      rw [View.share_nil]
      exact Nat.zero_le _
  rcases hstart.placeAll hsound hview hnames (fun e he => NameMap.get?_eq_some_iff.mpr he)
    limits.toList_nodup (fun n _ hname => absurd hname List.not_mem_nil) hplace with
    ⟨hend, hplaced⟩
  refine ⟨t, p, hend, rfl, rfl, fun name => ?_⟩
  constructor
  · intro hname
    rcases (hplaced name).mp hname with hbefore | ⟨n, hn, hname, hentry⟩
    · exact absurd hbefore List.not_mem_nil
    · exact ⟨n, hn, hname, Limits.capacityOf?_isSome_iff.mpr hentry⟩
  · rintro ⟨n, hn, hname, hlimited⟩
    exact (hplaced name).mpr (.inr ⟨n, hn, hname, Limits.capacityOf?_isSome_iff.mp hlimited⟩)

/-- The number of operations placed is the number of limited ones. -/
theorem length_placed {v : View Rat} {limited : View.Node Rat → Bool}
    (hnames : (v.nodes.map (·.name)).Nodup) (hnodup : placed.Nodup)
    (hmem : ∀ name, name ∈ placed ↔ ∃ n ∈ v.nodes, n.name = name ∧ limited n = true) :
    placed.length = v.nodes.countP limited := by
  have hfiltered : ((v.nodes.filter limited).map (·.name)).Nodup :=
    (List.filter_sublist.map _).nodup hnames
  -- Both lists name the limited nodes, and neither names one twice.
  have hperm : placed.Perm ((v.nodes.filter limited).map (·.name)) := by
    refine (List.perm_ext_iff_of_nodup hnodup hfiltered).mpr fun name => ?_
    rw [hmem, List.mem_map]
    constructor
    · rintro ⟨n, hn, hname, hlimited⟩
      exact ⟨n, List.mem_filter.mpr ⟨hn, hlimited⟩, hname⟩
    · rintro ⟨n, hn, hname⟩
      rcases List.mem_filter.mp hn with ⟨hn, hlimited⟩
      exact ⟨n, hn, hname, hlimited⟩
  rw [hperm.length_eq, List.length_map, List.countP_eq_length_filter]

/-- Decided cycles that keep within limits do so in every point. -/
theorem Pins.countP_le (hp : Pins limits interval h placed c) {k : View.Node Rat → Int}
    (hk : ∀ n ∈ h.view.nodes, n.name ∈ placed → k n = c n.name)
    (hall : ∀ n ∈ h.view.nodes, n.kind.unit? = some unit → n.name ∈ placed)
    (hcapacity : limits.capacity? unit = some capacity) (column : Int) :
    h.view.nodes.countP
      (fun n => n.kind.unit? == some unit && columnAt interval (k n) == column) ≤ capacity := by
  refine le_trans (List.countP_mono_left fun n hn hcounted => ?_)
    (hp.legal unit capacity hcapacity column)
  rcases Bool.and_eq_true_iff.mp hcounted with ⟨hunit, hcolumn⟩
  have hplaced := hall n hn (beq_iff_eq.mp hunit)
  rw [hk n hn hplaced] at hcolumn
  exact View.isAt_iff.mpr ⟨beq_iff_eq.mp hunit, hplaced, beq_iff_eq.mp hcolumn⟩

open Engine in
/-- If pinning succeeds on a handle that an engine lends, then every integral
    point of the model keeps every limited class within its capacity in every
    column, over all blocks. The report counts the limited operations, one pass
    and one constraint for each pin and each push, and a solution that satisfied
    the model leaves one that does. -/
theorem pinToColumns_legal {discipline : Discipline} {solver : Solver Rat} {sameBlockOnly : Bool}
    {e : Engine Rat} {report : PinningReport} (hsound : solver.Sound)
    (hreach : Reaches Model.Keeps (fresh discipline solver sameBlockOnly) e) (hlent : e.Lends h)
    (hrun : perform (pinToColumns limits interval budget) h = (.ok report, h')) :
    (∀ x, h'.model.IsPoint x → h'.model.IsIntegral x →
      ∃ k : View.Node Rat → Int, h.view.Times k (h'.model.valueOf x) ∧
        ∀ unit capacity, limits.capacity? unit = some capacity → ∀ column,
          h.view.nodes.countP (fun n =>
            n.kind.unit? == some unit && columnAt interval (k n) == column) ≤ capacity) ∧
    (∀ unit capacity, limits.capacity? unit = some capacity →
      h.view.nodes.countP (fun n => n.kind.unit? == some unit) ≤
        capacity * (max interval 1).toNat) ∧
    report.pinned = h.view.nodes.countP (fun n => (limits.capacityOf? n.kind).isSome) ∧
    report.passes = report.pinned + report.pushes ∧
    report.passes = report.constraints.length ∧ report.passes ≤ budget.iterations ∧
    (h.IsSatisfied → h'.IsSatisfied) := by
  rcases Reaches.grounded hreach with ⟨hsolver, hground⟩
  have hgrounded := hground h.view hlent.view
  rcases hgrounded.graph with ⟨g, hdefects, hview⟩
  have hnames := (Graph.fit_of_defects hdefects).node_names_nodup hview
  have hstarts : ∀ n ∈ h.view.nodes, startVariable n ∈ h.model.vars :=
    fun n hn => hlent.model.subset (hgrounded.starts n hn)
  rcases Stage.of_pinToColumns (by rw [hlent.solver, hsolver]; exact hsound) hview hnames hstarts
    hrun with ⟨t, p, hend, rfl, rfl, hplaced⟩
  rcases hend.pins with ⟨c, hpins⟩
  -- Among the nodes, those that count for a limit are all among the placed ones.
  have hall : ∀ unit capacity, limits.capacity? unit = some capacity →
      ∀ n ∈ t.handle.view.nodes, n.kind.unit? = some unit → n.name ∈ p.placed := by
    intro unit capacity hcapacity n hn hunit
    rw [hend.view] at hn
    refine (hplaced n.name).mpr ⟨n, hn, rfl, ?_⟩
    exact Limits.capacityOf?_isSome_iff.mpr
      ⟨(unit, capacity), NameMap.get?_eq_some_iff.mp hcapacity, hunit⟩
  have hpasses := hend.passes
  refine ⟨fun x hx hxint => ?_, fun unit capacity hcapacity => ?_, ?_, ?_, ?_, ?_,
    hend.satisfied⟩
  · -- Any point has the decided cycles, and for those the columns were kept.
    have htimes := View.times_floor (v := h.view) (y := t.handle.model.valueOf x) fun n hn =>
      (t.handle.model.isIntegral_iff x).mp hxint _ (hend.starts n hn) rfl
    refine ⟨_, htimes, fun unit capacity hcapacity column => ?_⟩
    rw [← hend.view]
    refine hpins.countP_le (fun n _ hname => ?_) (hall unit capacity hcapacity) hcapacity column
    rw [(hpins.forced n.name hname).valueOf x hx, Int.floor_intCast]
  · refine View.countP_le_of_columns (k := fun n => c n.name) fun column => ?_
    rw [← hend.view]
    exact hpins.countP_le (fun n _ _ => rfl) (hall unit capacity hcapacity) hcapacity column
  · exact length_placed hnames hend.nodup hplaced
  · simp only []
    omega
  · have hadded := hend.added
    simp only []
    omega
  · simp only []
    omega

/-! ### A trailing multiplication -/

/-- Two additions, and a multiplication that needs the second. -/
def Graph.trailing : Graph Rat where
  name := "trailing"
  ops := [.ofKind "a1" .add 0, .ofKind "a2" .add 0, .ofKind "m" .mul 0,
    .ofKind "ssrc_0" .superSource 0, .ofKind "ssink_0" .superSink 0]
  register := ["a1", "a2", "m", "ssrc_0", "ssink_0"]
  edges := [⟨1, 2, false⟩, ⟨3, 0, false⟩, ⟨0, 4, false⟩, ⟨3, 1, false⟩, ⟨2, 4, false⟩]
  blocks := [{ id := 0, name := "b", members := [0, 1, 2], source := some 3, sink := some 4 }]

theorem Graph.trailing_defects : trailing.defects = [] := by decide +kernel

/-- Its view. -/
def View.trailing : View Rat where
  nodes := [⟨0, "a1", .add, 0, 1⟩, ⟨1, "a2", .add, 0, 1⟩, ⟨2, "m", .mul, 0, 3⟩,
    ⟨3, "ssrc_0", .superSource, 0, 0⟩, ⟨4, "ssink_0", .superSink, 0, 0⟩]
  forward := [⟨0, 4⟩, ⟨1, 2⟩, ⟨2, 4⟩, ⟨3, 1⟩, ⟨3, 0⟩]
  back := []
  order := [3, 0, 1, 2, 4]
  stripped := []

theorem View.ofGraph_trailing : View.ofGraph Graph.trailing = .ok View.trailing := by
  cbv

/-- One unit for additions. -/
def Limits.oneAdder : Limits := ⟨⟨[("add", 1)], List.pairwise_singleton _ _⟩⟩

/-- One adder and one multiplier. -/
def Limits.oneEach : Limits := (Limits.ofEntries [("add", 1), ("mul", 1)]).1

/-- As many units as it has operations. -/
def Limits.twoAdders : Limits := (Limits.ofEntries [("add", 2), ("mul", 1)]).1

namespace Engine

/-- The calls that lead to the solved graph, provided that there is an optimum. -/
theorem exists_solved_trailing {sameBlockOnly : Bool} {interval : Int} (hpos : 1 ≤ interval)
    (hoptimal : (solvedWith (.pipelined (.fixed interval)) backedSolver sameBlockOnly
      "trailing_pipelined" View.trailing).outcome = some .optimal) :
    ∃ e₁ e₂, perform (load Graph.trailing)
        (fresh (.pipelined (.fixed interval)) backedSolver sameBlockOnly) = (.ok ⟨⟩, e₁) ∧
      perform build e₁ = (.ok ⟨⟩, e₂) ∧
      perform solve e₂ = (.ok .optimal, solvedWith (.pipelined (.fixed interval)) backedSolver
        sameBlockOnly "trailing_pipelined" View.trailing) := by
  have hvalid : (IntervalTarget.fixed interval).IsValid := hpos
  have hname : Graph.trailing.name ++ "_" ++ (Discipline.pipelined (.fixed interval)).name
      = "trailing_pipelined" := rfl
  rcases exists_solvedWith backedSolver sameBlockOnly Graph.trailing_defects View.ofGraph_trailing
    (isBuildable_of_isValid View.trailing hvalid) with
    ⟨e₁, e₂, outcome, hload, hbuild, hsolve, hout⟩
  rw [hname] at hsolve hout
  cases hout.symm.trans hoptimal
  exact ⟨e₁, e₂, hload, hbuild, hsolve⟩

/-- The graph, solved for an interval of two cycles. -/
noncomputable def solvedTrailing : Engine Rat :=
  solvedWith (.pipelined (.fixed 2)) backedSolver true "trailing_pipelined" View.trailing

/-- The second addition is pushed to the bound, and the multiplication is pinned behind it. -/
theorem solvedTrailing_pinned :
    solvedTrailing.outcome = some .optimal ∧
      (solvedTrailing.handle View.trailing).cycle? "m" = some 1 ∧
      (perform (pinToColumns .oneEach 2 { maxLatency := 1 })
        (solvedTrailing.handle View.trailing)).1.toOption = some ⟨4, 3, 1, [7, 8, 9, 10]⟩ ∧
      (perform (pinToColumns .oneEach 2 { maxLatency := 1 })
        (solvedTrailing.handle View.trailing)).2.cycle? "m" = some 2 := by
  decide +kernel

theorem exists_solvedTrailing :
    ∃ e₁ e₂ e₄ h', perform (load Graph.trailing)
        (fresh (.pipelined (.fixed 2)) backedSolver true) = (.ok ⟨⟩, e₁) ∧
      perform build e₁ = (.ok ⟨⟩, e₂) ∧ perform solve e₂ = (.ok .optimal, solvedTrailing) ∧
      perform (lend get) solvedTrailing = (.ok (solvedTrailing.handle View.trailing), e₄) ∧
      perform (pinToColumns .oneEach 2 { maxLatency := 1 }) (solvedTrailing.handle View.trailing)
        = (.ok ⟨4, 3, 1, [7, 8, 9, 10]⟩, h') ∧
      (solvedTrailing.handle View.trailing).cycle? "m" = some 1 ∧ h'.cycle? "m" = some 2 := by
  rcases solvedTrailing_pinned with ⟨hoptimal, hbefore, hreport, hafter⟩
  rcases exists_solved_trailing (by decide) hoptimal with ⟨e₁, e₂, hload, hbuild, hsolve⟩
  rcases exists_lend_of_solve View.ofGraph_trailing hload hbuild hsolve with ⟨e₄, hlend⟩
  rcases hrun : perform (pinToColumns .oneEach 2 { maxLatency := 1 })
    (solvedTrailing.handle View.trailing) with ⟨answer, h'⟩
  rw [hrun] at hreport hafter
  cases eq_ok_of_toOption hreport
  exact ⟨e₁, e₂, e₄, h', hload, hbuild, hsolve, hlend, rfl, hbefore, hafter⟩

theorem solvedTrailing_view : solvedTrailing.view = some View.trailing := by
  rcases exists_solvedTrailing with ⟨_, _, _, _, _, _, _, hlend, _⟩
  rcases perform_lend_ok_iff.mp hlend with ⟨_, v, hview, hhandle, _⟩
  rw [hview]
  exact congrArg some (congrArg Handle.view hhandle).symm

/-- The two additions share the adder, so one of them is pushed. -/
theorem pinToColumns_legal_trailing :
    backedSolver.Sound ∧ ∃ h' report,
      Reaches Model.Keeps (fresh (.pipelined (.fixed 2)) backedSolver true) solvedTrailing ∧
      solvedTrailing.Lends (solvedTrailing.handle View.trailing) ∧
      perform (pinToColumns .oneEach 2 { maxLatency := 1 }) (solvedTrailing.handle View.trailing)
        = (.ok report, h') ∧ report.pushes = 1 ∧
      (∀ x, h'.model.IsPoint x → h'.model.IsIntegral x →
        ∃ k : View.Node Rat → Int, View.trailing.Times k (h'.model.valueOf x) ∧
          ∀ unit capacity, Limits.oneEach.capacity? unit = some capacity → ∀ column,
            View.trailing.nodes.countP (fun n =>
              n.kind.unit? == some unit && columnAt 2 (k n) == column) ≤ capacity) ∧
      (∀ unit capacity, Limits.oneEach.capacity? unit = some capacity →
        View.trailing.nodes.countP (fun n => n.kind.unit? == some unit) ≤
          capacity * (max (2 : Int) 1).toNat) ∧
      report.pinned = View.trailing.nodes.countP
        (fun n => (Limits.oneEach.capacityOf? n.kind).isSome) ∧
      report.passes = report.pinned + report.pushes ∧
      report.passes = report.constraints.length ∧ report.passes ≤ 1000 ∧
      ((solvedTrailing.handle View.trailing).IsSatisfied → h'.IsSatisfied) := by
  rcases exists_solvedTrailing with ⟨e₁, e₂, _, h', hload, hbuild, hsolve, _, hrun, _⟩
  have hreach := reaches_solved Model.Keeps hload hbuild hsolve
  have hlent := lends_handle solvedTrailing_view
  exact ⟨backedSolver_sound, h', _, hreach, hlent, hrun, rfl,
    pinToColumns_legal backedSolver_sound hreach hlent hrun⟩

end Engine

end CyclePlan
