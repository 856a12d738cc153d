import CyclePlan.Proofs.LastSolve
import CyclePlan.Proofs.Pinning
import CyclePlan.Proofs.Recurrence
import CyclePlan.Proofs.Resource.LeastStarts
import CyclePlan.Proofs.Resource.Passes

/-!
# Pinning Makes Progress

Start cycles only ever go up, and every push counts.

With a fixed interval and an exact solver, every solution that pinning looks at is the
earliest one of the model as it is then (`Handle.IsEarliest`). The model grows by pins and
pushes. A pin takes nothing away from the solution it is read from, and a push moves the
operation by the one cycle that was asked for and moves no operation back. So a run can be
followed by the start cycles alone (`Advances`): they go up, those of placed operations
stay, and the operations of limited classes are moved by at least one cycle for each push.

This holds at all times of a run, whatever it ends with, because it holds of every pass.

## Main definitions

* `Handle.Shows`: The start cycles of the last solution.
* `Handle.IsEarliest`, `Standing.IsEarliest`: What pinning preserves.
* `Advances`: What passes do to the start cycles.
* `Handle.MakesProgress`: The same for all runs of pinning.

## Theorems

* `Handle.IsEarliest.pin`, `Handle.IsEarliest.push`: Pins and pushes.
* `Standing.IsEarliest.pass`, `Standing.IsEarliest.passes`: One pass, and any number.
* `Engine.exists_isEarliest_of_solve`: Where earliest solutions come from.
* `Engine.pinning_makes_progress`: Pinning on an engine that was built and solved.
-/

namespace CyclePlan

open Arc Discipline View

variable {v : View Rat} {interval columns : Int} {sameBlockOnly : Bool} {rows : List Row}
  {limits : Limits} {budget : PinningBudget} {c c' c'' : View.Node Rat → Int} {n : View.Node Rat}
  {h : Handle Rat} {s s' s'' : Standing} {x : Nat → Rat}

/-! ### Earliest solutions -/

namespace Handle

/-- A handle whose model has one more row. -/
def withRow (h : Handle Rat) (r : Row) : Handle Rat := { h with model := h.model.withRow r }

/-- The last solution starts the nodes in given cycles. -/
def Shows (h : Handle Rat) (v : View Rat) (c : View.Node Rat → Int) : Prop :=
  ∀ n ∈ v.nodes, h.cycle? n.name = some (c n)

theorem Holds.cycle?_eq_floor (hx : h.Holds x) (hn : startVariable n ∈ h.model.vars) :
    h.cycle? n.name = some ⌊h.model.valueOf x (startVar n.name)⌋ := by
  rcases (h.model.isIntegral_iff x).mp hx.isPoint.2 _ hn rfl with ⟨k, hk⟩
  change h.model.valueOf x (startVar n.name) = k at hk
  rw [hx.cycle? ⟨_, hn, rfl⟩, hk, Scalar.roundInt_intCast, Int.floor_intCast]

/-- If there is an optimum wherever there are points, then an exact solver that finds
    anything finds one. -/
theorem exists_best_of_solve {f : Program} (hexact : h.solver.Exact) (hm : h.model.Renders f)
    (hsome : (∃ x, h.model.IsPoint x ∧ h.model.IsIntegral x) → ∃ x, h.model.IsOptimum x)
    (hassign : h.solve.hasAssignment = true) :
    ∃ x, h.solve.Holds x ∧ f.IsBest (h.model.valueOf x) := by
  have hstatus := (hasAssignment_solve h).symm.trans hassign
  have hpoint : ∃ x, h.model.IsPoint x ∧ h.model.IsIntegral x := by
    by_contra hnone
    rw [(hexact.infeasible_iff h.asked h.model).mpr hnone] at hstatus
    cases hstatus
  rcases (hexact.optimal h.asked h.model (hsome hpoint)).2 with ⟨x, hcarries, hoptimum⟩
  exact ⟨x, ⟨_, rfl, hstatus, hcarries, hoptimum.point, hoptimum.integral⟩,
    (hm.isOptimum_iff x).mp hoptimum⟩

/-- The model asks for a fixed interval and for further rows that pin or push, and the last
    solution is the earliest one. -/
structure IsEarliest (h : Handle Rat) (v : View Rat) (interval : Int) (sameBlockOnly : Bool)
    (rows : List Row) (c : View.Node Rat → Int) : Prop where
  exact : h.solver.Exact
  renders : h.model.Renders (fixedProgram interval v sameBlockOnly rows)
  bounds : ∀ r ∈ rows, r.Bounds v
  shows : h.Shows v c
  least : ∃ y, v.Times c y ∧ (fixedProgram interval v sameBlockOnly rows).IsLeast v y

namespace IsEarliest

theorem start_mem (hm : h.model.Renders (fixedProgram interval v sameBlockOnly rows))
    (hn : n ∈ v.nodes) : startVariable n ∈ h.model.vars := by
  have hmem : startVariable n ∈ (program (.pipelined (.fixed interval)) v sameBlockOnly).vars :=
    startVariable_mem hn
  rwa [hm.vars]

/-- What an exact solver finds is the earliest solution. -/
theorem of_solve (hexact : h.solver.Exact) (hnames : (v.nodes.map (·.name)).Nodup)
    (hm : h.model.Renders (fixedProgram interval v sameBlockOnly rows))
    (hbounds : ∀ r ∈ rows, r.Bounds v) (hassign : h.solve.hasAssignment = true) :
    ∃ c, h.solve.IsEarliest v interval sameBlockOnly rows c := by
  rcases exists_best_of_solve hexact hm (exists_isOptimum_withRows hm) hassign with
    ⟨x, hx, hbest⟩
  have htimes := View.times_floor (startsHold_of_isSolution
    (Program.isSolution_withRows_iff.mp hbest.solution).1).whole
  exact ⟨_, hexact, hm, hbounds, fun n hn => hx.cycle?_eq_floor (start_mem hm hn), _, htimes,
    isLeast_of_isBest hnames hbounds hbest⟩

/-- An operation that has been pinned is where it was pinned. -/
theorem eq_of_pin {cycle : Int} (he : h.IsEarliest v interval sameBlockOnly rows c)
    (hn : n ∈ v.nodes) (hrow : Row.pin (startVar n.name) cycle ∈ rows) : c n = cycle := by
  rcases he.least with ⟨y, hy, hleast⟩
  have hpin := Row.pin_holds_iff.mp
    ((Program.isSolution_withRows_iff.mp hleast.solution).2 _ hrow)
  rw [hy n hn] at hpin
  exact Int.cast_injective hpin

/-- The model after one more row that pins or pushes. -/
theorem renders_withRow {r : Row} (he : h.IsEarliest v interval sameBlockOnly rows c)
    (hr : r.Bounds v) :
    (h.withRow r).model.Renders (fixedProgram interval v sameBlockOnly (rows ++ [r])) := by
  rw [fixedProgram, ← Program.withRows_append]
  suffices hknown : r.IsKnown h.model from
    he.renders.withRows (List.forall_mem_singleton.mpr hknown)
  cases hr with
  | pin hn _ =>
      exact List.forall_mem_singleton.mpr ⟨_, start_mem he.renders hn, rfl⟩
  | notBefore hn _ =>
      exact List.forall_mem_singleton.mpr ⟨_, start_mem he.renders hn, rfl⟩

theorem bounds_append {r : Row} (he : h.IsEarliest v interval sameBlockOnly rows c)
    (hr : r.Bounds v) : ∀ r' ∈ rows ++ [r], r'.Bounds v :=
  List.forall_mem_append.mpr ⟨he.bounds, List.forall_mem_singleton.mpr hr⟩

/-- Pinning an operation where it is takes nothing away from the solution. -/
theorem pin (he : h.IsEarliest v interval sameBlockOnly rows c) (hn : n ∈ v.nodes) :
    (h.withRow (Row.pin (startVar n.name) (c n))).IsEarliest v interval sameBlockOnly
      (rows ++ [Row.pin (startVar n.name) (c n)]) c := by
  have hrow : (Row.pin (startVar n.name) (c n)).Bounds v := .pin hn _
  rcases he.least with ⟨y, hy, hleast⟩
  refine ⟨he.exact, he.renders_withRow hrow, he.bounds_append hrow, he.shows, y, hy, ?_⟩
  rw [fixedProgram, ← Program.withRows_append]
  exact hleast.withRows (List.forall_mem_singleton.mpr (Row.pin_holds_iff.mpr (hy n hn)))

/-- The earliest start cycles are a potential. -/
theorem meets (he : h.IsEarliest v interval sameBlockOnly rows c) :
    Meets (lag interval) c (v.arcs sameBlockOnly) := by
  rcases he.least with ⟨y, hy, hleast⟩
  exact (meets_of_isSolution hy hleast.solution).2

/-- If a push leaves a solution, it raises the start cycles just as far as it has to, and the
    operation moves by one cycle. -/
theorem push (he : h.IsEarliest v interval sameBlockOnly rows c)
    (hnames : (v.nodes.map (·.name)).Nodup) (hn : n ∈ v.nodes)
    (hassign :
      (h.withRow (Row.notBefore (startVar n.name) (c n + 1))).solve.hasAssignment = true) :
    ∃ c', (h.withRow (Row.notBefore (startVar n.name) (c n + 1))).solve.IsEarliest v interval
        sameBlockOnly (rows ++ [Row.notBefore (startVar n.name) (c n + 1)]) c' ∧
      IsRaised (v.arcs sameBlockOnly) (lag interval) v.nodes c [(n, c n + 1)] c' ∧
      c' n = c n + 1 := by
  have hrow : (Row.notBefore (startVar n.name) (c n + 1)).Bounds v := .notBefore hn _
  rcases of_solve (h := h.withRow _) he.exact hnames (he.renders_withRow hrow)
    (he.bounds_append hrow) hassign with ⟨c', hafter⟩
  rcases he.least with ⟨y, hy, hleast⟩
  rcases hafter.least with ⟨z, hz, hzleast⟩
  have hraised := push_isRaised hnames he.bounds hy hz hn hleast hzleast
  exact ⟨c', hafter, hraised, hraised.eq_of_singleton he.meets (by omega) hn⟩

end IsEarliest

end Handle

/-! ### Runs of passes -/

/-- The operations that limits have something to say about. -/
def View.limited (v : View Rat) (limits : Limits) : List (View.Node Rat) :=
  v.nodes.filter fun n => (limits.capacityOf? n.kind).isSome

/-- How far the limited operations were moved, all together. -/
def View.raise (v : View Rat) (limits : Limits) (c c' : View.Node Rat → Int) : Int :=
  ((v.limited limits).map fun n => c' n - c n).sum

namespace View

theorem raise_self (v : View Rat) (limits : Limits) (c : Node Rat → Int) :
    v.raise limits c c = 0 := by
  simp [raise]

theorem raise_add (v : View Rat) (limits : Limits) (c c' c'' : Node Rat → Int) :
    v.raise limits c c' + v.raise limits c' c'' = v.raise limits c c'' := by
  rw [raise, raise, ← List.sum_map_add, raise]
  refine congrArg List.sum (List.map_congr_left fun n _ => ?_)
  omega

/-- If no operation was moved back and a limited one was moved, that counts. -/
theorem raise_pos (hle : ∀ n ∈ v.nodes, c n ≤ c' n) (hn : n ∈ v.limited limits)
    (hlt : c n < c' n) : 1 ≤ v.raise limits c c' := by
  have hnonneg : ∀ k ∈ (v.limited limits).map fun n => c' n - c n, 0 ≤ k := by
    intro k hk
    rcases List.mem_map.mp hk with ⟨m, hm, rfl⟩
    have hstep := hle m (List.mem_filter.mp hm).1
    omega
  have hpart := List.single_le_sum hnonneg _ (List.mem_map_of_mem hn)
  rw [raise]
  omega

end View

namespace Standing

/-- The operation that is looked at next. -/
def first? (s : Standing) : Option String := s.classes.head?.bind (·.queue.head?)

/-- How many operations wait, with one more for each class. -/
def waiting (s : Standing) : Nat := (s.classes.map fun w => w.queue.length + 1).sum

/-- The last solution is the earliest one, placed operations are pinned to its cycles, and
    those that wait are of limited classes. -/
structure IsEarliest (s : Standing) (v : View Rat) (limits : Limits) (interval : Int)
    (sameBlockOnly : Bool) (rows : List Row) (c : View.Node Rat → Int) : Prop where
  handle : s.trial.handle.IsEarliest v interval sameBlockOnly rows c
  pinned : ∀ n ∈ v.nodes, n.name ∈ s.progress.placed → Row.pin (startVar n.name) (c n) ∈ rows
  limited : ∀ w ∈ s.classes, ∀ name ∈ w.queue, ∃ n ∈ v.limited limits, n.name = name

end Standing

/-- A push keeps the operations that wait. Any other pass leaves fewer of them. -/
theorem Pass.cases_waiting (h : Pass budget columns s s') :
    (s'.classes = s.classes ∧ s'.progress.pushes = s.progress.pushes + 1) ∨
      (s'.waiting < s.waiting ∧ s'.progress.pushes = s.progress.pushes) := by
  cases h with
  | pin => exact .inr ⟨by simp [Standing.waiting], rfl⟩
  | push => exact .inl ⟨rfl, rfl⟩
  | next => exact .inr ⟨by simp [Standing.waiting], rfl⟩

theorem waiting_le_of_passes (h : Passes budget columns s s') : s'.waiting ≤ s.waiting := by
  induction h with
  | refl => exact le_refl _
  | tail _ hpass ih =>
      rcases hpass.cases_waiting with ⟨hsame, _⟩ | ⟨hless, _⟩
      · rw [Standing.waiting, hsame]
        exact ih
      · omega

/-- What passes do to the start cycles of the nodes. -/
structure Advances (v : View Rat) (limits : Limits) (s s' : Standing)
    (c c' : View.Node Rat → Int) : Prop where
  le : ∀ n ∈ v.nodes, c n ≤ c' n
  kept : ∀ n ∈ v.nodes, n.name ∈ s.progress.placed → c' n = c n
  placed : s.progress.placed ⊆ s'.progress.placed
  pushes : (s'.progress.pushes : Int) - s.progress.pushes ≤ v.raise limits c c'

namespace Advances

/-- Passes that change no solution. -/
theorem of_same (hplaced : s.progress.placed ⊆ s'.progress.placed)
    (hpushes : s'.progress.pushes = s.progress.pushes) : Advances v limits s s' c c := by
  refine ⟨fun _ _ => le_refl _, fun _ _ _ => rfl, hplaced, ?_⟩
  rw [hpushes, sub_self, View.raise_self]

theorem trans (h : Advances v limits s s' c c') (h' : Advances v limits s' s'' c' c'') :
    Advances v limits s s'' c c'' := by
  refine ⟨fun n hn => (h.le n hn).trans (h'.le n hn), fun n hn hplaced => ?_,
    List.Subset.trans h.placed h'.placed, ?_⟩
  · exact (h'.kept n hn (h.placed hplaced)).trans (h.kept n hn hplaced)
  · have hfirst := h.pushes
    have hsecond := h'.pushes
    rw [← View.raise_add v limits c c' c'']
    omega

end Advances

/-- The pushes between two times, with the cycles that operations were pushed to. They raise
    the start cycles, and nothing else does. -/
structure Raises (v : View Rat) (limits : Limits) (budget : PinningBudget) (interval : Int)
    (sameBlockOnly : Bool) (s s' : Standing) (c c' : View.Node Rat → Int)
    (pushed : List (View.Node Rat × Int)) : Prop where
  raised : IsRaised (v.arcs sameBlockOnly) (lag interval) v.nodes c pushed c'
  limited : ∀ q ∈ pushed, q.1 ∈ v.limited limits
  within : ∀ q ∈ pushed, c q.1 < q.2 ∧ q.2 ≤ budget.maxLatency
  count : s'.progress.pushes = s.progress.pushes + pushed.length

namespace Raises

variable {pushed more : List (View.Node Rat × Int)}

theorem of_same (hc : Meets (lag interval) c (v.arcs sameBlockOnly))
    (hpushes : s'.progress.pushes = s.progress.pushes) :
    Raises v limits budget interval sameBlockOnly s s' c c [] :=
  ⟨.refl hc, fun _ h => absurd h List.not_mem_nil, fun _ h => absurd h List.not_mem_nil, hpushes⟩

theorem trans (h : Raises v limits budget interval sameBlockOnly s s' c c' pushed)
    (h' : Raises v limits budget interval sameBlockOnly s' s'' c' c'' more) :
    Raises v limits budget interval sameBlockOnly s s'' c c'' (pushed ++ more) := by
  refine ⟨h.raised.trans h'.raised fun q hq => (List.mem_filter.mp (h.limited q hq)).1,
    List.forall_mem_append.mpr ⟨h.limited, h'.limited⟩,
    List.forall_mem_append.mpr ⟨h.within, fun q hq => ?_⟩, ?_⟩
  · have hstep := h.raised.above q.1 (List.mem_filter.mp (h'.limited q hq)).1
    have hlater := h'.within q hq
    omega
  · rw [h'.count, h.count, List.length_append, Nat.add_assoc]

end Raises

namespace Standing.IsEarliest

/-- The operation that is looked at next is of a limited class. -/
theorem first_mem {node : String} (hs : s.IsEarliest v limits interval sameBlockOnly rows c)
    (hfirst : s.first? = some node) : ∃ n ∈ v.limited limits, n.name = node := by
  rcases Option.bind_eq_some_iff.mp hfirst with ⟨w, hw, hnode⟩
  exact hs.limited w (List.mem_of_mem_head? hw) node (List.mem_of_mem_head? hnode)

/-- A pass keeps the solution the earliest one. The start cycles advance, raised by pushes
    only, and an operation that is still first has moved by one cycle. -/
theorem pass (hs : s.IsEarliest v limits interval sameBlockOnly rows c)
    (hnames : (v.nodes.map (·.name)).Nodup) (h : Pass budget columns s s') :
    ∃ rows' c' pushed, s'.IsEarliest v limits interval sameBlockOnly rows' c' ∧
      Advances v limits s s' c c' ∧
      Raises v limits budget interval sameBlockOnly s s' c c' pushed ∧
      (s'.classes = s.classes → ∃ n ∈ v.nodes, s.first? = some n.name ∧ c' n = c n + 1) := by
  cases h with
  | @pin t remaining placed pushes unit capacity node queue classes cycle hcycle hroom hknown =>
      rcases hs.limited _ List.mem_cons_self _ List.mem_cons_self with ⟨n, hlimited, rfl⟩
      have hn := (List.mem_filter.mp hlimited).1
      have heq : c n = cycle := Option.some.inj ((hs.handle.shows n hn).symm.trans hcycle)
      subst heq
      refine ⟨_, c, [], ⟨hs.handle.pin hn, fun m hm hplaced => ?_, fun w hw name hname => ?_⟩,
        .of_same (List.subset_cons_self _ _) rfl, .of_same hs.handle.meets rfl, fun hsame => ?_⟩
      · rcases List.mem_cons.mp hplaced with hname | hplaced
        · -- Names are distinct, so this is the operation that was pinned.
          rw [List.inj_on_of_nodup_map hnames hm hn hname]
          exact List.mem_append_right _ List.mem_cons_self
        · exact List.mem_append_left _ (hs.pinned m hm hplaced)
      · rcases List.mem_cons.mp hw with rfl | hw
        · exact hs.limited _ List.mem_cons_self name (List.mem_cons_of_mem _ hname)
        · exact hs.limited w (List.mem_cons_of_mem _ hw) name hname
      · simp at hsame
  | @push t remaining placed pushes unit capacity node queue classes cycle hcycle hfull hbound
      hknown hassign =>
      rcases hs.limited _ List.mem_cons_self _ List.mem_cons_self with ⟨n, hlimited, rfl⟩
      have hn := (List.mem_filter.mp hlimited).1
      have heq : c n = cycle := Option.some.inj ((hs.handle.shows n hn).symm.trans hcycle)
      subst heq
      rcases hs.handle.push hnames hn hassign with ⟨c', hafter, hraised, htarget⟩
      -- What was pinned is pinned in the larger model, too.
      have hkept : ∀ m ∈ v.nodes, m.name ∈ placed → c' m = c m := fun m hm hplaced =>
        hafter.eq_of_pin hm (List.mem_append_left _ (hs.pinned m hm hplaced))
      refine ⟨_, c', [(n, c n + 1)], ⟨hafter, fun m hm hplaced => ?_, hs.limited⟩,
        ⟨hraised.above, hkept, List.Subset.refl _, ?_⟩,
        ⟨hraised, List.forall_mem_singleton.mpr hlimited,
          List.forall_mem_singleton.mpr ⟨lt_add_one _, hbound⟩, rfl⟩,
        fun _ => ⟨n, hn, rfl, htarget⟩⟩
      · rw [hkept m hm hplaced]
        exact List.mem_append_left _ (hs.pinned m hm hplaced)
      · have hraise := View.raise_pos hraised.above hlimited (by omega)
        push_cast
        omega
  | next =>
      refine ⟨rows, c, [], ⟨hs.handle, hs.pinned, fun w hw => ?_⟩,
        .of_same (List.Subset.refl _) rfl, .of_same hs.handle.meets rfl, fun hsame => ?_⟩
      · exact hs.limited w (List.mem_cons_of_mem _ hw)
      · simp at hsame

/-- So does any number of passes. -/
theorem passes (hs : s.IsEarliest v limits interval sameBlockOnly rows c)
    (hnames : (v.nodes.map (·.name)).Nodup) (h : Passes budget columns s s') :
    ∃ rows' c' pushed, s'.IsEarliest v limits interval sameBlockOnly rows' c' ∧
      Advances v limits s s' c c' ∧
      Raises v limits budget interval sameBlockOnly s s' c c' pushed := by
  induction h with
  | refl =>
      exact ⟨rows, c, [], hs, .of_same (List.Subset.refl _) rfl, .of_same hs.handle.meets rfl⟩
  | tail _ hpass ih =>
      rcases ih with ⟨rows₁, c₁, pushed₁, hs₁, hadvances, hraises⟩
      rcases hs₁.pass hnames hpass with ⟨rows₂, c₂, pushed₂, hs₂, hstep, hmore, _⟩
      exact ⟨rows₂, c₂, _, hs₂, hadvances.trans hstep, hraises.trans hmore⟩

/-- As long as the same operations wait, the first of them moves by one cycle with every
    push. -/
theorem first_passes {node : String} {cycle : Int}
    (hs : s.IsEarliest v limits interval sameBlockOnly rows c)
    (hnames : (v.nodes.map (·.name)).Nodup) (h : Passes budget columns s s')
    (hsame : s'.classes = s.classes) (hfirst : s.first? = some node)
    (hcycle : s.trial.handle.cycle? node = some cycle) :
    s'.trial.handle.cycle? node =
      some (cycle + (s'.progress.pushes - s.progress.pushes)) := by
  induction h with
  | refl => rw [sub_self, add_zero, hcycle]
  | @tail s₁ s₂ hpasses hpass ih =>
      have hmost := waiting_le_of_passes hpasses
      rcases hpass.cases_waiting with ⟨hstill, hpushes⟩ | ⟨hless, _⟩
      · have hread := ih (hstill.symm.trans hsame)
        rcases hs.passes hnames hpasses with ⟨rows₁, c₁, _, hs₁, _⟩
        rcases hs₁.pass hnames hpass with ⟨_, c₂, _, hs₂, _, _, hmoved⟩
        rcases hmoved hstill with ⟨n, hn, hname, htarget⟩
        rw [Standing.first?, ← hstill, hsame] at hname
        cases hfirst.symm.trans hname
        rw [hs₁.handle.shows n hn] at hread
        rw [hs₂.handle.shows n hn, htarget, hpushes, Option.some.inj hread]
        push_cast
        congr 1
        omega
      · -- Fewer operations wait, and they never become more.
        rw [Standing.waiting, hsame] at hless
        exact absurd hmost (not_le.mpr hless)

/-- Pinning begins with a solution that is the earliest one. -/
theorem start {g : Graph Rat} (hview : View.ofGraph g = .ok h.view)
    (he : h.IsEarliest h.view interval sameBlockOnly rows c) :
    (start limits budget h).IsEarliest h.view limits interval sameBlockOnly rows c := by
  refine ⟨he, fun _ _ hplaced => absurd hplaced List.not_mem_nil, fun w hw name hname => ?_⟩
  rcases List.mem_map.mp hw with ⟨e, hentry, rfl⟩
  rcases (mem_unitQueue_iff hview).mp hname with ⟨n, hn, hname, hunit⟩
  have hlimited := Limits.capacityOf?_isSome_of_unit? hunit (NameMap.get?_eq_some_iff.mpr hentry)
  exact ⟨n, List.mem_filter.mpr ⟨hn, hlimited⟩, hname⟩

end Standing.IsEarliest

/-! ### The result -/

/-- What can be seen of a handle while it is pinned. -/
structure Handle.MakesProgress (h : Handle Rat) (limits : Limits) (columns : Int)
    (budget : PinningBudget) : Prop where
  /-- The run is made of passes, and it stops after the last of them. -/
  run : ∃ s, Passes budget columns (.start limits budget h) s ∧
    Stops budget columns s (perform (placeAll budget columns h.view limits.toList
      { remaining := budget.iterations }) { handle := h })
  /-- From any time to any later one, no node moves back, and placed ones do not move. -/
  monotone : ∀ s s', Passes budget columns (.start limits budget h) s →
    Passes budget columns s s' →
    ∃ c c', s.trial.handle.Shows h.view c ∧ s'.trial.handle.Shows h.view c' ∧
      (∀ n ∈ h.view.nodes, c n ≤ c' n) ∧
      ∀ n ∈ h.view.nodes, n.name ∈ s.progress.placed → c' n = c n
  /-- A pass that pushes moves the operation that was looked at by one cycle, and the same
      operation is looked at again. -/
  target : ∀ s s', Passes budget columns (.start limits budget h) s → Pass budget columns s s' →
    s'.progress.pushes ≠ s.progress.pushes →
    ∃ node cycle, s.first? = some node ∧ s'.classes = s.classes ∧
      s.trial.handle.cycle? node = some cycle ∧ s'.trial.handle.cycle? node = some (cycle + 1)
  /-- So as long as it is looked at, it tries one cycle after the other. -/
  tries : ∀ s s' node, Passes budget columns (.start limits budget h) s →
    Passes budget columns s s' → s'.classes = s.classes → s.first? = some node →
    ∃ cycle, s.trial.handle.cycle? node = some cycle ∧
      s'.trial.handle.cycle? node = some (cycle + (s'.progress.pushes - s.progress.pushes))
  /-- On success, there were no more pushes than cycles that limited operations moved. -/
  pushes : ∀ report h', perform (pinToColumns limits columns budget) h = (.ok report, h') →
    ∃ c c', h.Shows h.view c ∧ h'.Shows h.view c' ∧
      (report.pushes : Int) ≤ ((h.view.limited limits).map fun n => c' n - c n).sum

/-- If the solution that pinning begins with is the earliest one, it makes progress. -/
theorem Handle.IsEarliest.makesProgress {g : Graph Rat} (hview : View.ofGraph g = .ok h.view)
    (hnames : (h.view.nodes.map (·.name)).Nodup)
    (he : h.IsEarliest h.view interval sameBlockOnly rows c) (limits : Limits) (columns : Int)
    (budget : PinningBudget) : h.MakesProgress limits columns budget := by
  have hstart : (Standing.start limits budget h).IsEarliest h.view limits interval sameBlockOnly
      rows c := .start hview he
  have hstop := exists_stop budget columns (Standing.start limits budget h)
  rw [Standing.finish_start] at hstop
  refine ⟨hstop, fun s s' hs hpasses => ?_, fun s s' hs hpass hpushes => ?_,
    fun s s' node hs hpasses hsame hfirst => ?_, fun report h' hrun => ?_⟩
  · rcases hstart.passes hnames hs with ⟨rows₁, c₁, _, hs₁, _⟩
    rcases hs₁.passes hnames hpasses with ⟨rows₂, c₂, _, hs₂, hadvances, _⟩
    exact ⟨c₁, c₂, hs₁.handle.shows, hs₂.handle.shows, hadvances.le, hadvances.kept⟩
  · rcases hpass.cases_waiting with ⟨hsame, _⟩ | ⟨_, hnone⟩
    · rcases hstart.passes hnames hs with ⟨rows₁, c₁, _, hs₁, _⟩
      rcases hs₁.pass hnames hpass with ⟨rows₂, c₂, _, hs₂, _, _, hmoved⟩
      rcases hmoved hsame with ⟨n, hn, hfirst, htarget⟩
      refine ⟨n.name, c₁ n, hfirst, hsame, hs₁.handle.shows n hn, ?_⟩
      rw [hs₂.handle.shows n hn, htarget]
    · exact absurd hnone hpushes
  · rcases hstart.passes hnames hs with ⟨rows₁, c₁, _, hs₁, _⟩
    rcases hs₁.first_mem hfirst with ⟨n, hlimited, rfl⟩
    have hread := hs₁.handle.shows n (List.mem_filter.mp hlimited).1
    exact ⟨c₁ n, hread, hs₁.first_passes hnames hpasses hsame hfirst hread⟩
  · rcases exists_passes_of_ok hrun with ⟨s, hpasses, rfl, hpushes⟩
    rcases hstart.passes hnames hpasses with ⟨rows₁, c₁, _, hs₁, hadvances, _⟩
    refine ⟨c, c₁, he.shows, hs₁.handle.shows, ?_⟩
    rw [← hpushes]
    exact le_of_eq_of_le (by simp [Standing.start]) hadvances.pushes

namespace Engine

variable {solver : Solver Rat} {g : Graph Rat} {e₁ e₂ e₃ e₄ e₅ : Engine Rat}

/-- If an exact solver finds anything for a model with a fixed interval and with pins and
    pushes, then the engine has the earliest solution. -/
theorem exists_isEarliest_of_solve {e e' : Engine Rat} {outcome : Outcome}
    (hexact : e.solver.Exact) (hnames : (v.nodes.map (·.name)).Nodup)
    (hm : e.model.Renders (fixedProgram interval v sameBlockOnly rows))
    (hbounds : ∀ r ∈ rows, r.Bounds v) (hsolve : perform solve e = (.ok outcome, e'))
    (hassign : outcome.hasAssignment = true) :
    ∃ c, (e'.handle v).IsEarliest v interval sameBlockOnly rows c := by
  rcases perform_solve_ok_iff.mp hsolve with ⟨_, rfl, rfl⟩
  -- What the engine was answered is what its handle would have been.
  refine Handle.IsEarliest.of_solve (h := e.handle v) hexact hnames hm hbounds ?_
  rw [Handle.hasAssignment_solve, ← hasAssignment_outcomeOf]
  exact hassign

/-- An engine with a fixed interval that was built, and whose model is still the one that was
    built when an exact solver finds an optimum of it, lends a handle with the earliest
    solution. -/
theorem exists_isEarliest_of_lend (hexact : solver.Exact)
    (hload : perform (load g) (fresh (.pipelined (.fixed interval)) solver sameBlockOnly)
      = (.ok ⟨⟩, e₁))
    (hbuild : perform build e₁ = (.ok ⟨⟩, e₂)) (hreach : Reaches Eq e₂ e₃)
    (hsolve : perform solve e₃ = (.ok .optimal, e₄))
    (hlend : perform (lend get) e₄ = (.ok h, e₅)) :
    View.ofGraph g = .ok h.view ∧ (h.view.nodes.map (·.name)).Nodup ∧
      ∃ c, h.IsEarliest h.view interval sameBlockOnly [] c := by
  have hfit := Graph.fit_of_defects (load_ok_iff.mp hload).1
  rcases build_renders hload hbuild with ⟨v, m, hview, hm, rfl⟩
  have hcont := hreach.settled (fun _ => rfl) (fun _ _ _ => Eq.trans) builtWith_settled rfl
  have hmodel : m = e₃.model := hcont.model
  have hsame : e₃.solver = solver := hcont.solver
  have hrenders : e₃.model.Renders (fixedProgram interval v sameBlockOnly []) := by
    rw [fixedProgram, Program.withRows_nil, ← hmodel]
    exact hm
  have hnames := hfit.node_names_nodup hview
  have hearliest := exists_isEarliest_of_solve (hsame.symm ▸ hexact) hnames hrenders
    (fun _ hr => absurd hr List.not_mem_nil) hsolve rfl
  rcases perform_lend_ok_iff.mp hlend with ⟨_, w, hw, rfl, _⟩
  rcases perform_solve_ok_iff.mp hsolve with ⟨_, _, rfl⟩
  cases hcont.view.symm.trans hw
  exact ⟨hview, hnames, hearliest⟩

/-- An engine with a fixed interval that was built, and whose model is still the one that was
    built when an exact solver finds an optimum of it, lends a handle on which pinning makes
    progress, for all limits, columns and budgets. -/
theorem pinning_makes_progress (hexact : solver.Exact)
    (hload : perform (load g) (fresh (.pipelined (.fixed interval)) solver sameBlockOnly)
      = (.ok ⟨⟩, e₁))
    (hbuild : perform build e₁ = (.ok ⟨⟩, e₂)) (hreach : Reaches Eq e₂ e₃)
    (hsolve : perform solve e₃ = (.ok .optimal, e₄)) (hlend : perform (lend get) e₄ = (.ok h, e₅))
    (limits : Limits) (columns : Int) (budget : PinningBudget) :
    h.MakesProgress limits columns budget := by
  rcases exists_isEarliest_of_lend hexact hload hbuild hreach hsolve hlend with
    ⟨hview, hnames, c, hearliest⟩
  exact hearliest.makesProgress hview hnames limits columns budget

/-- The second addition gives way to the first one, by the one cycle that it is pushed. -/
theorem pinning_makes_progress_trailing :
    backedSolver.Exact ∧ ∃ e₁ e₂ e₄ h' report,
      perform (load Graph.trailing) (fresh (.pipelined (.fixed 2)) backedSolver true)
        = (.ok ⟨⟩, e₁) ∧
      perform build e₁ = (.ok ⟨⟩, e₂) ∧ Reaches Eq e₂ e₂ ∧
      perform solve e₂ = (.ok .optimal, solvedTrailing) ∧
      perform (lend get) solvedTrailing = (.ok (solvedTrailing.handle View.trailing), e₄) ∧
      perform (pinToColumns .oneEach 2 { maxLatency := 1 }) (solvedTrailing.handle View.trailing)
        = (.ok report, h') ∧ report.pushes = 1 ∧
      (solvedTrailing.handle View.trailing).MakesProgress .oneEach 2 { maxLatency := 1 } := by
  rcases exists_solvedTrailing with
    ⟨e₁, e₂, e₄, h', hload, hbuild, hsolve, hlend, hrun, _⟩
  exact ⟨backedSolver_exact, e₁, e₂, e₄, h', _, hload, hbuild, .start, hsolve, hlend, hrun, rfl,
    pinning_makes_progress backedSolver_exact hload hbuild .start hsolve hlend .oneEach 2
      { maxLatency := 1 }⟩

end Engine

end CyclePlan
