import CyclePlan.Proofs.CriticalPath
import CyclePlan.Proofs.Graph.Closed
import CyclePlan.Proofs.Schedule.KeyFigures

/-!
# Recorded Ends

Where the supernodes that blocks have recorded are those that end them.

A last supernode is found in three ways. The inspection of a graph and the view go by the
kind of an operation. The latency among the key figures goes by the number that each block
has recorded, and the latency of a block by the name that bounding gives its supernodes. The
inspection asks each block for one supernode of each kind and does not ask where it came
from, so that a supernode that was added like any other operation passes, although no block
has recorded it. Then the key figures leave it out (`Graph.unrecorded_not_listed`).

What has to be asked for in addition is exactly that every block has recorded its last
supernode (`Graph.Consistent.listsEnds_iff`). Then the recorded ones are those of the view,
and the latency is the latest of their cycles, which is the latest end that a solved engine
answers and, without pipelining, its objective (`Engine.latency_of_recorded`).

## Main definitions

* `Graph.RecordsEnds`: Every block has recorded a last supernode of its own.
* `Graph.ListsEnds`: The recorded ones are all that there are.
* `Graph.NamesSupers`: Supernodes have the names that bounding gives them.
* `Graph.unrecorded`: A block with supernodes that it has not recorded.

## Theorems

* `Graph.RecordsEnds.listsEnds`, `Graph.Consistent.listsEnds_iff`: When all are recorded.
* `Graph.ListsEnds.sinks_perm`: The view has the same ones.
* `Graph.ListsEnds.isGreatest_latency`: The latency is the latest of their cycles.
* `Engine.endCycles_iff`: The ends of a solved engine are cycles of its schedule.
* `Engine.latency_of_recorded`: All notions of an end agree.
-/

namespace CyclePlan

/-- The greatest of some numbers is one of them. -/
theorem Schedule.isGreatest_greatest {cycles : List Int} (h : cycles ≠ []) :
    IsGreatest {c | c ∈ cycles} (greatest cycles) := by
  cases cycles with
  | nil => exact absurd rfl h
  | cons c rest =>
      rw [greatest]
      clear h
      induction rest generalizing c with
      | nil => simp [IsGreatest]
      | cons c' rest ih =>
          rcases ih (max c c') with ⟨hmem, hbound⟩
          rw [List.foldl_cons]
          have hmax : max c c' ≤ rest.foldl max (max c c') := hbound List.mem_cons_self
          refine ⟨?_, fun k hk => ?_⟩
          · rcases List.mem_cons.mp hmem with heq | hmem
            · rw [heq]
              rcases max_choice c c' with hc | hc <;> simp [hc]
            · simp [hmem]
          · rcases List.mem_cons.mp hk with rfl | hk
            · exact (le_max_left _ _).trans hmax
            · rcases List.mem_cons.mp hk with rfl | hk
              · exact (le_max_right _ _).trans hmax
              · exact hbound (List.mem_cons_of_mem _ hk)

namespace Graph

variable {α : Type}

/-- Every block stands at its number and has recorded a last supernode of its own. -/
def RecordsEnds (g : Graph α) : Prop :=
  ∀ (i : Nat) (b : Block), g.blocks[i]? = some b →
    b.id = i ∧ ∃ u, b.sink = some u ∧ g.IsSuper .sink i u

/-- The last supernodes that blocks have recorded are all that there are, and each is that
    of its block. -/
structure ListsEnds (g : Graph α) : Prop where
  length : g.blockSinks.length = g.blocks.length
  mem_iff : ∀ u, u ∈ g.blockSinks ↔ ∃ op, g.ops[u]? = some op ∧ op.kind = .superSink
  inOrder : ∀ (i u : Nat), g.blockSinks[i]? = some u → g.IsSuper .sink i u

/-- Supernodes have the names that bounding the blocks gives them. -/
def NamesSupers (g : Graph α) : Prop :=
  ∀ role : SuperRole, ∀ op ∈ g.ops, op.kind = role.kind → op.name = role.nodeName op.block

/-! ### What is recorded -/

section

variable {g : Graph α}

theorem blockSinks_eq (h : ∀ b ∈ g.blocks, b.sink.isSome = true) :
    g.blockSinks = g.blocks.map fun b => b.sink.getD 0 := by
  rw [blockSinks, ← List.filterMap_eq_map]
  refine List.filterMap_congr fun b hb => ?_
  rcases Option.isSome_iff_exists.mp (h b hb) with ⟨u, hu⟩
  simp [hu]

theorem RecordsEnds.isSome_sink (h : g.RecordsEnds) : ∀ b ∈ g.blocks, b.sink.isSome = true := by
  intro b hb
  rcases List.mem_iff_getElem?.mp hb with ⟨i, hi⟩
  rcases (h i b hi).2 with ⟨u, hu, _⟩
  rw [hu, Option.isSome_some]

theorem RecordsEnds.getElem?_blockSinks_iff (h : g.RecordsEnds) {i u : Nat} :
    g.blockSinks[i]? = some u ↔ ∃ b, g.blocks[i]? = some b ∧ b.sink = some u := by
  rw [blockSinks_eq h.isSome_sink, List.getElem?_map, Option.map_eq_some_iff]
  refine exists_congr fun b => and_congr_right fun hb => ?_
  rcases Option.isSome_iff_exists.mp (h.isSome_sink b (List.mem_of_getElem? hb)) with ⟨u', hu'⟩
  simp [hu']

/-- A list of ends has one for each block only if every block has recorded one. -/
theorem ListsEnds.isSome_sink (h : g.ListsEnds) : ∀ b ∈ g.blocks, b.sink.isSome = true := by
  have hlength := h.length
  rw [blockSinks, List.length_filterMap_eq_countP] at hlength
  exact List.countP_eq_length.mp hlength

theorem ListsEnds.lt_size (h : g.ListsEnds) : ∀ u ∈ g.blockSinks, u < g.size := by
  intro u hu
  rcases (h.mem_iff u).mp hu with ⟨op, hop, _⟩
  exact (List.getElem?_eq_some_iff.mp hop).1

/-- No end is listed for two blocks. -/
theorem ListsEnds.nodup (h : g.ListsEnds) : g.blockSinks.Nodup := by
  rw [List.nodup_iff_getElem?_ne_getElem?]
  intro i j hij hj heq
  rcases h.inOrder j _ (List.getElem?_eq_getElem hj) with ⟨op, hop, _, hblock⟩
  rw [List.getElem?_eq_getElem hj] at heq
  rcases h.inOrder i _ heq with ⟨op', hop', _, hblock'⟩
  cases hop.symm.trans hop'
  exact Nat.ne_of_lt hij (hblock'.symm.trans hblock)

end

variable {g : Graph Rat}

/-- In an accepted graph, recorded ends are all that there are. -/
theorem RecordsEnds.listsEnds (h : g.RecordsEnds) (hdefects : g.defects = []) : g.ListsEnds := by
  have hsuper : ∀ {i u : Nat}, g.blockSinks[i]? = some u → g.IsSuper .sink i u := by
    intro i u hu
    rcases h.getElem?_blockSinks_iff.mp hu with ⟨b, hb, hsink⟩
    rcases (h i b hb).2 with ⟨u', hu', hsuper⟩
    cases hsink.symm.trans hu'
    exact hsuper
  refine ⟨?_, fun u => ⟨fun hu => ?_, ?_⟩, fun i u => hsuper⟩
  · rw [blockSinks_eq h.isSome_sink, List.length_map]
  · rcases List.mem_iff_getElem?.mp hu with ⟨i, hi⟩
    rcases hsuper hi with ⟨op, hop, hkind, _⟩
    exact ⟨op, hop, hkind⟩
  · rintro ⟨op, hop, hkind⟩
    -- Its block has recorded an end, and there is no other.
    have hinside : op.block < g.blocks.length :=
      block_lt_of_defects hdefects op (List.mem_of_getElem? hop)
    have hb := List.getElem?_eq_getElem hinside
    rcases h _ _ hb with ⟨hid, u', hsink, hrecorded⟩
    have hown : g.IsSuper .sink g.blocks[op.block].id u := ⟨op, hop, hkind, hid.symm⟩
    rw [← hid] at hrecorded
    have hsame : u = u' := hown.unique hdefects (List.mem_of_getElem? hb) hrecorded
    rw [hsame]
    exact List.mem_of_getElem? (h.getElem?_blockSinks_iff.mpr ⟨_, hb, hsink⟩)

/-- What blocks have recorded in a graph that calls have made are supernodes of their own. -/
theorem Consistent.recordsEnds (h : g.Consistent) (hsome : ∀ b ∈ g.blocks, b.sink.isSome = true) :
    g.RecordsEnds := by
  intro i b hb
  rcases Option.isSome_iff_exists.mp (hsome b (List.mem_of_getElem? hb)) with ⟨u, hu⟩
  rcases h.recorded i b .sink u hb hu with ⟨op, hop, hkind, hblock, _⟩
  exact ⟨h.ids i b hb, u, hu, op, hop, hkind, hblock⟩

/-- In an accepted graph that calls have made, all ends are listed exactly if every block has
    recorded one. -/
theorem Consistent.listsEnds_iff (h : g.Consistent) (hdefects : g.defects = []) :
    g.ListsEnds ↔ ∀ b ∈ g.blocks, b.sink.isSome = true :=
  ⟨ListsEnds.isSome_sink, fun hsome => (h.recordsEnds hsome).listsEnds hdefects⟩

/-- If the blocks of such a graph have been bounded, then all supernodes have the names that
    they were given. -/
theorem Consistent.namesSupers (h : g.Consistent) (hdefects : g.defects = [])
    (hbounded : ∀ b ∈ g.blocks, b.isBounded = true) : g.NamesSupers := by
  intro role op hop hkind
  rcases List.mem_iff_getElem?.mp hop with ⟨u, hu⟩
  have hinside : op.block < g.blocks.length := block_lt_of_defects hdefects op hop
  have hb := List.getElem?_eq_getElem hinside
  have hmem := List.mem_of_getElem? hb
  have hid := h.ids _ _ hb
  have hrecorded : ∃ u', g.blocks[op.block].recorded? role = some u' := by
    have hboth := hbounded _ hmem
    rw [Block.isBounded, Bool.and_eq_true] at hboth
    cases role with
    | source => exact Option.isSome_iff_exists.mp hboth.1
    | sink => exact Option.isSome_iff_exists.mp hboth.2
  rcases hrecorded with ⟨u', hu'⟩
  rcases h.recorded _ _ role u' hb hu' with ⟨op', hop', hkind', hblock', hname⟩
  -- The block has one supernode in the role, so the recorded one is this one.
  have hsame : u = u' := IsSuper.unique hdefects hmem ⟨op, hu, hkind, hid.symm⟩
    ⟨op', hop', hkind', hblock'.trans hid.symm⟩
  cases hsame
  cases hu.symm.trans hop'
  exact hname

/-! ### What is scheduled -/

section

variable {v : View Rat} {s : Schedule Rat}

theorem mem_sinks_origin_iff (hview : View.ofGraph g = .ok v) {u : Nat} :
    u ∈ v.sinks.map (·.origin) ↔ ∃ op, g.ops[u]? = some op ∧ op.kind = .superSink := by
  rw [List.mem_map]
  constructor
  · rintro ⟨n, hn, rfl⟩
    rcases View.isSuper_of_mem_sinks hview hn with ⟨op, hop, hkind, _⟩
    exact ⟨op, hop, hkind⟩
  · rintro ⟨op, hop, hkind⟩
    have hkept : op.kind.isStripped = false := by
      rw [hkind]
      rfl
    exact ⟨View.nodeOf u op, View.mem_sinks_iff.mpr ⟨View.nodeOf_mem_nodes hview hop hkept, hkind⟩,
      rfl⟩

/-- The view has the listed ends and no others. -/
theorem ListsEnds.sinks_perm (h : g.ListsEnds) (hview : View.ofGraph g = .ok v) :
    (v.sinks.map (·.origin)).Perm g.blockSinks := by
  have hdistinct : (v.sinks.map (·.origin)).Nodup :=
    (List.filter_sublist.map _).nodup (View.origins_nodup hview)
  -- Neither side has an operation twice, so it is enough to compare what is in them.
  rw [List.perm_ext_iff_of_nodup hdistinct h.nodup]
  exact fun u => (mem_sinks_origin_iff hview).trans (h.mem_iff u).symm

/-- The end that is listed for a block is the one that the view has of it. -/
theorem ListsEnds.sinkOf?_eq (h : g.ListsEnds) (hdefects : g.defects = [])
    (hids : ∀ (i : Nat) (b : Block), g.blocks[i]? = some b → b.id = i)
    (hview : View.ofGraph g = .ok v) {i u : Nat} (hu : g.blockSinks[i]? = some u) :
    ∃ n, v.sinkOf? i = some n ∧ n.origin = u := by
  have hlisted := (h.sinks_perm hview).mem_iff.mpr (List.mem_of_getElem? hu)
  rcases List.mem_map.mp hlisted with ⟨n, hn, rfl⟩
  rcases h.inOrder i _ hu with ⟨op, hop, _, rfl⟩
  rcases View.isSuper_of_mem_sinks hview hn with ⟨op', hop', _, hblock⟩
  cases hop.symm.trans hop'
  have hinside : op.block < g.blocks.length :=
    block_lt_of_defects hdefects op (List.mem_of_getElem? hop)
  have hb := List.getElem?_eq_getElem hinside
  refine ⟨n, ?_, rfl⟩
  rw [hblock]
  exact View.sinkOf?_eq hdefects hview hn
    ⟨_, List.mem_of_getElem? hb, (hids _ _ hb).trans hblock⟩

/-- The latency is the latest cycle of an end. -/
theorem ListsEnds.isGreatest_latency (h : g.ListsEnds) (hdefects : g.defects = [])
    (hblocks : g.blocks ≠ []) (hview : View.ofGraph g = .ok v)
    (hcycles : ∀ n ∈ v.sinks, ∃ c, s.cycle? n.name = some c ∧ 0 ≤ c) :
    IsGreatest {c | ∃ n ∈ v.sinks, s.cycle? n.name = some c} (s.figures g).latency := by
  have hsame : ∀ c, c ∈ (g.blockSinks.filterMap g.node?).filterMap (fun op => s.cycle? op.name) ↔
      ∃ n ∈ v.sinks, s.cycle? n.name = some c := by
    intro c
    simp only [List.mem_filterMap]
    constructor
    · rintro ⟨op, ⟨u, hu, hop⟩, hc⟩
      rcases List.mem_map.mp ((h.sinks_perm hview).mem_iff.mpr hu) with ⟨n, hn, rfl⟩
      rcases (View.mem_nodes_iff hview).mp (View.mem_sinks_iff.mp hn).1 with ⟨op', hop', _, heq⟩
      cases hop.symm.trans hop'
      exact ⟨n, hn, by rw [heq]; exact hc⟩
    · rintro ⟨n, hn, hc⟩
      rcases (View.mem_nodes_iff hview).mp (View.mem_sinks_iff.mp hn).1 with ⟨op, hop, _, heq⟩
      rw [heq] at hc
      exact ⟨op, ⟨n.origin, (h.sinks_perm hview).mem_iff.mp (List.mem_map_of_mem hn), hop⟩, hc⟩
  rcases List.exists_mem_of_ne_nil _ (View.sinks_ne_nil hdefects hview hblocks) with ⟨n, hn⟩
  rcases hcycles n hn with ⟨c, hc, hsign⟩
  have hmem := (hsame c).mpr ⟨n, hn, hc⟩
  have hgreatest := Schedule.isGreatest_greatest (List.ne_nil_of_mem hmem)
  -- An end at or after cycle zero makes the cut at zero void.
  have hlatency : (s.figures g).latency = Schedule.greatest
      ((g.blockSinks.filterMap g.node?).filterMap fun op => s.cycle? op.name) :=
    max_eq_left (hsign.trans (hgreatest.2 hmem))
  rw [hlatency]
  simpa only [hsame] using hgreatest

/-- A block whose supernodes are scheduled has a latency, if they have their names. -/
theorem NamesSupers.isSome_blockLatency (h : g.NamesSupers) (hdefects : g.defects = [])
    {b : Block} (hb : b ∈ g.blocks)
    (hscheduled : ∀ op ∈ g.ops, op.kind.isSuper = true → op.block = b.id →
      (s.cycle? op.name).isSome = true) :
    ((s.figures g).blockLatency.get? b.name).isSome = true := by
  have hcycle : ∀ role : SuperRole, ∃ c, s.cycle? (role.nodeName b.id) = some c := by
    intro role
    -- The inspection has found the supernode by its kind, and it goes by this name.
    have hone := countP_superNode hdefects hb role
    rcases List.countP_pos_iff.mp (hone ▸ Nat.one_pos) with ⟨op, hop, htest⟩
    rw [Bool.and_eq_true, beq_iff_eq, beq_iff_eq] at htest
    have hsome := hscheduled op hop (by rw [htest.1, role.isSuper_kind]) htest.2
    rw [h role op hop htest.1, htest.2] at hsome
    exact Option.isSome_iff_exists.mp hsome
  rcases hcycle .source with ⟨start, hstart⟩
  rcases hcycle .sink with ⟨finish, hfinish⟩
  have hlatency : s.blockLatency? b = some (finish - start) := by
    change s.cycle? (Block.sourceName b.id) = _ at hstart
    change s.cycle? (Block.sinkName b.id) = _ at hfinish
    rw [Schedule.blockLatency?, hstart, hfinish]
    rfl
  refine NameMap.isSome_get?_foldl_insert _ _ (.inl ?_)
  refine List.mem_map.mpr ⟨(b.name, finish - start), List.mem_filterMap.mpr ⟨b, hb, ?_⟩, rfl⟩
  rw [hlatency, Option.map_some]

end

end Graph

/-! ### What is solved -/

namespace Engine

variable {v : View Rat} {e : Engine Rat} {s : Schedule Rat} {ends : NameMap Int}

/-- Ends can be asked for only of a solved engine. -/
theorem exists_solution_of_endCycles (hends : e.endCycles = .ok ends) :
    e.phase = .solved ∧ ∃ found, e.solution = some found := by
  have hsolved : ∃ p, e.solved .endCycles = .ok p := by
    cases h : e.solved .endCycles with
    | error err =>
        rw [endCycles, h] at hends
        cases hends
    | ok p => exact ⟨p, rfl⟩
  rcases hsolved with ⟨p, hp⟩
  rw [solved] at hp
  split at hp
  · next hphase hsolution _ => exact ⟨hphase, _, hsolution⟩
  · cases hp

/-- The ends of a solved engine are the cycles that its schedule has of the sinks. -/
theorem endCycles_iff (hnames : (v.nodes.map (·.name)).Nodup) (hview : e.view = some v)
    (hschedule : e.schedule = .ok s) (hends : e.endCycles = .ok ends) (name : String) (c : Int) :
    ends.get? name = some c ↔ (∃ n ∈ v.sinks, n.name = name) ∧ s.cycle? name = some c := by
  rcases exists_solution_of_endCycles hends with ⟨hphase, found, hsolution⟩
  -- Both read the same values, the one of the sinks, the other of all nodes.
  have hcycle : s.cycle? name = some c ↔
      ∃ n ∈ v.nodes, n.name = name ∧ found.int? (startVar name) = some c := by
    rcases schedule_ok_iff.mp hschedule with ⟨o, _, ⟨hnot, _⟩ | ⟨_, found', v', hs', hv', rfl⟩⟩
    · exact absurd hphase hnot
    · cases hsolution.symm.trans hs'
      cases hview.symm.trans hv'
      exact get?_startCycles_iff hnames
  rw [endCycles_eq hphase hsolution hview] at hends
  cases hloop : v.sinks.mapM (endOf found) with
  | error err =>
      rw [hloop] at hends
      cases hends
  | ok entries =>
      rw [hloop] at hends
      cases hends
      rw [get?_ends_iff hnames hloop, hcycle]
      constructor
      · rintro ⟨n, hn, hname, hvalue⟩
        exact ⟨⟨n, hn, hname⟩, n, (View.mem_sinks_iff.mp hn).1, hname, hvalue⟩
      · rintro ⟨⟨n, hn, hname⟩, _, _, _, hvalue⟩
        exact ⟨n, hn, hname, hvalue⟩

variable {g : Graph Rat}

/-- The latest end of a solved engine is the latest cycle that its schedule has of a sink. -/
theorem ends_eq_cycles (hnames : (v.nodes.map (·.name)).Nodup) (hview : e.view = some v)
    (hschedule : e.schedule = .ok s) (hends : e.endCycles = .ok ends) :
    {c | ∃ name, ends.get? name = some c} = {c | ∃ n ∈ v.sinks, s.cycle? n.name = some c} := by
  ext c
  change (∃ name, ends.get? name = some c) ↔ ∃ n ∈ v.sinks, s.cycle? n.name = some c
  simp only [endCycles_iff hnames hview hschedule hends]
  constructor
  · rintro ⟨_, ⟨n, hn, rfl⟩, hc⟩
    exact ⟨n, hn, hc⟩
  · rintro ⟨n, hn, hc⟩
    exact ⟨n.name, ⟨n, hn, rfl⟩, hc⟩

/-- Without pipelining, the objective is the latency of the schedule. -/
theorem exists_noPipeline_latency (hdefects : g.defects = []) (hblocks : g.blocks ≠ [])
    (hlists : g.ListsEnds) {solver : Solver Rat} (sameBlockOnly : Bool) (hexact : solver.Exact)
    (hreports : solver.ReportsObjective) :
    ∃ t ends, Solves .noPipeline solver sameBlockOnly g .optimal t ends ∧
      t.objective = some ((t.figures g).latency : Rat) := by
  have hfit := Graph.fit_of_defects hdefects
  rcases hfit.exists_view with ⟨v, hview⟩
  have hnames := hfit.node_names_nodup hview
  rcases exists_load .noPipeline solver sameBlockOnly hdefects with ⟨e, hload⟩
  rcases View.exists_longest_forward sameBlockOnly hfit hview with ⟨d, hd⟩
  rcases View.exists_isLatest (View.sinks_ne_nil hdefects hview hblocks) d with ⟨last, hlast⟩
  rcases exists_solves_noPipeline hexact hload hview hd hlast with
    ⟨t, ends, z, hsolves, hreal, _, hstarts, hbelow, hobjective⟩
  -- The cycles of the sinks are not negative, and the last of them is at its longest path.
  have hlongest : ∀ n ∈ v.sinks, (d n : Rat) ≤ z (startVar n.name) := fun n hn =>
    Discipline.longest_le hd hnames hstarts (View.mem_sinks_iff.mp hn).1
  have hlatency := hlists.isGreatest_latency hdefects hblocks hview fun n hn => by
    rcases hreal.cycle? (View.mem_sinks_iff.mp hn).1 with ⟨c, hc, hvalue⟩
    have hle := hlongest n hn
    rw [hvalue] at hle
    exact ⟨c, hc, (hd n).nonneg.trans (by exact_mod_cast hle)⟩
  have hlatest : IsGreatest {c | ∃ n ∈ v.sinks, t.cycle? n.name = some c} (d last) := by
    refine ⟨⟨last, hlast.sink, ?_⟩, ?_⟩
    · exact (hreal.cycle_iff _ _).mpr ⟨⟨last, (View.mem_sinks_iff.mp hlast.sink).1, rfl⟩,
        le_antisymm (hbelow last hlast.sink) (hlongest last hlast.sink)⟩
    · rintro c ⟨n, hn, hc⟩
      have hle := hbelow n hn
      rw [((hreal.cycle_iff _ _).mp hc).2] at hle
      exact_mod_cast hle
  refine ⟨t, ends, hsolves, ?_⟩
  rw [hobjective hreports, hlatency.unique hlatest]

/-- Suppose that every block of an accepted graph has recorded its last supernode, and that
    a schedule has a cycle for all of them, none of them before cycle zero. Then the recorded
    supernodes are all last supernodes, one for each block, and so are the sinks of the view.
    The latency among the key figures is the latest of their cycles, and of the ends that an
    engine with this schedule answers. Without pipelining, an exact solver makes it its
    objective. A block whose supernodes are scheduled has a latency, as long as supernodes
    have the names that bounding gives them. -/
theorem latency_of_recorded (hdefects : g.defects = []) (hblocks : g.blocks ≠ [])
    (hrecords : g.RecordsEnds) (s : Schedule Rat)
    (hcycles : ∀ op ∈ g.ops, op.kind = .superSink → ∃ c, s.cycle? op.name = some c ∧ 0 ≤ c) :
    g.ListsEnds ∧ ∃ v k, View.ofGraph g = .ok v ∧ s.keyFigures g = .ok k ∧
      (v.sinks.map (·.origin)).Perm g.blockSinks ∧
      (∀ i u : Nat, g.blockSinks[i]? = some u → ∃ n, v.sinkOf? i = some n ∧ n.origin = u) ∧
      IsGreatest {c | ∃ n ∈ v.sinks, s.cycle? n.name = some c} k.latency ∧
      (∀ (e : Engine Rat) (ends : NameMap Int), e.view = some v → e.schedule = .ok s →
        e.endCycles = .ok ends → IsGreatest {c | ∃ name, ends.get? name = some c} k.latency) ∧
      (g.NamesSupers → ∀ b ∈ g.blocks,
        (∀ op ∈ g.ops, op.kind.isSuper = true → op.block = b.id →
          (s.cycle? op.name).isSome = true) →
        (k.blockLatency.get? b.name).isSome = true) ∧
      ∀ (solver : Solver Rat) (sameBlockOnly : Bool), solver.Exact → solver.ReportsObjective →
        ∃ t ends k', Solves .noPipeline solver sameBlockOnly g .optimal t ends ∧
          t.keyFigures g = .ok k' ∧ t.objective = some (k'.latency : Rat) := by
  have hfit := Graph.fit_of_defects hdefects
  have hlists := hrecords.listsEnds hdefects
  rcases hfit.exists_view with ⟨v, hview⟩
  have hnames := hfit.node_names_nodup hview
  have hfigures : ∀ t : Schedule Rat, t.keyFigures g = .ok (t.figures g) := fun t =>
    Schedule.keyFigures_eq_ok_iff.mpr ⟨hlists.lt_size, rfl⟩
  have hgreatest := hlists.isGreatest_latency hdefects hblocks hview fun n hn => by
    rcases (View.mem_nodes_iff hview).mp (View.mem_sinks_iff.mp hn).1 with ⟨op, hop, _, heq⟩
    have hkind := (View.mem_sinks_iff.mp hn).2
    rw [heq] at hkind ⊢
    exact hcycles op (List.mem_of_getElem? hop) hkind
  refine ⟨hlists, v, s.figures g, hview, hfigures s, hlists.sinks_perm hview,
    fun i u => hlists.sinkOf?_eq hdefects (fun i b hb => (hrecords i b hb).1) hview, hgreatest,
    fun e ends hev hschedule hends => ?_,
    fun hsupers b hb => hsupers.isSome_blockLatency hdefects hb,
    fun solver sameBlockOnly hexact hreports => ?_⟩
  · rw [ends_eq_cycles hnames hev hschedule hends]
    exact hgreatest
  · rcases exists_noPipeline_latency hdefects hblocks hlists sameBlockOnly hexact hreports with
      ⟨t, ends, hsolves, hobjective⟩
    exact ⟨t, ends, t.figures g, hsolves, hfigures t, hobjective⟩

/-- The two blocks of the additions end in different cycles, the first one later. -/
def additionsEnds : Schedule Rat where
  outcome := .feasible
  cycles := .ofList [("ssrc_0", 0), ("ssink_0", 5), ("ssrc_1", 1), ("ssink_1", 3)]

/-- Both blocks have recorded their ends. -/
theorem latency_of_recorded_additions :
    Graph.additions.defects = [] ∧ Graph.additions.blocks ≠ [] ∧ Graph.additions.RecordsEnds ∧
      (∀ op ∈ Graph.additions.ops, op.kind = .superSink →
        ∃ c, additionsEnds.cycle? op.name = some c ∧ 0 ≤ c) ∧
      Graph.additions.blockSinks.length = 2 ∧
      ∃ k, additionsEnds.keyFigures Graph.additions = .ok k ∧ k.latency = 5 ∧
        (k.blockLatency.get? "second").isSome = true := by
  have hconsistent : Graph.additions.Consistent := Graph.additions_isClosed.consistent
  have hbounded : ∀ b ∈ Graph.additions.blocks, b.isBounded = true := by decide +kernel
  have hblocks : Graph.additions.blocks ≠ [] := by decide +kernel
  have hrecords : Graph.additions.RecordsEnds :=
    hconsistent.recordsEnds fun b hb => (Bool.and_eq_true_iff.mp (hbounded b hb)).2
  have hcycles : ∀ op ∈ Graph.additions.ops, op.kind = .superSink →
      ∃ c, additionsEnds.cycle? op.name = some c ∧ 0 ≤ c := by
    have hnames : ∀ op ∈ Graph.additions.ops, op.kind = .superSink →
        op.name = "ssink_0" ∨ op.name = "ssink_1" := by decide +kernel
    intro op hop hkind
    rcases hnames op hop hkind with hname | hname
    · exact ⟨5, by rw [hname]; rfl, by decide⟩
    · exact ⟨3, by rw [hname]; rfl, by decide⟩
  rcases latency_of_recorded Graph.additions_defects hblocks hrecords additionsEnds hcycles with
    ⟨hlists, v, k, _, hk, _, _, _, _, hlatencies, _⟩
  have hlatency : (additionsEnds.keyFigures Graph.additions).map (·.latency) = .ok 5 := by
    decide +kernel
  rw [hk] at hlatency
  have hscheduled : ∀ op ∈ Graph.additions.ops, op.kind.isSuper = true →
      (additionsEnds.cycle? op.name).isSome = true := by decide +kernel
  have hsecond : ∃ b ∈ Graph.additions.blocks, b.name = "second" := by decide +kernel
  rcases hsecond with ⟨b, hb, hname⟩
  have hentry := hlatencies (hconsistent.namesSupers Graph.additions_defects hbounded) b hb
    fun op hop hsuper _ => hscheduled op hop hsuper
  rw [hname] at hentry
  exact ⟨Graph.additions_defects, hblocks, hrecords, hcycles, hlists.length, k, hk,
    Except.ok.inj hlatency, hentry⟩

end Engine

/-! ### What is not recorded -/

namespace Graph

/-- A block whose supernodes were added like other operations, and not by bounding it. -/
def unrecorded : Graph Rat :=
  afterCalls { name := "unrecorded" } [.addBlock "entry",
    .addOperationOfKind "first" .superSource 0, .addOperationOfKind "last" .superSink 0,
    .addDependency "first" "last"]

/-- The block ends in cycle five. -/
def unrecordedSchedule : Schedule Rat where
  outcome := .optimal
  cycles := .ofList [("first", 0), ("last", 5)]

/-- The graph is accepted, and its view has an end that starts in cycle five. No block has
    recorded it, so the latency is zero, and the block has none. -/
theorem unrecorded_not_listed :
    unrecorded.defects = [] ∧ unrecorded.blocks.length = 1 ∧ unrecorded.IsSuper .sink 0 1 ∧
      (∃ v, View.ofGraph unrecorded = .ok v ∧
        ∃ n ∈ v.sinks, unrecordedSchedule.cycle? n.name = some 5) ∧
      unrecorded.blockSinks = [] ∧ ¬ unrecorded.ListsEnds ∧
      ∃ k, unrecordedSchedule.keyFigures unrecorded = .ok k ∧ k.latency = 0 ∧
        k.blockLatency.get? "entry" = none := by
  have hdefects : unrecorded.defects = [] := by decide +kernel
  have hend : unrecorded.IsSuper .sink 0 1 := ⟨.ofKind "last" .superSink 0, rfl, rfl, rfl⟩
  have hfigures : unrecordedSchedule.keyFigures unrecorded =
      .ok (unrecordedSchedule.figures unrecorded) :=
    Schedule.keyFigures_eq_ok_iff.mpr ⟨nofun, rfl⟩
  rcases (fit_of_defects hdefects).exists_view with ⟨v, hview⟩
  have hnode : View.nodeOf 1 (.ofKind "last" .superSink 0) ∈ v.nodes :=
    View.nodeOf_mem_nodes hview rfl rfl
  refine ⟨hdefects, rfl, hend, ⟨v, hview, _, View.mem_sinks_iff.mpr ⟨hnode, rfl⟩, rfl⟩, rfl,
    fun hlists => ?_, _, hfigures, rfl, rfl⟩
  cases hlists.length

end Graph

end CyclePlan
