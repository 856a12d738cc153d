import CyclePlan.Proofs.Resource.Compaction
import CyclePlan.Proofs.Rollback

/-!
# Exact Within a Horizon

The formulation by cycle says what it is meant to say.

Capacities bound how many operations start in the same cycle, which is not linear in
the start cycles. The formulation buys linearity with many new variables, and the
question is whether it pays with schedules. It does not: an assignment of the
variables that were there can be continued to a point of the larger model exactly
if it is a point of the smaller one, keeps to the capacities and starts the limited
operations within the horizon of their block (`exists_continuation_iff`). It can be
continued in one way only (`continuation_unique`), so solutions are neither lost nor
counted twice.

Nothing is assumed about the model but what holds of every model an engine lends.
Borrowers may have edited it before.

## Main definitions

* `View.StaysWithin`: Start cycles within horizons and capacities.
* `activated`: The activations that go with start cycles.
* `View.trailingCycle`: Start cycles with and without contention.

## Theorems

* `exists_continuation_iff`: Which assignments can be continued.
* `continuation_unique`: There is one continuation.
* `Engine.addTimeIndexed_exact`: Both, for every handle that an engine lends.
-/

namespace CyclePlan

/-- The operations of limited classes start within the horizons of their blocks, and no
    more of them in a cycle than the capacities allow. -/
structure View.StaysWithin (v : View Rat) (limits : Limits) (horizon : Nat → Nat)
    (y : String → Rat) : Prop where
  bounds : ∀ n ∈ v.nodes, (limits.capacityOf? n.kind).isSome = true →
    0 ≤ y (startVar n.name) ∧ y (startVar n.name) ≤ horizon n.block
  issues : v.IssuesWithin limits y

/-- The same, for start cycles by node. -/
theorem View.staysWithin_iff {v : View Rat} {limits : Limits} {horizon : Nat → Nat}
    {c : View.Node Rat → Int} {y : String → Rat} (hy : v.Times c y) :
    v.StaysWithin limits horizon y ↔
      (∀ n ∈ v.nodes, (limits.capacityOf? n.kind).isSome = true →
        0 ≤ c n ∧ c n ≤ horizon n.block) ∧
      ∀ block unit capacity, limits.capacity? unit = some capacity →
        ∀ cycle, v.issued c block unit cycle ≤ capacity := by
  have hbounds : ∀ n ∈ v.nodes, (0 ≤ y (startVar n.name) ∧ y (startVar n.name) ≤ horizon n.block) ↔
      0 ≤ c n ∧ c n ≤ horizon n.block := by
    intro n hn
    rw [hy n hn]
    norm_cast
  have hissues : v.IssuesWithin limits y ↔ ∀ block unit capacity,
      limits.capacity? unit = some capacity → ∀ cycle, v.issued c block unit cycle ≤ capacity := by
    simp only [IssuesWithin, issues_eq_issued hy]
  rw [← hissues]
  exact ⟨fun h => ⟨fun n hn hlimited => (hbounds n hn).mp (h.bounds n hn hlimited), h.issues⟩,
    fun h => ⟨fun n hn hlimited => (hbounds n hn).mpr (h.1 n hn hlimited), h.2⟩⟩

open Classical in
/-- The activations that go with start cycles. -/
noncomputable def activated (y : String → Rat) (name : String) : Rat :=
  if ∃ (node : String) (t : Nat), name = startsAtVar node t ∧ y (startVar node) = t then 1 else 0

theorem activated_startsAtVar (y : String → Rat) (node : String) (t : Nat) :
    activated y (startsAtVar node t) = if y (startVar node) = t then 1 else 0 := by
  have hname : (∃ (other : String) (u : Nat), startsAtVar node t = startsAtVar other u ∧
      y (startVar other) = u) ↔ y (startVar node) = t := by
    constructor
    · rintro ⟨other, u, heq, hstart⟩
      rcases startsAtVar_inj.mp heq with ⟨rfl, rfl⟩
      exact hstart
    · exact fun hstart => ⟨node, t, rfl, hstart⟩
  simp only [activated, hname]

section

variable {v : View Rat} {limits : Limits} {horizon : Nat → Nat} {m m' : Model Rat}
  {x s : Nat → Rat}

/-- In a point of the larger model, the limited operations start within their horizons,
    and their activations say so. -/
theorem startsWithin_of_isPoint
    (happ : m.Appends m' (v.formulationVars limits (v.blocks.map fun b => (b, horizon b)))
      (v.formulationRows limits (v.blocks.map fun b => (b, horizon b))))
    (hpoint : m'.IsPoint x) (hintegral : m'.IsIntegral x) :
    (∀ n ∈ v.nodes, (limits.capacityOf? n.kind).isSome = true →
        StartsWithin (horizon n.block) n.name (m'.valueOf x)) ∧
      v.IssuesWithin limits (m'.valueOf x) := by
  rcases (happ.isPoint_iff x).mp hpoint with ⟨_, hadmits, hrows⟩
  have hwhole := ((happ.isIntegral_iff x).mp hintegral).2
  refine View.formulation_iff.mp ⟨fun w hw => ⟨hadmits w hw, hwhole w hw ?_⟩, hrows⟩
  rcases View.mem_formulationVars_iff.mp hw with ⟨n, _, _, t, _, rfl⟩
  rfl

/-- An assignment can be continued exactly if it satisfies the model that was there and
    stays within horizons and capacities. -/
theorem exists_continuation_iff (hnumbered : m.IsNumbered)
    (hstarts : ∀ n ∈ v.nodes, startVariable n ∈ m.vars)
    (happ : m.Appends m' (v.formulationVars limits (v.blocks.map fun b => (b, horizon b)))
      (v.formulationRows limits (v.blocks.map fun b => (b, horizon b)))) (s : Nat → Rat) :
    (∃ x, (∀ i < m.vars.length, x i = s i) ∧ m'.IsPoint x ∧ m'.IsIntegral x) ↔
      m.IsPoint s ∧ m.IsIntegral s ∧ v.StaysWithin limits horizon (m.valueOf s) := by
  have hknown : ∀ n ∈ v.nodes, m.Knows (startVar n.name) := fun n hn => ⟨_, hstarts n hn, rfl⟩
  constructor
  · rintro ⟨x, hagree, hpoint, hintegral⟩
    -- The start cycles are the same whichever model they are read in.
    have hvalue : ∀ n ∈ v.nodes,
        m'.valueOf x (startVar n.name) = m.valueOf s (startVar n.name) := by
      intro n hn
      rw [Model.valueOf_of_isPrefix happ.isPrefix (hknown n hn)]
      exact Model.valueOf_congr hagree (hknown n hn)
    rcases startsWithin_of_isPoint happ hpoint hintegral with ⟨hwithin, hissues⟩
    refine ⟨(hnumbered.isPoint_congr hagree).mp ((happ.isPoint_iff x).mp hpoint).1,
      (Model.isIntegral_congr hagree).mp ((happ.isIntegral_iff x).mp hintegral).1,
      fun n hn hlimited => ?_, fun block unit capacity hcapacity cycle => ?_⟩
    · rw [← hvalue n hn]
      exact (hwithin n hn hlimited).bounds
    · rw [← View.issues_congr (fun n hn _ => hvalue n hn) cycle]
      exact hissues block unit capacity hcapacity cycle
  · rintro ⟨hpoint, hintegral, hwithin⟩
    let x := m.overlay m' s (activated (m.valueOf s))
    have hagree : ∀ i < m.vars.length, x i = s i := fun i hi => Model.overlay_of_lt _ _ _ hi
    have hvalue : ∀ n ∈ v.nodes,
        m'.valueOf x (startVar n.name) = m.valueOf s (startVar n.name) :=
      fun n hn => happ.valueOf_overlay_old (hknown n hn)
    have hall : (∀ w ∈ v.formulationVars limits (v.blocks.map fun b => (b, horizon b)),
          w.Admits (m'.valueOf x w.name) ∧ ∃ k : Int, m'.valueOf x w.name = k) ∧
        ∀ r ∈ v.formulationRows limits (v.blocks.map fun b => (b, horizon b)),
          r.Holds (m'.valueOf x) := by
      refine View.formulation_iff.mpr ⟨fun n hn hlimited => ⟨?_, fun t ht => ?_⟩, ?_⟩
      · -- The start cycle is whole and within its bounds.
        rcases (m.isIntegral_iff s).mp hintegral _ (hstarts n hn) rfl with ⟨k, hk⟩
        change m.valueOf s (startVar n.name) = k at hk
        rcases hwithin.bounds n hn hlimited with ⟨hlower, hupper⟩
        rw [hk] at hlower hupper
        have hsign : 0 ≤ k := by exact_mod_cast hlower
        have htop : k ≤ horizon n.block := by exact_mod_cast hupper
        refine ⟨k.toNat, by omega, ?_⟩
        rw [hvalue n hn, hk, ← Int.cast_natCast, Int.toNat_of_nonneg hsign]
      · have hmem : activation n.name t ∈
            v.formulationVars limits (v.blocks.map fun b => (b, horizon b)) :=
          View.mem_formulationVars_iff.mpr ⟨n, hn, hlimited, t, ht, rfl⟩
        have hnew := happ.valueOf_overlay_new (s := s) (y := activated (m.valueOf s)) hmem
        simp only [hvalue n hn]
        exact hnew.trans (activated_startsAtVar _ _ _)
      · intro block unit capacity hcapacity cycle
        rw [View.issues_congr (fun n hn _ => hvalue n hn) cycle]
        exact hwithin.issues block unit capacity hcapacity cycle
    refine ⟨x, hagree, (happ.isPoint_iff x).mpr ⟨?_, fun w hw => (hall.1 w hw).1, hall.2⟩,
      (happ.isIntegral_iff x).mpr ⟨?_, fun w hw _ => (hall.1 w hw).2⟩⟩
    · exact (hnumbered.isPoint_congr hagree).mpr hpoint
    · exact (Model.isIntegral_congr hagree).mpr hintegral

/-- Points of the larger model that agree on what was there agree. -/
theorem continuation_unique
    (happ : m.Appends m' (v.formulationVars limits (v.blocks.map fun b => (b, horizon b)))
      (v.formulationRows limits (v.blocks.map fun b => (b, horizon b))))
    (hknown : ∀ n ∈ v.nodes, m.Knows (startVar n.name))
    (hx : m'.IsPoint x ∧ m'.IsIntegral x) (hs : m'.IsPoint s ∧ m'.IsIntegral s)
    (hagree : ∀ i < m.vars.length, x i = s i) : ∀ i < m'.vars.length, x i = s i := by
  intro i hi
  by_cases hold : i < m.vars.length
  · exact hagree i hold
  · rcases hat : m'.vars[i]? with _ | w
    · exact absurd hi (Nat.not_lt.mpr (List.getElem?_eq_none_iff.mp hat))
    have hmem : w ∈ v.formulationVars limits (v.blocks.map fun b => (b, horizon b)) := by
      have hright := hat
      rw [happ.vars, List.getElem?_append_right (Nat.not_lt.mp hold)] at hright
      exact List.mem_of_getElem? hright
    rcases View.mem_formulationVars_iff.mp hmem with ⟨n, hn, hlimited, t, ht, rfl⟩
    have hindex := m'.indexOf_of_getElem? hat
    -- Both activations are decided by the same start cycle.
    have hdecided : ∀ {z : Nat → Rat}, m'.IsPoint z ∧ m'.IsIntegral z →
        z i = if m.valueOf z (startVar n.name) = t then 1 else 0 := by
      intro z hz
      have hactive := ((startsWithin_of_isPoint happ hz.1 hz.2).1 n hn hlimited).active t ht
      rw [Model.valueOf_of_isPrefix happ.isPrefix (hknown n hn), Model.valueOf] at hactive
      rw [← hindex]
      exact hactive
    rw [hdecided hx, hdecided hs, Model.valueOf_congr hagree (hknown n hn)]

end

namespace Discipline

variable {t : Discipline} {v : View Rat} {sameBlockOnly : Bool} {m : Model Rat}

theorem head?_ne_of_mem_auxiliaries {w : Variable Rat} (hw : w ∈ t.auxiliaries v) :
    w.name.toList.head? ≠ some 'x' := by
  cases t with
  | asap => exact absurd hw List.not_mem_nil
  | alap _ => exact absurd hw List.not_mem_nil
  | noPipeline =>
      rw [List.mem_singleton.mp hw]
      decide
  | pipelined target =>
      cases target with
      | fixed _ =>
          rw [List.mem_singleton.mp hw]
          decide
      | perBlock =>
          rcases List.mem_cons.mp hw with rfl | hw
          · decide
          · rcases List.mem_map.mp hw with ⟨b, _, rfl⟩
            change ("II_" ++ toString b).toList.head? ≠ some 'x'
            rw [String.toList_append]
            intro h
            cases h

/-- No timing model has a variable that is called like an activation. -/
theorem not_knows_startsAtVar (hm : m.Renders (t.program v sameBlockOnly)) (node : String)
    (cycle : Nat) : ¬ m.Knows (startsAtVar node cycle) := by
  rintro ⟨w, hw, hname⟩
  rw [hm.vars] at hw
  rcases List.mem_append.mp hw with hw | hw
  · rcases List.mem_map.mp hw with ⟨n, _, rfl⟩
    exact startVar_ne_startsAtVar n.name node cycle hname
  · refine head?_ne_of_mem_auxiliaries hw ?_
    rw [hname, toList_startsAtVar]
    rfl

end Discipline

namespace Engine

variable {discipline : Discipline} {solver : Solver Rat} {sameBlockOnly : Bool} {e : Engine Rat}
  {h h' : Handle Rat} {limits : Limits} {explicit : Option Int} {ids : List Nat}

/-- The start cycles of a view are variables of every model that an engine lends. -/
theorem startVariable_mem_of_reaches
    (hrun : Reaches Model.Edits (fresh discipline solver sameBlockOnly) e)
    (hview : e.view = some h.view) (hmodel : e.model.Edits h.model) :
    ∀ n ∈ h.view.nodes, startVariable n ∈ h.model.vars := by
  have hground := Reaches.grounded (hrun.mono fun _ _ hedits => hedits.keeps)
  exact fun n hn => hmodel.keeps.subset ((hground.2 h.view hview).starts n hn)

/-- On every handle that an engine lends, the formulation by cycle loses nothing within
    its horizons and lets nothing through beyond the capacities. -/
theorem addTimeIndexed_exact
    (hrun : Reaches Model.Edits (fresh discipline solver sameBlockOnly) e)
    (hview : e.view = some h.view) (hmodel : e.model.Edits h.model)
    (hadd : perform (addResources limits (.timeIndexed explicit)) h = (.ok ids, h')) :
    ∃ horizon : Nat → Nat,
      blockHorizons h limits explicit = .ok (h.view.blocks.map fun b => (b, horizon b)) ∧
      (∀ s, (∃ x, (∀ i < h.model.vars.length, x i = s i) ∧ h'.model.IsPoint x ∧
          h'.model.IsIntegral x) ↔
        h.model.IsPoint s ∧ h.model.IsIntegral s ∧
          h.view.StaysWithin limits horizon (h.model.valueOf s)) ∧
      ∀ x x', h'.model.IsPoint x ∧ h'.model.IsIntegral x →
        h'.model.IsPoint x' ∧ h'.model.IsIntegral x' →
        (∀ i < h.model.vars.length, x i = x' i) → ∀ i < h'.model.vars.length, x i = x' i := by
  rcases perform_addTimeIndexed_ok hadd with ⟨hs, hhorizons, _, happ⟩
  rcases exists_blockHorizons hhorizons with ⟨horizon, rfl⟩
  have hstarts := startVariable_mem_of_reaches hrun hview hmodel
  exact ⟨horizon, hhorizons, exists_continuation_iff (hrun.numbered.edits hmodel) hstarts happ,
    fun x x' => continuation_unique happ fun n hn => ⟨_, hstarts n hn, rfl⟩⟩

end Engine

namespace View

/-- Start cycles of the trailing multiplication, by that of the second addition. -/
def trailingCycle (second : Int) (n : Node Rat) : Int :=
  if n.name = "a2" then second
  else if n.name = "m" then second + 1
  else if n.name = "ssink_0" then second + 4
  else 0

/-- If the additions take turns, no two operations of one class start in the same cycle. -/
theorem issued_trailingCycle_le {block capacity : Nat} {unit : String}
    (hcapacity : Limits.oneEach.capacity? unit = some capacity) (cycle : Int) :
    trailing.issued (trailingCycle 1) block unit cycle ≤ capacity := by
  have hentries : Limits.oneEach.capacities.entries = [("add", 1), ("mul", 1)] := by decide
  have hentry := NameMap.get?_eq_some_iff.mp hcapacity
  simp only [hentries, List.mem_cons, List.not_mem_nil, or_false, Prod.mk.injEq] at hentry
  have hcount : ∀ p : Node Rat → Bool, (∀ n, trailingCycle 1 n = cycle → p n = true) →
      trailing.issued (trailingCycle 1) block unit cycle ≤
        trailing.nodes.countP fun n => n.kind.unit? == some unit && p n := by
    refine fun p hp => List.countP_mono_left fun n _ h => ?_
    simp only [Bool.and_eq_true, beq_iff_eq] at h ⊢
    exact ⟨h.1.2, hp n h.2⟩
  rcases hentry with ⟨rfl, rfl⟩ | ⟨rfl, rfl⟩
  · -- One of the additions starts in the first cycle, and the other one does not.
    by_cases hfirst : cycle = 0
    · refine (hcount (fun n => trailingCycle 1 n == 0) fun n h => ?_).trans (by decide)
      rw [h, hfirst, beq_self_eq_true]
    · refine (hcount (fun n => trailingCycle 1 n != 0) fun n h => ?_).trans (by decide)
      rw [h, bne_iff_ne]
      exact hfirst
  · exact (hcount (fun _ => true) fun _ _ => rfl).trans (by decide)

/-- In the first three cycles, one adder is enough exactly if the additions take turns. -/
theorem trailing_staysWithin_iff {horizon : Nat → Nat} (hhorizon : horizon 0 = 2) {second : Int}
    {y : String → Rat} (hy : trailing.Times (trailingCycle second) y) :
    trailing.StaysWithin .oneEach horizon y ↔ second = 1 := by
  rw [staysWithin_iff hy]
  constructor
  · rintro ⟨hbounds, hissued⟩
    have hlower : 0 ≤ second :=
      (hbounds ⟨1, "a2", .add, 0, 1⟩ (.tail _ (.head _)) (by decide)).1
    have hupper : second + 1 ≤ horizon 0 :=
      (hbounds ⟨2, "m", .mul, 0, 3⟩ (.tail _ (.tail _ (.head _))) (by decide)).2
    by_contra hother
    obtain rfl : second = 0 := by omega
    have hfull := hissued 0 "add" 1 (by decide) 0
    exact absurd hfull (by decide +kernel)
  · rintro rfl
    refine ⟨fun n hn hlimited => ?_, fun _ _ _ hcapacity => issued_trailingCycle_le hcapacity⟩
    have hblocks : ∀ n ∈ trailing.nodes, n.block = 0 := by decide
    have hbounds : ∀ n ∈ trailing.nodes, (Limits.oneEach.capacityOf? n.kind).isSome = true →
        0 ≤ trailingCycle 1 n ∧ trailingCycle 1 n ≤ 2 := by
      decide +kernel
    rw [hblocks n hn, hhorizon]
    exact hbounds n hn hlimited

end View

namespace Engine

/-- Both additions may start at once, and this is what the formulation rules out for the one
    adder. -/
theorem addTimeIndexed_exact_trailing :
    ∃ (e : Engine Rat) (h h' : Handle Rat) (ids : List Nat) (horizon : Nat → Nat),
      Reaches Model.Edits (fresh .asap oracle true) e ∧ e.view = some h.view ∧
      e.model.Edits h.model ∧
      perform (addResources .oneEach (.timeIndexed (some 2))) h = (.ok ids, h') ∧
      blockHorizons h .oneEach (some 2) = .ok (h.view.blocks.map fun b => (b, horizon b)) ∧
      (∀ s, (∃ x, (∀ i < h.model.vars.length, x i = s i) ∧ h'.model.IsPoint x ∧
          h'.model.IsIntegral x) ↔
        h.model.IsPoint s ∧ h.model.IsIntegral s ∧
          h.view.StaysWithin .oneEach horizon (h.model.valueOf s)) ∧
      (∀ x x', h'.model.IsPoint x ∧ h'.model.IsIntegral x →
        h'.model.IsPoint x' ∧ h'.model.IsIntegral x' →
        (∀ i < h.model.vars.length, x i = x' i) → ∀ i < h'.model.vars.length, x i = x' i) ∧
      (∃ s, h.model.IsPoint s ∧ h.model.IsIntegral s ∧
        ¬ ∃ x, (∀ i < h.model.vars.length, x i = s i) ∧ h'.model.IsPoint x ∧
          h'.model.IsIntegral x) ∧
      ∃ x, h'.model.IsPoint x ∧ h'.model.IsIntegral x := by
  have hfit := Graph.fit_of_defects Graph.trailing_defects
  have hnames := hfit.node_names_nodup View.ofGraph_trailing
  rcases exists_load .asap oracle true Graph.trailing_defects with ⟨e₁, hload⟩
  rcases exists_build_asap hload with ⟨e₂, hbuild⟩
  rcases build_renders hload hbuild with ⟨v, m, hgraph, hm, rfl⟩
  cases View.ofGraph_trailing.symm.trans hgraph
  have hreach := reaches_built Model.Edits hload hbuild
  let h : Handle Rat := (builtWith .asap oracle true View.trailing m).handle View.trailing
  have hstarts := Discipline.startVariable_mem_of_renders hm
  have hknown : ∀ n ∈ View.trailing.nodes, m.Knows (startVar n.name) :=
    fun n hn => ⟨_, hstarts n hn, rfl⟩
  have hhorizons : blockHorizons h .oneEach (some 2) = .ok (h.view.blocks.map fun b => (b, 2)) :=
    blockHorizons_of_ok (fun _ => 2) fun _ _ => rfl
  rcases exists_addTimeIndexed (h := h) hnames hknown (Discipline.not_knows_startsAtVar hm)
    hhorizons with ⟨ids, h', hadd⟩
  rcases addTimeIndexed_exact (h := h) hreach rfl (Model.Edits.refl m) hadd with
    ⟨horizon, hfound, hexact, hunique⟩
  have hhorizon : horizon 0 = 2 := by
    have hsame := Except.ok.inj (hfound.symm.trans hhorizons)
    have hblock : 0 ∈ h.view.blocks := View.mem_blocks_iff.mpr ⟨_, List.mem_cons_self, rfl⟩
    exact congrArg Prod.snd (List.map_inj_left.mp hsame 0 hblock)
  -- Whether the second addition waits for the first one or not, dependencies are kept to.
  have hpoint : ∀ second : Int, second = 0 ∨ second = 1 → ∃ s, m.IsPoint s ∧ m.IsIntegral s ∧
      (View.trailing.StaysWithin .oneEach horizon (m.valueOf s) ↔ second = 1) := by
    intro second hsecond
    rcases View.exists_times hnames (View.trailingCycle second) 0 with ⟨y, hy, _⟩
    have hmeets : (∀ n ∈ View.trailing.nodes, 0 ≤ View.trailingCycle second n) ∧
        Arc.Meets (View.lag 0) (View.trailingCycle second) (View.trailing.forwardArcs true) := by
      unfold Arc.Meets
      rcases hsecond with rfl | rfl <;> decide +kernel
    rcases hm.assign_isPoint ((Discipline.asap_isSolution_iff_meets hy).mpr hmeets) with
      ⟨hpoint, hintegral⟩
    refine ⟨_, hpoint, hintegral, View.trailing_staysWithin_iff hhorizon fun n hn => ?_⟩
    rw [m.valueOf_assign y (hknown n hn), hy n hn]
  rcases hpoint 0 (.inl rfl) with ⟨s, hs, hsint, hwithin⟩
  rcases hpoint 1 (.inr rfl) with ⟨s', hs', hsint', hwithin'⟩
  rcases (hexact s').mpr ⟨hs', hsint', hwithin'.mpr rfl⟩ with ⟨x, _, hx⟩
  exact ⟨_, h, h', ids, horizon, hreach, rfl, Model.Edits.refl m, hadd, hfound, hexact, hunique,
    ⟨s, hs, hsint, fun hmore => absurd (hwithin.mp ((hexact s).mp hmore).2.2) (by decide)⟩, x, hx⟩

end Engine

end CyclePlan
