import CyclePlan.Proofs.Engine.Solved
import CyclePlan.Proofs.Lp.Oracle
import CyclePlan.Proofs.Schedule.Check

/-!
# Soundness of Timing Models

A schedule that comes out of a model passes the check on the graph.

The model is made from a view and the check walks the edges of the graph, so the
two have to be brought together edge by edge. An edge counts for the check only
if both of its ends have a start cycle, and only kept operations have one. A
forward edge between kept operations is a forward pair, and a back-edge is a back
pair. What is left is a row of the model, unless the pair was left out because it
joins two blocks; that is the only thing the check can find.

A back-edge is checked against the interval that the engine reports. Every
discipline with overlap has a row that bounds it by that interval, be it the
shared one or the greatest of several. Without overlap the engine must not report
an interval, and here soundness of the solver is not enough: a value under the
interval's name is reported even if no variable has that name
(`exists_phantom_interval`). A solver that keeps to the variables gives none. The
same goes for the shared name where intervals are kept per block.

## Theorems

* `reported_forward`, `reported_back`: What the check can find about an edge.
* `solved_schedule_checks`: What the check finds about the schedule of a solved
  engine.
* `exists_phantom_interval`: A sound solver whose schedule fails the check.
-/

namespace CyclePlan

namespace Schedule

variable {s : Schedule Rat} {g : Graph Rat} {v : View Rat} {y : String → Rat}
  {sameBlockOnly : Bool} {source target : Nat} {a b : Operation Rat} {w : Violation}

/-- An operation with a start cycle has become a node of the view. -/
theorem Realizes.nodeOf_mem (h : s.Realizes v y) (hfit : g.Fit) (hview : View.ofGraph g = .ok v)
    (ha : g.node? source = some a) {c : Int} (hc : s.cycle? a.name = some c) :
    View.nodeOf source a ∈ v.nodes ∧ y (startVar a.name) = c ∧ a.kind.isStripped = false := by
  rcases (h.cycle_iff a.name c).mp hc with ⟨⟨n, hn, hname⟩, hvalue⟩
  rcases hfit.eq_nodeOf hview ha hn hname with ⟨rfl, hkept⟩
  exact ⟨hn, hvalue, hkept⟩

/-- A forward edge is found only if it was left out of the model. -/
theorem reported_forward (hfit : g.Fit) (hview : View.ofGraph g = .ok v) (h : s.Realizes v y)
    (hrows : ∀ p ∈ v.emitted sameBlockOnly, (Row.dependency p).Holds y)
    (hedge : ⟨source, target, false⟩ ∈ g.edges) (ha : g.node? source = some a)
    (hb : g.node? target = some b) (hw : s.reported? false a b = some w) :
    sameBlockOnly = true ∧ a.block ≠ b.block ∧ a.kind.isSuper = false ∧
      b.kind.isSuper = false := by
  rcases reported?_eq_some_iff.mp hw with ⟨slack, hslack, hneg, _⟩
  rcases slack?_forward_iff.mp hslack with ⟨ca, cb, hca, hcb, rfl⟩
  rcases h.nodeOf_mem hfit hview ha hca with ⟨hna, hya, _⟩
  rcases h.nodeOf_mem hfit hview hb hcb with ⟨hnb, hyb, _⟩
  have hkept : target ∈ g.keptIds := (View.mem_keptIds_iff hview).mpr ⟨_, hnb, rfl⟩
  have hpair : (View.nodeOf source a, View.nodeOf target b) ∈ v.forwardPairs :=
    (View.mem_forwardPairs_iff hview).mpr
      ⟨hna, hnb, g.mem_keptSuccessors_of_edge hedge hkept⟩
  cases hemit : Engine.isEmitted sameBlockOnly (View.nodeOf source a, View.nodeOf target b) with
  | true =>
      -- The row of the pair leaves nothing lacking.
      have hrow := Row.dependency_holds_iff.mp (hrows _ (List.mem_filter.mpr ⟨hpair, hemit⟩))
      change y (startVar a.name) + a.latency ≤ y (startVar b.name) at hrow
      rw [hya, hyb] at hrow
      linarith
  | false =>
      simp only [Engine.isEmitted, Bool.or_eq_false_iff, Bool.not_eq_false'] at hemit
      rcases hemit with ⟨⟨⟨hsame, hblock⟩, hsource⟩, htarget⟩
      exact ⟨hsame, beq_eq_false_iff_ne.mp hblock, hsource, htarget⟩

/-- A back-edge is never found if every back pair has the interval to spare. -/
theorem reported_back (hfit : g.Fit) (hview : View.ofGraph g = .ok v) (h : s.Realizes v y)
    (hrows : ∀ interval : Int, s.interval = some interval → ∀ p ∈ v.backPairs,
      y (startVar p.1.name) + p.1.latency ≤ y (startVar p.2.name) + interval)
    (hedge : ⟨source, target, true⟩ ∈ g.edges) (ha : g.node? source = some a)
    (hb : g.node? target = some b) : s.reported? true a b ≠ some w := by
  intro hw
  rcases reported?_eq_some_iff.mp hw with ⟨slack, hslack, hneg, _⟩
  rcases slack?_back_iff.mp hslack with ⟨ca, cb, interval, hca, hcb, hinterval, rfl⟩
  rcases h.nodeOf_mem hfit hview ha hca with ⟨hna, hya, _⟩
  rcases h.nodeOf_mem hfit hview hb hcb with ⟨hnb, hyb, _⟩
  have hrow := hrows interval hinterval (View.nodeOf source a, View.nodeOf target b)
    ((View.mem_backPairs_iff hview).mpr ⟨hna, hnb, hedge⟩)
  change y (startVar a.name) + a.latency ≤ y (startVar b.name) + interval at hrow
  rw [hya, hyb] at hrow
  linarith

/-- If no forward pair was left out either, then nothing is found. -/
theorem Realizes.checkDependencies_eq_nil (hfit : g.Fit) (hview : View.ofGraph g = .ok v)
    (h : s.Realizes v y) (hforward : ∀ p ∈ v.emitted false, (Row.dependency p).Holds y)
    (hback : ∀ interval : Int, s.interval = some interval → ∀ p ∈ v.backPairs,
      y (startVar p.1.name) + p.1.latency ≤ y (startVar p.2.name) + interval) :
    s.checkDependencies g = .ok [] := by
  rcases exists_checkDependencies s hfit.joined with ⟨vs, hvs, hmem⟩
  have hnone : vs = [] := by
    rw [List.eq_nil_iff_forall_not_mem]
    intro w hw
    rcases (hmem w).mp hw with ⟨⟨source, target, back⟩, hedge, a, b, ha, hb, hreported⟩
    cases back with
    | false => cases (reported_forward hfit hview h hforward hedge ha hb hreported).1
    | true => exact reported_back hfit hview h hback hedge ha hb hreported
  rw [hvs, hnone]

/-- A forward edge between two blocks, supernodes apart, accounts for a
    violation. -/
def IsCrossBlock (s : Schedule Rat) (g : Graph Rat) (w : Violation) : Prop :=
  ∃ e ∈ g.edges, e.backEdge = false ∧ ∃ a b slack, g.node? e.source = some a ∧
    g.node? e.target = some b ∧ a.block ≠ b.block ∧ a.kind.isSuper = false ∧
    b.kind.isSuper = false ∧ s.slack? false a b = some slack ∧
    w = dependencyViolation false a b slack

/-- Every back-edge between kept operations holds at an interval. -/
def HoldsAcross (s : Schedule Rat) (g : Graph Rat) (interval : Int) : Prop :=
  ∀ e ∈ g.edges, e.backEdge = true → ∀ a b, g.node? e.source = some a →
    g.node? e.target = some b → a.kind.isStripped = false → b.kind.isStripped = false →
    ∃ ca cb : Int, s.cycle? a.name = some ca ∧ s.cycle? b.name = some cb ∧
      (ca : Rat) + a.latency ≤ cb + interval

/-- Back pairs that hold at an interval are back-edges that hold at it. -/
theorem Realizes.holdsAcross (h : s.Realizes v y) (hview : View.ofGraph g = .ok v)
    {interval : Int}
    (hrows : ∀ p ∈ v.backPairs,
      y (startVar p.1.name) + p.1.latency ≤ y (startVar p.2.name) + interval) :
    s.HoldsAcross g interval := by
  rintro ⟨source, target, back⟩ hedge rfl a b ha hb hkepta hkeptb
  have hna := View.nodeOf_mem_nodes hview ha hkepta
  have hnb := View.nodeOf_mem_nodes hview hb hkeptb
  rcases h.cycle? hna with ⟨ca, hca, hya⟩
  rcases h.cycle? hnb with ⟨cb, hcb, hyb⟩
  have hrow := hrows _ ((View.mem_backPairs_iff hview).mpr ⟨hna, hnb, hedge⟩)
  rw [hya, hyb] at hrow
  exact ⟨ca, cb, hca, hcb, hrow⟩

end Schedule

namespace Engine

variable {t : Discipline} {solver : Solver Rat} {sameBlockOnly : Bool} {g : Graph Rat}
  {v : View Rat} {m : Model Rat} {x : Nat → Rat} {e₁ e₂ e₃ e₄ : Engine Rat} {outcome : Outcome}

/-- The reported interval is one that every back pair has to spare, and with
    overlap there is one. -/
theorem achievedInterval?_holds
    (hkeeps : (∀ interval, t ≠ .pipelined (.fixed interval)) → solver.KeepsToVariables)
    (hm : m.Renders (t.program v sameBlockOnly))
    (hrun : Reaches Model.Adds (builtWith t solver sameBlockOnly v m) e₃)
    (hsolve : perform solve e₃ = (.ok outcome, e₄)) (hassign : outcome.hasAssignment = true)
    (hcarries : (solver e₃.asked e₃.model).Carries e₃.model x)
    (hintegral : e₃.model.IsIntegral x)
    (hy : (t.program v sameBlockOnly).IsSolution (m.valueOf x)) :
    (∀ interval : Int, e₄.achievedInterval? = some interval → ∀ p ∈ v.backPairs,
      m.valueOf x (startVar p.1.name) + p.1.latency ≤
        m.valueOf x (startVar p.2.name) + interval) ∧
    (t.isPipelined = true → ∃ interval, e₄.achievedInterval? = some interval) := by
  cases ht : t.isPipelined with
  | false =>
      -- Without overlap nothing is reported.
      have hother : ∀ interval, t ≠ .pipelined (.fixed interval) := by
        rintro interval rfl
        cases ht
      rw [achievedInterval?_plain ht (hkeeps hother) hm hrun hsolve hassign]
      exact ⟨fun _ h => (nomatch h), fun h => (nomatch h)⟩
  | true =>
      rcases t with _ | _ | _ | target <;> cases ht
      have hunread : target = .perBlock →
          (solver e₃.asked e₃.model).value? intervalVar = none := by
        rintro rfl
        have hother : ∀ interval, Discipline.pipelined .perBlock ≠ .pipelined (.fixed interval) :=
          fun k hk => by cases hk
        exact shared_unread (hkeeps hother) hm hrun hother
      rcases achievedInterval?_pipelined hm hrun hsolve hassign hcarries hintegral hunread with
        ⟨found, hfound, hvalue⟩
      refine ⟨fun interval hsome p hp => ?_, fun _ => ⟨found, hfound⟩⟩
      cases hfound.symm.trans hsome
      have hrow := Discipline.backPair_holds hy hp
      rwa [hvalue] at hrow

/-- A schedule with an assignment passes the check of the graph, whatever was
    added to the model in between. If dependencies between blocks were left out,
    they are all that the check finds. With overlap, every back-edge holds at the
    reported interval. Only a shared interval is safe from values under the names
    of intervals that the model does not have. -/
theorem solved_schedule_checks (hsound : solver.Sound)
    (hkeeps : (∀ interval, t ≠ .pipelined (.fixed interval)) → solver.KeepsToVariables)
    (hload : perform (load g) (fresh t solver sameBlockOnly) = (.ok ⟨⟩, e₁))
    (hbuild : perform build e₁ = (.ok ⟨⟩, e₂)) (hmore : Reaches Model.Adds e₂ e₃)
    (hsolve : perform solve e₃ = (.ok outcome, e₄)) (hassign : outcome.hasAssignment = true) :
    ∃ s vs, e₄.schedule = .ok s ∧ s.outcome = outcome ∧ s.checkDependencies g = .ok vs ∧
      (sameBlockOnly = false → vs = []) ∧ (∀ w ∈ vs, s.IsCrossBlock g w) ∧
      (t.isPipelined = true → ∃ interval, s.interval = some interval ∧
        s.HoldsAcross g interval) := by
  have hfit := Graph.fit_of_defects (load_ok_iff.mp hload).1
  rcases build_renders hload hbuild with ⟨v, m, hview, hm, rfl⟩
  rcases continues_of_reaches hmore with ⟨_, hsolver, hadds⟩
  -- The solution is a point of the larger model, hence of the program.
  have hstatus : (solver e₃.asked e₃.model).status.hasAssignment = true := by
    rw [← hasAssignment_outcomeOf, ← hsolver, ← (perform_solve_ok_iff.mp hsolve).2.1]
    exact hassign
  rcases hsound e₃.asked e₃.model hstatus with ⟨x, hcarries, hpoint, hintegral⟩
  have hy : (t.program v sameBlockOnly).IsSolution (m.valueOf x) :=
    (hm.isSolution_iff x).mp ⟨hadds.isPoint hpoint, hadds.isIntegral hintegral⟩
  rcases solved_realizes (hfit.node_names_nodup hview) hm hmore hsolve hassign hcarries
    hintegral with ⟨s, hschedule, hout, hinterval, hreal⟩
  rcases achievedInterval?_holds hkeeps hm hmore hsolve hassign hcarries hintegral hy with
    ⟨hback, hsome⟩
  rw [← hinterval] at hback hsome
  rcases Schedule.exists_checkDependencies s hfit.joined with ⟨vs, hvs, hmem⟩
  -- Whatever the check finds, it finds about a forward edge that was left out.
  have hfound : ∀ w ∈ vs, sameBlockOnly = true ∧ s.IsCrossBlock g w := by
    intro w hw
    rcases (hmem w).mp hw with ⟨⟨source, target, back⟩, hedge, a, b, ha, hb, hreported⟩
    cases back with
    | false =>
        rcases Schedule.reported_forward hfit hview hreal
          (fun p hp => hy.meets _ (Discipline.dependency_mem hp)) hedge ha hb hreported with
          ⟨hsame, hblock, hsource, htarget⟩
        rcases Schedule.reported?_eq_some_iff.mp hreported with ⟨slack, hslack, _, hw⟩
        exact ⟨hsame, _, hedge, rfl, a, b, slack, ha, hb, hblock, hsource, htarget, hslack, hw⟩
    | true =>
        exact absurd hreported (Schedule.reported_back hfit hview hreal hback hedge ha hb)
  refine ⟨s, vs, hschedule, hout, hvs, fun hsame => ?_, fun w hw => (hfound w hw).2, ?_⟩
  · rw [List.eq_nil_iff_forall_not_mem]
    intro w hw
    rw [hsame] at hfound
    cases (hfound w hw).1
  · intro hpipelined
    rcases hsome hpipelined with ⟨interval, hinterval⟩
    exact ⟨interval, hinterval, hreal.holdsAcross hview (hback interval hinterval)⟩

/-! ### The smallest loop -/

/-- Values for the smallest loop: everything starts at once, and an iteration
    every cycle. -/
def restingValues (name : String) : Rat := if name = intervalVar then 1 else 0

theorem restingValues_start (node : String) : restingValues (startVar node) = 0 :=
  if_neg (startVar_ne_intervalVar node)

theorem selfLoop_latency (hview : View.ofGraph Graph.selfLoop = .ok v) :
    ∀ n ∈ v.nodes, n.latency = 0 := by
  intro n hn
  rcases (View.mem_nodes_iff hview).mp hn with ⟨op, hop, _, heq⟩
  have hall : ∀ op ∈ Graph.selfLoop.ops, op.latency = 0 := by decide
  rw [heq]
  exact hall op (List.mem_of_getElem? hop)

/-- Resting keeps to the forward dependencies of the smallest loop. -/
theorem selfLoop_startsHold (sameBlockOnly : Bool) (hview : View.ofGraph Graph.selfLoop = .ok v) :
    Discipline.StartsHold v sameBlockOnly restingValues := by
  refine ⟨fun n _ => ?_, fun n _ => ⟨0, ?_⟩, fun p hp => ?_⟩
  · rw [restingValues_start]
  · rw [restingValues_start, Int.cast_zero]
  · have hmem := View.mem_nodes_of_forwardPairs (List.mem_of_mem_filter hp)
    rw [restingValues_start, restingValues_start, selfLoop_latency hview _ hmem.1, add_zero]

/-- A solver that finds integral points finds one for a program with a
    solution. -/
theorem exists_solve (solver : Solver Rat)
    (hfinds : ∀ asked m', (∃ x, m'.IsPoint x ∧ m'.IsIntegral x) →
      (solver asked m').status.hasAssignment = true)
    (hm : m.Renders (t.program v sameBlockOnly)) {y : String → Rat}
    (hy : (t.program v sameBlockOnly).IsSolution y) :
    ∃ outcome e', perform solve (builtWith t solver sameBlockOnly v m) = (.ok outcome, e') ∧
      outcome.hasAssignment = true := by
  refine ⟨_, _, perform_solve_ok_iff.mpr ⟨builtWith_settled, rfl, rfl⟩, ?_⟩
  rw [hasAssignment_outcomeOf]
  exact hfinds 0 m (hm.feasible_iff.mpr ⟨y, hy⟩)

/-- An operation scheduled with overlap passes on its value to itself. -/
theorem solved_schedule_checks_selfLoop :
    ∃ e₁ e₂ e₄ outcome, oracle.Sound ∧ oracle.KeepsToVariables ∧
      perform (load Graph.selfLoop) (fresh (.pipelined (.fixed 1)) oracle false) = (.ok ⟨⟩, e₁) ∧
      perform build e₁ = (.ok ⟨⟩, e₂) ∧ Reaches Model.Adds e₂ e₂ ∧
      perform solve e₂ = (.ok outcome, e₄) ∧ outcome.hasAssignment = true ∧
      ∃ s vs, e₄.schedule = .ok s ∧ s.outcome = outcome ∧
        s.checkDependencies Graph.selfLoop = .ok vs ∧ (false = false → vs = []) ∧
        (∀ w ∈ vs, s.IsCrossBlock Graph.selfLoop w) ∧
        ((Discipline.pipelined (.fixed 1)).isPipelined = true → ∃ interval,
          s.interval = some interval ∧ s.HoldsAcross Graph.selfLoop interval) := by
  rcases exists_load (.pipelined (.fixed 1)) oracle false Graph.selfLoop_defects with ⟨e₁, hload⟩
  rcases exists_build_fixed (le_refl 1) hload with ⟨e₂, hbuild⟩
  rcases build_renders hload hbuild with ⟨v, m, hview, hm, rfl⟩
  have hback : ∀ p ∈ v.backPairs, restingValues (startVar p.1.name) + p.1.latency ≤
      restingValues (startVar p.2.name) + (1 : Int) := by
    intro p hp
    rw [restingValues_start, restingValues_start,
      selfLoop_latency hview _ (View.mem_nodes_of_backPairs hp).1]
    norm_num
  have hy := (Discipline.fixed_isSolution_iff (le_refl 1)).mpr
    ⟨selfLoop_startsHold false hview, if_pos rfl, hback⟩
  rcases exists_solve oracle (fun asked m' h => oracle_hasAssignment h asked) hm hy with
    ⟨outcome, e₄, hsolve, hassign⟩
  exact ⟨e₁, _, e₄, outcome, oracle_sound, oracle_keepsToVariables, hload, hbuild, .start, hsolve,
    hassign, solved_schedule_checks oracle_sound (fun _ => oracle_keepsToVariables) hload hbuild
      .start hsolve hassign⟩

/-- A value that is added under the shared name is what the solver is read as, if
    no variable has that name. -/
theorem int?_withExtra (hkeeps : solver.KeepsToVariables)
    (hnone : ∀ w ∈ m.vars, w.name ≠ intervalVar) (asked : Nat) (k : Int) :
    ((solver.withExtra [(intervalVar, (k : Rat))]) asked m).int? intervalVar = some k := by
  have hunread : NameMap.find? intervalVar (solver asked m).values = none := by
    by_contra hvalue
    rcases hkeeps asked m intervalVar (Option.isSome_iff_ne_none.mpr hvalue) with ⟨w, hw, hname⟩
    exact hnone w hw hname
  have hvalue : ((solver.withExtra [(intervalVar, (k : Rat))]) asked m).value? intervalVar
      = some (k : Rat) := by
    rw [Solution.value?, Solver.withExtra, find?_append, hunread]
    rfl
  rw [Solution.int?, hvalue, Option.map_some, Scalar.roundInt_intCast]

/-- Soundness alone is not enough: a sound solver may give a value under the name
    of an interval that the model does not have, and the check finds a back-edge
    that lacks that interval. -/
theorem exists_phantom_interval :
    (oracle.withExtra [(intervalVar, -1)]).Sound ∧ ∃ e₁ e₂ e₃ outcome s vs,
      perform (load Graph.selfLoop) (fresh .asap (oracle.withExtra [(intervalVar, -1)]) false)
        = (.ok ⟨⟩, e₁) ∧
      perform build e₁ = (.ok ⟨⟩, e₂) ∧ perform solve e₂ = (.ok outcome, e₃) ∧
      outcome.hasAssignment = true ∧ e₃.schedule = .ok s ∧
      s.checkDependencies Graph.selfLoop = .ok vs ∧ vs ≠ [] := by
  have hsound := oracle_sound.withExtra [(intervalVar, -1)]
  have hfit := Graph.fit_of_defects Graph.selfLoop_defects
  rcases exists_load .asap (oracle.withExtra [(intervalVar, -1)]) false Graph.selfLoop_defects with
    ⟨e₁, hload⟩
  rcases exists_build_asap hload with ⟨e₂, hbuild⟩
  rcases build_renders hload hbuild with ⟨v, m, hview, hm, rfl⟩
  have hy := Discipline.asap_isSolution_iff.mpr
    (selfLoop_startsHold false hview)
  have hstatus := oracle_hasAssignment (hm.feasible_iff.mpr ⟨_, hy⟩) 0
  rcases exists_solve (oracle.withExtra [(intervalVar, -1)])
    (fun asked m' h => oracle_hasAssignment h asked) hm hy with ⟨outcome, e₃, hsolve, hassign⟩
  rcases hsound 0 m hstatus with ⟨x, hcarries, _, hintegral⟩
  rcases solved_realizes (hfit.node_names_nodup hview) hm .start hsolve hassign hcarries
    hintegral with ⟨s, hschedule, _, hinterval, hreal⟩
  -- No variable is called like the interval, so the value comes from what was added.
  have hphantom : s.interval = some (-1) := by
    have hnone : ∀ w ∈ m.vars, w.name ≠ intervalVar := by
      intro w hw hname
      rw [hm.vars] at hw
      rcases Discipline.eq_fixed_of_name hw hname with ⟨_, heq⟩
      cases heq
    have hread : ((oracle.withExtra [(intervalVar, -1)]) 0 m).int? intervalVar = some (-1) :=
      int?_withExtra oracle_keepsToVariables hnone 0 (-1)
    rw [hinterval, achievedInterval?_solve hsolve hassign]
    change (Solution.int? ((oracle.withExtra [(intervalVar, -1)]) 0 m) intervalVar <|> _) = _
    rw [hread]
    rfl
  rcases Schedule.exists_checkDependencies s hfit.joined with ⟨vs, hvs, hmem⟩
  refine ⟨hsound, e₁, _, e₃, outcome, s, vs, hload, hbuild, hsolve, hassign, hschedule, hvs, ?_⟩
  -- The operation would have to start a cycle before itself.
  have hp : Graph.selfLoop.node? 0 = some (.ofKind "p" .phi 0) := rfl
  rcases hreal.cycle? (View.nodeOf_mem_nodes hview hp rfl) with ⟨c, hc, _⟩
  have hslack := Schedule.slack?_back_iff.mpr ⟨c, c, -1, hc, hc, hphantom, rfl⟩
  have hreported := Schedule.reported?_eq_some_iff.mpr ⟨_, hslack, by
    have hzero : (Operation.ofKind "p" .phi 0 : Operation Rat).latency = 0 := rfl
    rw [hzero]
    push_cast
    linarith, rfl⟩
  exact List.ne_nil_of_mem ((hmem _).mpr
    ⟨⟨0, 0, true⟩, List.mem_cons_self, _, _, hp, hp, hreported⟩)

end Engine

end CyclePlan
