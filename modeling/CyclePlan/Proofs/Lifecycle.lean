import CyclePlan.Proofs.Engine.Potentials
import CyclePlan.Proofs.Engine.Calls
import CyclePlan.Proofs.Engine.Solved
import CyclePlan.Proofs.Lp.Oracle

/-!
# The Order of Calls

What must have been called before an engine can have been solved.

An engine knows by two flags whether the dependencies and the intervals have been
added. The flags tell the truth (`hasDependencies_iff_occurs`), but the objective
asks for one of them only. With overlapping iterations it wants the intervals, and
those can be added first, in place of the dependencies. Then nothing asks for the
dependencies any more, and the engine solves a model in which consumers need not
wait for their producers (`exists_solved_without_dependencies`). Without overlap
the dependencies are the only way to get on, so there they have been added.

## Main definitions

* `Occurs`: A call of a sequence does something where it is made.
* `Request.BringsIntervals`: A call after which the intervals are there.
* `IsOrderly`: What the flags and the phase have to do with each other.

## Theorems

* `afterAll_orderly`: Any sequence of calls leads to an orderly engine.
* `hasDependencies_iff_occurs`, `occurs_of_hasIntervals`: The flags tell the truth.
* `settled_after_constraints`: What a model with an objective has been through.
* `exists_solved_without_dependencies`: The dependencies may not be part of it.
-/

namespace CyclePlan

namespace Engine

variable {α : Type} [Scalar α] {e e' : Engine α} {rs : List (Request α)} {r : Request α}

/-- Some call of a sequence does something at the point where it is made. -/
def Occurs (does : Engine α → Request α → Prop) (e : Engine α) (rs : List (Request α)) : Prop :=
  ∃ before r later, rs = before ++ r :: later ∧ does (e.afterAll before) r

/-- A call after which the intervals are there, in one go or by themselves. -/
def Request.BringsIntervals (e : Engine α) (r : Request α) : Prop :=
  r.AddsIntervals e ∨
    r = .build ∧ ∃ n e₁ r', perform (Engine.addDependencies e.sameBlockOnly) e = (.ok n, e₁) ∧
      intervalRequest? e.discipline = some r' ∧ r'.AddsIntervals e₁

/-! ### Flags and phases -/

/-- What the flags and the phase have to do with each other. -/
structure IsOrderly (e : Engine α) : Prop where
  /-- The engine has got on by one of the two. -/
  started : e.phase ≠ .blank → e.phase ≠ .allocated →
    e.hasDependencies = true ∨ e.hasIntervals = true
  /-- There is no objective for overlapping iterations without intervals. -/
  aimed : e.IsSettled → e.discipline.isPipelined = true → e.hasIntervals = true
  pipelined : e.hasIntervals = true → e.discipline.isPipelined = true

omit [Scalar α] in
theorem IsOrderly.effect (h : e.IsOrderly) (heffect : Effect e r e') : e'.IsOrderly := by
  cases heffect with
  | refused t m ht _ =>
      exact ⟨h.started, fun hs hp => h.aimed hs (ht ▸ hp), fun hi => ht.trans (h.pipelined hi)⟩
  | load v m _ =>
      exact ⟨fun _ hp => absurd rfl hp, fun hs _ => absurd hs (by simp [IsSettled]), h.pipelined⟩
  | dependencies m _ =>
      exact ⟨fun _ _ => .inl rfl, fun hs _ => absurd hs (by simp [IsSettled]), h.pipelined⟩
  | interval interval m _ _ => exact ⟨fun _ _ => .inr rfl, fun _ _ => rfl, fun _ => rfl⟩
  | blockIntervals m hp _ => exact ⟨fun _ _ => .inr rfl, fun _ _ => rfl, fun _ => hp⟩
  | objective m hphase hintervals =>
      refine ⟨fun _ _ => h.started ?_ ?_, fun _ => hintervals, h.pipelined⟩ <;>
        simp [hphase]
  | solve hsettled =>
      refine ⟨fun _ _ => h.started ?_ ?_, fun _ => h.aimed hsettled, h.pipelined⟩
      · exact hsettled.ne_blank
      · exact fun hp => hsettled.not_building (.inl hp)
  | lend m asked hphase =>
      rw [not_or] at hphase
      refine ⟨fun _ _ => h.started hphase.1 hphase.2, fun hs => h.aimed ?_, h.pipelined⟩
      -- The engine counts as unsolved, and had an objective before.
      by_cases hconstrained : e.phase = .constrained
      · simp [IsSettled, hconstrained] at hs
      · rw [IsSettled]
        cases hp : e.phase <;> simp_all

theorem afterAll_orderly (t : Discipline) (solver : Solver α) (sameBlockOnly : Bool)
    (rs : List (Request α)) : ((fresh t solver sameBlockOnly).afterAll rs).IsOrderly := by
  have hfresh : (fresh t solver sameBlockOnly).IsOrderly :=
    ⟨fun hp => absurd rfl hp, fun hs _ => absurd hs (by simp [IsSettled, fresh]),
      fun h => absurd h Bool.false_ne_true⟩
  exact afterAll_preserves IsOrderly.effect hfresh rs

/-- Whether iterations overlap never changes. -/
theorem afterAll_isPipelined (e : Engine α) (rs : List (Request α)) :
    (e.afterAll rs).discipline.isPipelined = e.discipline.isPipelined := by
  refine afterAll_preserves
    (P := fun e' => e'.discipline.isPipelined = e.discipline.isPipelined)
    (fun hsame heffect => ?_) rfl rs
  cases heffect with
  | refused t m ht _ => exact ht.trans hsame
  | interval interval m hp _ => exact hp.symm.trans hsame
  | _ => exact hsame

/-! ### Truth of the flags -/

omit [Scalar α] in
theorem Effect.keeps_dependencies (heffect : Effect e r e') (h : e.hasDependencies = true) :
    e'.hasDependencies = true := by
  cases heffect with
  | dependencies m _ => rfl
  | _ => exact h

omit [Scalar α] in
/-- Only adding the dependencies sets their flag. -/
theorem Effect.eq_addDependencies (heffect : Effect e r e') (h : e.hasDependencies = false)
    (h' : e'.hasDependencies = true) : ∃ sameBlockOnly, r = .addDependencies sameBlockOnly := by
  cases heffect with
  | dependencies m _ => exact ⟨_, rfl⟩
  | _ => exact absurd (h.symm.trans h') Bool.false_ne_true

omit [Scalar α] in
/-- Only adding intervals sets theirs, and only before there is an objective. -/
theorem Effect.eq_addIntervals (heffect : Effect e r e') (h : e.hasIntervals = false)
    (h' : e'.hasIntervals = true) :
    ((∃ interval, r = .addInterval interval) ∨ r = .addBlockIntervals) ∧
      (e.phase = .allocated ∨ e.phase = .constrained) := by
  cases heffect with
  | interval interval m _ hphase => exact ⟨.inl ⟨interval, rfl⟩, hphase⟩
  | blockIntervals m _ hphase => exact ⟨.inr rfl, hphase⟩
  | _ => exact absurd (h.symm.trans h') Bool.false_ne_true

/-- A call that is refused sets no flag. -/
theorem flags_of_refused {cause : SchedulingError α} (hr : r ≠ .build)
    (hrefused : r.IsRefused e cause) : (r.after e).hasDependencies = e.hasDependencies ∧
      (r.after e).hasIntervals = e.hasIntervals := by
  rcases r.exists_leaves hr hrefused with ⟨m, hafter, _, _⟩
  rw [hafter]
  exact ⟨rfl, rfl⟩

/-- Building in one go sets none if the dependencies are refused. -/
theorem flags_of_addDependencies_error {cause : SchedulingError α} {sameBlockOnly : Bool}
    (h : perform (addDependencies sameBlockOnly) e = (.error cause, e')) :
    e'.hasDependencies = e.hasDependencies ∧ e'.hasIntervals = e.hasIntervals := by
  have hflags := flags_of_refused (r := .addDependencies sameBlockOnly) (fun h => by cases h)
    (congrArg Prod.fst h)
  rwa [Request.after, h] at hflags

/-- A call that sets a flag is not refused. -/
theorem exists_ok_of_flags {β : Type} {act : EngineM α β} (hr : r ≠ .build)
    (hact : ∀ cause, (perform act e).1 = .error cause → r.IsRefused e cause)
    (h : (r.after e).hasDependencies ≠ e.hasDependencies ∨
      (r.after e).hasIntervals ≠ e.hasIntervals) :
    ∃ b e', perform act e = (.ok b, e') := by
  rcases hresult : perform act e with ⟨answer, e'⟩
  cases answer with
  | ok b => exact ⟨b, e', rfl⟩
  | error cause =>
      have hflags := flags_of_refused hr (hact cause (congrArg Prod.fst hresult))
      rcases h with h | h
      · exact absurd hflags.1 h
      · exact absurd hflags.2 h

theorem addsDependencies_of_flag (h : e.hasDependencies = false)
    (h' : (r.after e).hasDependencies = true) : r.AddsDependencies e := by
  by_cases hr : r = .build
  · subst hr
    rcases after_build_cases e with ⟨cause, herror⟩ | ⟨n, e₁, hdeps, _⟩
    · have hsame := (flags_of_addDependencies_error herror).1
      exact absurd h' (by simp [hsame, h])
    · exact ⟨n, e₁, hdeps⟩
  · rcases (r.effect hr e).eq_addDependencies h h' with ⟨sameBlockOnly, rfl⟩
    refine exists_ok_of_flags hr (fun _ herror => herror) (.inl fun hsame => ?_)
    exact absurd (h.symm.trans (hsame.symm.trans h')) Bool.false_ne_true

theorem hasDependencies_of_adds (h : r.AddsDependencies e) :
    (r.after e).hasDependencies = true := by
  have hset : ∀ {sameBlockOnly n e'}, perform (addDependencies sameBlockOnly) e = (.ok n, e') →
      e'.hasDependencies = true := by
    intro sameBlockOnly n e' hok
    rcases perform_addDependencies_ok_iff.mp hok with ⟨_, _, _, _, m, _, _, _, rfl⟩
    rfl
  cases r with
  | addDependencies sameBlockOnly =>
      rcases h with ⟨n, e', hok⟩
      rw [Request.after, hok]
      exact hset hok
  | build =>
      rcases h with ⟨n, e', hok⟩
      rcases after_build_cases e with ⟨cause, herror⟩ | ⟨n, e₁, hdeps, hrest⟩
      · rw [hok] at herror
        cases herror
      · -- Neither the intervals nor the objective take the flag back.
        have hkeeps : ∀ {r : Request α} {e : Engine α}, r.IsBuilding →
            e.hasDependencies = true → (r.after e).hasDependencies = true :=
          fun {r e} hr hflag => (r.effect hr.ne_build e).keeps_dependencies hflag
        rcases hrest with hafter | ⟨r, hr, hafter | ⟨_, hafter⟩⟩ <;> rw [hafter]
        · exact hkeeps trivial (hset hdeps)
        · exact hkeeps (isBuilding_of_intervalRequest? hr) (hset hdeps)
        · exact hkeeps trivial (hkeeps (isBuilding_of_intervalRequest? hr) (hset hdeps))
  | _ => exact h.elim

theorem addsIntervals_of_flag (hr : r ≠ .build) (h : e.hasIntervals = false)
    (h' : (r.after e).hasIntervals = true) : r.AddsIntervals e := by
  have hne : (r.after e).hasIntervals ≠ e.hasIntervals := by simp [h, h']
  rcases ((r.effect hr e).eq_addIntervals h h').1 with ⟨interval, rfl⟩ | rfl
  · exact exists_ok_of_flags hr (fun _ herror => herror) (.inr hne)
  · exact exists_ok_of_flags hr (fun _ herror => herror) (.inr hne)

theorem bringsIntervals_of_flag (h : e.hasIntervals = false)
    (h' : (r.after e).hasIntervals = true) : r.BringsIntervals e := by
  by_cases hr : r = .build
  · subst hr
    rcases after_build_cases e with ⟨cause, herror⟩ | ⟨n, e₁, hdeps, hrest⟩
    · have hsame := (flags_of_addDependencies_error herror).2
      exact absurd h' (by simp [hsame, h])
    · have hunset : e₁.hasIntervals = false := by
        rcases perform_addDependencies_ok_iff.mp hdeps with ⟨_, _, _, _, m, _, _, _, rfl⟩
        exact h
      rcases hrest with hafter | ⟨r, hr, hafter | ⟨hadds, _⟩⟩
      · -- The objective alone sets no flag.
        rw [hafter] at h'
        have hgoal := (Request.setObjective : Request α).effect
          (Request.IsBuilding.ne_build trivial) e₁
        rcases (hgoal.eq_addIntervals hunset h').1 with ⟨_, heq⟩ | heq <;> cases heq
      · rw [hafter] at h'
        exact .inr ⟨rfl, n, e₁, r, hdeps, hr,
          addsIntervals_of_flag (isBuilding_of_intervalRequest? hr).ne_build hunset h'⟩
      · exact .inr ⟨rfl, n, e₁, r, hdeps, hr, hadds⟩
  · exact .inl (addsIntervals_of_flag hr h h')

/-! ### What has been called -/

theorem afterAll_keeps_dependencies (h : e.hasDependencies = true) (rs : List (Request α)) :
    (e.afterAll rs).hasDependencies = true :=
  afterAll_preserves (P := fun e => e.hasDependencies = true)
    (fun h heffect => heffect.keeps_dependencies h) h rs

/-- The flag is set exactly if the dependencies have been added. -/
theorem hasDependencies_iff_occurs (h : e.hasDependencies = false) :
    (e.afterAll rs).hasDependencies = true ↔ Occurs (fun e r => r.AddsDependencies e) e rs := by
  constructor
  · intro hend
    rcases exists_last_turn (P := fun e => e.hasDependencies = true) (by simp [h]) hend with
      ⟨before, r, later, hsplit, hnot, hsince⟩
    rw [Bool.not_eq_true] at hnot
    exact ⟨before, r, later, hsplit, addsDependencies_of_flag hnot (hsince [] List.nil_prefix)⟩
  · rintro ⟨before, r, later, rfl, hadds⟩
    rw [afterAll_append]
    exact afterAll_keeps_dependencies (hasDependencies_of_adds hadds) later

theorem occurs_of_hasIntervals (h : e.hasIntervals = false)
    (hend : (e.afterAll rs).hasIntervals = true) :
    Occurs (fun e r => r.BringsIntervals e) e rs := by
  rcases exists_last_turn (P := fun e => e.hasIntervals = true) (by simp [h]) hend with
    ⟨before, r, later, hsplit, hnot, hsince⟩
  rw [Bool.not_eq_true] at hnot
  exact ⟨before, r, later, hsplit, bringsIntervals_of_flag hnot (hsince [] List.nil_prefix)⟩

/-- Where the intervals are there and the dependencies are not, the intervals were
    added first. -/
theorem occurs_intervals_first (t : Discipline) (solver : Solver α) (sameBlockOnly : Bool)
    (hintervals : ((fresh t solver sameBlockOnly).afterAll rs).hasIntervals = true)
    (hdeps : ((fresh t solver sameBlockOnly).afterAll rs).hasDependencies = false) :
    Occurs (fun e r => e.phase = .allocated ∧ r.AddsIntervals e)
      (fresh t solver sameBlockOnly) rs := by
  rcases exists_last_turn
    (P := fun e => e.hasIntervals = true ∧ e.hasDependencies = false) (by simp [fresh])
    ⟨hintervals, hdeps⟩ with ⟨before, r, later, hsplit, hnot, hsince⟩
  rcases hsince [] List.nil_prefix with ⟨hset, hunset⟩
  have horderly := afterAll_orderly t solver sameBlockOnly before
  refine ⟨before, r, later, hsplit, ?_⟩
  generalize (fresh t solver sameBlockOnly).afterAll before = e at *
  -- The dependencies were not there before either, so the call has added the intervals.
  have hnodeps : e.hasDependencies = false := by
    by_contra hflag
    rw [Bool.not_eq_false] at hflag
    have hkept := afterAll_keeps_dependencies hflag [r]
    exact absurd (hunset.symm.trans hkept) Bool.false_ne_true
  have hnointervals : e.hasIntervals = false := by
    by_contra hflag
    rw [Bool.not_eq_false] at hflag
    exact hnot ⟨hflag, hnodeps⟩
  rcases bringsIntervals_of_flag hnointervals hset with hadds | ⟨rfl, n, e₁, _, hdeps, _⟩
  · refine ⟨?_, hadds⟩
    have hr : r ≠ .build := by
      rintro rfl
      exact hadds
    rcases ((r.effect hr e).eq_addIntervals hnointervals hset).2 with hphase | hphase
    · exact hphase
    · -- Later on there would be a flag already.
      have hflag := horderly.started (by simp [hphase]) (by simp [hphase])
      simp [hnodeps, hnointervals] at hflag
  · -- Building in one go would have added the dependencies first.
    have hkept := hasDependencies_of_adds (r := .build) ⟨n, e₁, hdeps⟩
    exact absurd (hunset.symm.trans hkept) Bool.false_ne_true

/-- A model with an objective has its intervals if iterations overlap. It has its
    dependencies, too, unless the intervals were added in their place. -/
theorem settled_after_constraints {t : Discipline} {solver : Solver α} {sameBlockOnly : Bool}
    (hsettled : ((fresh t solver sameBlockOnly).afterAll rs).IsSettled) :
    (t.isPipelined = true →
      Occurs (fun e r => r.BringsIntervals e) (fresh t solver sameBlockOnly) rs) ∧
    (Occurs (fun e r => r.AddsDependencies e) (fresh t solver sameBlockOnly) rs ∨
      t.isPipelined = true ∧
        Occurs (fun e r => e.phase = .allocated ∧ r.AddsIntervals e)
          (fresh t solver sameBlockOnly) rs) := by
  have horderly := afterAll_orderly t solver sameBlockOnly rs
  have hkind : ((fresh t solver sameBlockOnly).afterAll rs).discipline.isPipelined
      = t.isPipelined := afterAll_isPipelined _ _
  constructor
  · intro ht
    exact occurs_of_hasIntervals rfl (horderly.aimed hsettled (hkind.trans ht))
  · cases hdeps : ((fresh t solver sameBlockOnly).afterAll rs).hasDependencies with
    | true => exact .inl ((hasDependencies_iff_occurs rfl).mp hdeps)
    | false =>
        right
        have hintervals := (horderly.started hsettled.ne_blank
          fun hp => hsettled.not_building (.inl hp)).resolve_left (by simp [hdeps])
        exact ⟨hkind.symm.trans (horderly.pipelined hintervals),
          occurs_intervals_first t solver sameBlockOnly hintervals hdeps⟩

/-- The loop that counts is built in one go and solved. -/
theorem settled_after_constraints_countingLoop :
    ((fresh (.pipelined .perBlock) oracle true).afterAll
        [.load Graph.countingLoop, .build, .solve]).IsSettled ∧
      ((Discipline.pipelined .perBlock).isPipelined = true →
        Occurs (fun e r => r.BringsIntervals e) (fresh (.pipelined .perBlock) oracle true)
          [.load Graph.countingLoop, .build, .solve]) ∧
      (Occurs (fun e r => r.AddsDependencies e) (fresh (.pipelined .perBlock) oracle true)
          [.load Graph.countingLoop, .build, .solve] ∨
        (Discipline.pipelined .perBlock).isPipelined = true ∧
          Occurs (fun e r => e.phase = .allocated ∧ r.AddsIntervals e)
            (fresh (.pipelined .perBlock) oracle true)
            [.load Graph.countingLoop, .build, .solve]) := by
  have hsettled : ((fresh (.pipelined .perBlock) oracle true).afterAll
      [.load Graph.countingLoop, .build, .solve]).IsSettled := by
    rcases exists_load (.pipelined .perBlock) oracle true Graph.countingLoop_defects with
      ⟨e₁, hload⟩
    have hvalid : IntervalTarget.perBlock.IsValid := trivial
    rcases exists_build_pipelined hvalid hload with ⟨e₂, hbuild⟩
    rcases build_renders hload hbuild with ⟨v, m, _, _, rfl⟩
    simp only [afterAll, List.foldl_cons, List.foldl_nil, Request.after, hload, hbuild]
    exact (solve_settled (fun m => rfl : ∀ m : Model Rat, m = m) builtWith_settled).settled
  exact ⟨hsettled, settled_after_constraints hsettled⟩

/-! ### Intervals in place of dependencies -/

section

variable {solver : Solver Rat} {sameBlockOnly : Bool} {g : Graph Rat} {interval : Int}

/-- With the intervals in place of the dependencies, the engine ends up as if it had
    been built, but its model is that of a view without forward edges. -/
theorem exists_aimed_without_dependencies (hdefects : g.defects = []) (hpos : 1 ≤ interval) :
    ∃ v m, View.ofGraph g = .ok v ∧
      m.Renders (Discipline.program (.pipelined (.fixed interval)) { v with forward := [] }
        sameBlockOnly) ∧
      (fresh (.pipelined (.fixed interval)) solver sameBlockOnly).afterAll
          [.load g, .addInterval interval, .setObjective] =
        { builtWith (.pipelined (.fixed interval)) solver sameBlockOnly v m with
          hasDependencies := false } := by
  have hvalid : (IntervalTarget.fixed interval).IsValid := hpos
  rcases exists_load (.pipelined (.fixed interval)) solver sameBlockOnly hdefects with
    ⟨e₁, hload⟩
  rcases load_ok_iff.mp hload with ⟨_, v, m, hview, hm, rfl⟩
  have hstart := allocate_growsBy hm
  have hfit := Graph.fit_of_defects hdefects
  have hbuildable := isBuildable_of_isValid v hvalid
  rcases (hasRoles_of_allocate (hfit.node_names_nodup hview) hm).declare
    (Discipline.declares_addIntervals hbuildable (hfit.backPairs_block hview) fun _ _ => rfl)
    (fun r hr => hr)
    (fun r => Discipline.not_start_of_mem_auxiliaryRoles (t := .pipelined (.fixed interval))) with
    ⟨k, m₁, hint, hroles⟩
  rcases hroles.declare (Discipline.declares_addObjective_pipelined hbuildable)
    (fun r hr => hr) (by simp) with ⟨_, m₂, hobj, _⟩
  rcases Discipline.addObjective_pipelined hobj with ⟨hknown, rfl⟩
  -- The engine is neither asked for the dependencies by the intervals nor by the objective.
  have hadd : perform (addInterval interval)
      (loadedWith (.pipelined (.fixed interval)) solver sameBlockOnly v m) = (.ok k, _) :=
    (perform_addInterval_fixed rfl interval).trans
      (perform_contributeIntervals_ok_iff.mpr ⟨.inl rfl, rfl, v, k, m₁, rfl, hint, rfl, rfl⟩)
  have hgoal : perform setObjective { loadedWith (.pipelined (.fixed interval)) solver
      sameBlockOnly v m₁ with hasIntervals := true, phase := .constrained } = (.ok ⟨⟩, _) :=
    perform_setObjective_ok_iff.mpr ⟨rfl, fun _ => rfl, v, ⟨⟩, _, rfl, hobj, rfl, rfl⟩
  have hgrows := hstart.trans (Discipline.addIntervals_growsBy hint)
  refine ⟨v, _, hview, hgrows.renders hknown, ?_⟩
  simp only [afterAll, List.foldl_cons, List.foldl_nil, Request.after, hload, hadd]
  exact congrArg Prod.snd hgoal

/-- Where the interval covers every back-edge, such a model is solved, and it lets all
    nodes start at once. -/
theorem exists_solved_without_dependencies (hdefects : g.defects = []) (hpos : 1 ≤ interval)
    (hback : ∀ v, View.ofGraph g = .ok v → ∀ p ∈ v.backPairs, p.1.latency ≤ interval) :
    ∃ e v x, (fresh (.pipelined (.fixed interval)) oracle sameBlockOnly).afterAll
        [.load g, .addInterval interval, .setObjective, .solve] = e ∧
      e.phase = .solved ∧ e.hasDependencies = false ∧ View.ofGraph g = .ok v ∧
      e.view = some v ∧ (e.model.IsPoint x ∧ e.model.IsIntegral x) ∧
      ∀ n ∈ v.nodes, e.model.valueOf x (startVar n.name) = 0 := by
  rcases @exists_aimed_without_dependencies oracle sameBlockOnly g interval hdefects hpos with
    ⟨v, m, hview, hm, hrun⟩
  have hnames := (Graph.fit_of_defects hdefects).node_names_nodup hview
  rcases View.exists_uniform_times hnames (fun _ => 0) interval with ⟨y, hy, hother⟩
  have hzero : ∀ n ∈ v.nodes, y (startVar n.name) = 0 := fun n hn => by simpa using hy n hn
  have hsolution : (Discipline.program (.pipelined (.fixed interval))
      { v with forward := [] } sameBlockOnly).IsSolution y := by
    refine (Discipline.fixed_isSolution_iff hpos).mpr
      ⟨⟨fun n hn => (hzero n hn).ge, fun n hn => ⟨0, by simpa using hzero n hn⟩, fun p hp => ?_⟩,
        hother _ startVar_ne_intervalVar, fun p hp => ?_⟩
    · exact absurd (List.mem_of_mem_filter hp) List.not_mem_nil
    · have hp : p ∈ v.backPairs := hp
      rcases View.mem_nodes_of_backPairs hp with ⟨hsource, htarget⟩
      rw [hzero _ hsource, hzero _ htarget, zero_add, zero_add]
      exact hback v hview p hp
  have hpoint := hm.assign_isPoint hsolution
  have hassign := oracle_hasAssignment ⟨_, hpoint⟩ 0
  refine ⟨_, v, m.assign y, rfl, ?_⟩
  have hsplit : [Request.load g, .addInterval interval, .setObjective, .solve]
      = [.load g, .addInterval interval, .setObjective] ++ [.solve] := rfl
  rw [hsplit, afterAll_concat, hrun, Request.after,
    perform_solve_ok_iff.mpr ⟨.inl rfl, rfl, rfl⟩]
  refine ⟨phaseAfter_of_hasAssignment ?_, rfl, hview, rfl, hpoint, fun n hn => ?_⟩
  · rw [hasAssignment_outcomeOf]
    exact hassign
  · have hmem : startVariable n ∈ m.vars := by
      rw [hm.vars]
      exact Discipline.startVariable_mem hn
    exact (m.valueOf_assign y ⟨_, hmem, rfl⟩).trans (hzero n hn)

/-- The comparison of the loop that counts need not wait for the sum. -/
theorem solved_without_dependencies_countingLoop :
    ∃ e v p x, (fresh (.pipelined (.fixed 3)) oracle true).afterAll
        [.load Graph.countingLoop, .addInterval 3, .setObjective, .solve] = e ∧
      e.phase = .solved ∧
      ¬ Occurs (fun e r => r.AddsDependencies e) (fresh (.pipelined (.fixed 3)) oracle true)
        [.load Graph.countingLoop, .addInterval 3, .setObjective, .solve] ∧
      e.view = some v ∧ p ∈ v.emitted true ∧ (e.model.IsPoint x ∧ e.model.IsIntegral x) ∧
      ¬ (Row.dependency p).Holds (e.model.valueOf x) := by
  have hlatency : ∀ op ∈ Graph.countingLoop.ops, op.latency ≤ (3 : Int) := by decide +kernel
  have hback : ∀ v, View.ofGraph Graph.countingLoop = .ok v →
      ∀ p ∈ v.backPairs, p.1.latency ≤ (3 : Int) := by
    intro v hview p hp
    rcases (View.mem_nodes_iff hview).mp (View.mem_nodes_of_backPairs hp).1 with
      ⟨op, hop, _, heq⟩
    rw [heq]
    exact hlatency op (List.mem_of_getElem? hop)
  rcases @exists_solved_without_dependencies true _ _ Graph.countingLoop_defects (by decide)
    hback with ⟨e, v, x, hrun, hphase, hflag, hview, hv, hpoint, hzero⟩
  have hsum : View.nodeOf 2 _ ∈ v.nodes := View.nodeOf_mem_nodes hview rfl rfl
  have hcmp : View.nodeOf 3 _ ∈ v.nodes := View.nodeOf_mem_nodes hview rfl rfl
  refine ⟨e, v, (_, _), x, hrun, hphase, fun hoccurs => ?_, hv,
    List.mem_filter.mpr ⟨(View.mem_forwardPairs_iff hview).mpr ⟨hsum, hcmp, ?_⟩, rfl⟩, hpoint, ?_⟩
  · have hset := (hasDependencies_iff_occurs rfl).mpr hoccurs
    rw [hrun, hflag] at hset
    exact Bool.false_ne_true hset
  · have hedge : ⟨2, 3, false⟩ ∈ Graph.countingLoop.edges := by decide
    exact Graph.countingLoop.mem_keptSuccessors_of_edge hedge
      ((View.mem_keptIds_iff hview).mpr ⟨_, hcmp, rfl⟩)
  · rw [Row.dependency_holds_iff, hzero _ hsum, hzero _ hcmp]
    change ¬ (0 : Rat) + 5 / 2 ≤ 0
    norm_num

end

end Engine

end CyclePlan
