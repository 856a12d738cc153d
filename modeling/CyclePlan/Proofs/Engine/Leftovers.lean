import CyclePlan.Proofs.Engine.Loans

/-!
# Leftovers

What a building step leaves in the model when it is refused.

A discipline adds its variables and rows one by one, and it stops at the first one
that is refused. What was added before stays. All of it stands behind what was there
before, and the objective comes last, so the old model can still be told apart
(`Model.Gains`).

There are three reasons to stop halfway. A last node has no bound, which is only
noticed when its turn comes. The name of a block's interval is taken. Or the model
refuses a number. If a step is refused for any other reason, it has left nothing, as
long as the timing variables are all there (`Leaves`). This is shown step by step
along the code of each discipline, as the loops go over rows whose names are known.

## Main definitions

* `Model.Gains`: Variables and constraints were added behind the others.
* `Discipline.Leaves`: What is left, and for which cause.

## Theorems

* `leaves_of_row`, `leaves_of_goal`: A row or an objective that is refused.
* `addDependencies_leaves`, `addIntervals_leaves`, `addObjective_leaves`: The steps.
-/

namespace CyclePlan

namespace Model

variable {α : Type}

/-- Variables and constraints were added behind those that were there. -/
structure Gains (m m' : Model α) : Prop where
  vars : m.vars <+: m'.vars
  constraints : m.constraints <+: m'.constraints
  objective : m'.objective = m.objective

theorem Gains.refl (m : Model α) : m.Gains m := ⟨List.prefix_rfl, List.prefix_rfl, rfl⟩

theorem Gains.trans (m m' m'' : Model α) (h : m.Gains m') (h' : m'.Gains m'') : m.Gains m'' :=
  ⟨h.vars.trans h'.vars, h.constraints.trans h'.constraints, h'.objective.trans h.objective⟩

variable [Scalar α]

theorem addVariable_gains (name : String) (lower upper : Option α) (kind : VariableKind) :
    Moves Gains (addVariable name lower upper kind) := by
  intro m
  rcases h : perform (addVariable name lower upper kind) m with ⟨answer, m'⟩
  cases answer with
  | ok id =>
      rcases perform_addVariable_ok h with ⟨_, _, fresh, rfl⟩
      exact ⟨List.prefix_append _ _, List.prefix_rfl, rfl⟩
  | error cause =>
      rw [(perform_addVariable_error h).1]
      exact Gains.refl m

theorem addConstraint_gains (named : List (String × α)) (relation : Relation) (rhs : α) :
    Moves Gains (addConstraint named relation rhs) := by
  intro m
  rcases h : perform (addConstraint named relation rhs) m with ⟨answer, m'⟩
  cases answer with
  | ok id =>
      rcases perform_addConstraint_ok h with ⟨terms, _, rfl, rfl⟩
      exact ⟨List.prefix_rfl, List.prefix_append _ _, rfl⟩
  | error cause =>
      rw [(perform_addConstraint_error h).1]
      exact Gains.refl m

theorem Gains.adding : AllowsAdding (Gains (α := α)) :=
  ⟨Gains.refl, Gains.trans, addVariable_gains, addConstraint_gains⟩

end Model

open Model (Gains)

namespace BuildM

variable {α β : Type} {m m' : Model α} {cause : SchedulingError α}

theorem perform_step_error_iff {act : ModelM α β} :
    perform (BuildM.step act) m = (.error cause, m') ↔
      ∃ c, perform act m = (.error c, m') ∧ cause = .lp c := by
  rw [BuildM.step, perform_adapt]
  rcases perform act m with ⟨answer, t⟩
  cases answer with
  | ok b => simp [Except.mapError]
  | error c => simp [Except.mapError, and_comm, eq_comm]

variable [Scalar α] {named : List (String × α)} {relation : Relation} {rhs : α}

/-- A row over known names is refused for a number only. -/
theorem submit_error (h : perform (do
      let _ ← BuildM.step (Model.addConstraint named relation rhs) : BuildM α Unit) m
      = (.error cause, m')) :
    m' = m ∧ ∃ c, cause = .lp c ∧ ((∀ t ∈ named, m.Knows t.1) → c.IsNonFinite) := by
  rcases perform_bind_error_iff.mp h with h | ⟨_, _, _, h⟩
  · rcases perform_step_error_iff.mp h with ⟨c, hadd, rfl⟩
    rcases Model.perform_addConstraint_error hadd with ⟨rfl, ⟨hrhs, rfl⟩ | hterms⟩
    · exact ⟨rfl, _, rfl, fun _ => ⟨_, _, rfl, .inl hrhs⟩⟩
    · exact ⟨rfl, c, rfl, hterms.isNonFinite⟩
  · cases h

/-- A step that declares a variable first is refused there and has done nothing, or goes
    on with a model that knows the variable. -/
theorem declare_error {β : Type} {name : String} {lower : α} {next : Nat → BuildM α β}
    (h : perform (BuildM.step (Model.addVariable name (some lower) none .integer) >>= next) m
      = (.error cause, m')) :
    (m' = m ∧ ∃ c, cause = .lp c ∧ (c = .duplicateVariable name ∨ c.IsNonFinite)) ∨
      ∃ id t, m.Gains t ∧ t.Knows name ∧ perform (next id) t = (.error cause, m') := by
  rcases perform_bind_error_iff.mp h with h | ⟨id, t, hdeclare, h⟩
  · rcases perform_step_error_iff.mp h with ⟨c, hadd, rfl⟩
    rcases Model.perform_addVariable_error hadd with ⟨rfl, ⟨_, rfl⟩ | hbounds⟩
    · exact .inl ⟨rfl, _, rfl, .inl rfl⟩
    · exact .inl ⟨rfl, c, rfl, .inr (Model.isNonFinite_of_boundsError? hbounds)⟩
  · exact .inr ⟨id, t, (declare_moves Gains.adding _ _ _ _).of_perform hdeclare,
      Model.knows_of_addVariable (perform_step_ok_iff.mp hdeclare), h⟩

end BuildM

namespace Discipline

open BuildM

variable {α : Type} {v : View α} {m m' t : Model α} {cause : SchedulingError α}
  {Expected : SchedulingError α → Prop} [Scalar α]

/-- What a refused building step leaves: the model as it was, or more than that if the
    cause is one of those to be expected or comes from the model. As long as all timing
    variables exist, the model has only numbers to object to. -/
structure Leaves (v : View α) (Expected : SchedulingError α → Prop) (m : Model α)
    (cause : SchedulingError α) (m' : Model α) : Prop where
  gains : m.Gains m'
  cause : m' = m ∨ Expected cause ∨ ∃ c, cause = .lp c ∧ (StartsKnown v m → c.IsNonFinite)

theorem leaves_self (v : View α) (Expected : SchedulingError α → Prop) (m : Model α)
    (cause : SchedulingError α) : Leaves v Expected m cause m := ⟨Gains.refl m, .inl rfl⟩

/-- A row is refused after other steps. -/
theorem leaves_of_row {named : List (String × α)} {relation : Relation} {rhs : α}
    (hgains : m.Gains t) (hknown : StartsKnown v t → ∀ x ∈ named, t.Knows x.1)
    (h : perform (do
      let _ ← BuildM.step (Model.addConstraint named relation rhs) : BuildM α Unit) t
      = (.error cause, m')) : Leaves v Expected m cause m' := by
  rcases submit_error h with ⟨rfl, c, rfl, hfinite⟩
  exact ⟨hgains, .inr (.inr ⟨c, rfl, fun hstarts =>
    hfinite (hknown (hstarts.of_isPrefix hgains.vars))⟩)⟩

/-- An objective is refused after other steps. -/
theorem leaves_of_goal {named : List (String × α)} {direction : Direction}
    (hgains : m.Gains t) (hknown : StartsKnown v t → ∀ x ∈ named, t.Knows x.1)
    (h : perform (BuildM.step (Model.setObjective named direction)) t = (.error cause, m')) :
    Leaves v Expected m cause m' := by
  rcases perform_step_error_iff.mp h with ⟨c, hgoal, rfl⟩
  rcases Model.perform_setObjective_error hgoal with ⟨rfl, hterms⟩
  exact ⟨hgains, .inr (.inr ⟨c, rfl, fun hstarts =>
    hterms.isNonFinite (hknown (hstarts.of_isPrefix hgains.vars))⟩)⟩

omit [Scalar α] in
/-- A loop that is refused has gained what its earlier rounds added. -/
theorem exists_round_gains {β : Type} {f : β → BuildM α Unit} {bs : List β}
    (hgains : ∀ b, Moves Gains (f b)) (h : perform (bs.forM f) m = (.error cause, m')) :
    ∃ b ∈ bs, ∃ t, m.Gains t ∧ perform (f b) t = (.error cause, m') := by
  rcases exists_round_of_forM_error h with ⟨done, b, rest, t, rfl, hdone, hround⟩
  exact ⟨b, by simp, t, (Moves.forM Gains.refl Gains.trans hgains done).of_perform hdone, hround⟩

/-! ### Dependencies -/

theorem addDependencies_leaves {pairs : List (View.Node α × View.Node α)}
    (hpairs : pairs ⊆ v.forwardPairs)
    (h : perform (pairs.forM Engine.addDependency) m = (.error cause, m')) :
    Leaves v (fun _ => False) m cause m' := by
  rcases exists_round_gains (fun p => submit_moves Gains.adding _ _ _) h with
    ⟨p, hp, t, hgains, hround⟩
  rcases View.mem_nodes_of_forwardPairs (hpairs hp) with ⟨hu, hv⟩
  refine leaves_of_row hgains (fun hstarts => ?_) hround
  simp [hstarts p.1 hu, hstarts p.2 hv]

/-! ### Intervals -/

theorem knows_of_addBlockInterval {block : Nat}
    (h : perform (addBlockInterval block) m = (.ok ⟨⟩, m')) :
    m'.Knows (blockIntervalVar block) := by
  rcases perform_bind_ok_iff.mp h with ⟨_, t, hdeclare, hsubmit⟩
  have hknown := Model.knows_of_addVariable (perform_step_ok_iff.mp hdeclare)
  exact hknown.of_isPrefix ((submit_moves Gains.adding _ _ _).of_perform hsubmit).vars

/-- Afterwards every back-edge has the variable that it is relaxed by. -/
theorem knows_of_addIntervalVars {target : IntervalTarget}
    (h : perform (addIntervalVars target v) m = (.ok ⟨⟩, m')) :
    ∀ p ∈ v.backPairs, m'.Knows (intervalVarOf target p.1) := by
  cases target with
  | fixed interval =>
      intro p _
      rcases (perform_guard_ok_iff (fun _ _ h => by cases h)).mp h with ⟨_, h⟩
      rcases perform_bind_ok_iff.mp h with ⟨_, t, hdeclare, hsubmit⟩
      have hknown := Model.knows_of_addVariable (perform_step_ok_iff.mp hdeclare)
      exact hknown.of_isPrefix ((submit_moves Gains.adding _ _ _).of_perform hsubmit).vars
  | perBlock =>
      intro p hp
      rcases perform_bind_ok_iff.mp h with ⟨_, t, _, hblocks⟩
      have hkeeps : ∀ b, Moves Model.Keeps (addBlockInterval b : BuildM α Unit) := fun b =>
        (addBlockInterval_moves Gains.adding b).mono fun _ _ h => h.vars
      exact Model.knows_of_forM hkeeps (fun _ _ _ => knows_of_addBlockInterval) hblocks
        p.1.block (View.block_mem_loopBlocks hp)

/-- The name of a block's interval is taken. -/
def TakenInterval (target : IntervalTarget) (v : View α) (cause : SchedulingError α) : Prop :=
  target = .perBlock ∧ ∃ b ∈ v.loopBlocks, cause = .lp (.duplicateVariable (blockIntervalVar b))

theorem addBlockInterval_leaves {block : Nat} (hblock : block ∈ v.loopBlocks)
    (hgains : m.Gains t) (hmax : t.Knows maxIntervalVar)
    (h : perform (addBlockInterval block) t = (.error cause, m')) :
    Leaves v (TakenInterval .perBlock v) m cause m' := by
  rcases declare_error h with ⟨rfl, c, rfl, rfl | hfinite⟩ | ⟨_, t', hmore, hknown, h⟩
  · exact ⟨hgains, .inr (.inl ⟨rfl, block, hblock, rfl⟩)⟩
  · exact ⟨hgains, .inr (.inr ⟨c, rfl, fun _ => hfinite⟩)⟩
  · refine leaves_of_row (hgains.trans _ _ _ hmore) (fun _ => ?_) h
    simp [hknown, hmax.of_isPrefix hmore.vars]

theorem addIntervalVars_leaves {target : IntervalTarget}
    (h : perform (addIntervalVars target v) m = (.error cause, m')) :
    Leaves v (TakenInterval target v) m cause m' := by
  cases target with
  | fixed interval =>
      unfold addIntervalVars at h
      simp only [] at h
      split at h
      · cases h
        exact leaves_self _ _ _ _
      · rcases declare_error h with ⟨rfl, _⟩ | ⟨_, t, hgains, hknown, h⟩
        · exact leaves_self _ _ _ _
        · exact leaves_of_row hgains (fun _ => by simp [hknown]) h
  | perBlock =>
      rcases declare_error h with ⟨rfl, _⟩ | ⟨_, t, hgains, hknown, h⟩
      · exact leaves_self _ _ _ _
      · rcases exists_round_gains (addBlockInterval_moves Gains.adding) h with
          ⟨b, hb, t', hmore, hround⟩
        exact addBlockInterval_leaves hb (hgains.trans _ _ _ hmore)
          (hknown.of_isPrefix hmore.vars) hround

/-- Back-edges that leave their block and intervals below one are noticed first. -/
theorem addIntervals_leaves {target : IntervalTarget}
    (h : perform (addIntervals (.pipelined target) v) m = (.error cause, m')) :
    Leaves v (TakenInterval target v) m cause m' := by
  unfold addIntervals at h
  simp only [] at h
  split at h
  · cases h
    exact leaves_self _ _ _ _
  · rcases perform_bind_error_iff.mp h with h | ⟨_, t, hvars, h⟩
    · exact addIntervalVars_leaves h
    · have hgains := (addIntervalVars_moves Gains.adding target v).of_perform hvars
      rcases perform_bind_error_iff.mp h with h | ⟨_, _, _, h⟩
      · rcases exists_round_gains (fun p => submit_moves Gains.adding _ _ _) h with
          ⟨p, hp, t', hmore, hround⟩
        rcases View.mem_nodes_of_backPairs hp with ⟨hu, hv⟩
        have hknown := (knows_of_addIntervalVars hvars p hp).of_isPrefix hmore.vars
        refine leaves_of_row (hgains.trans _ _ _ hmore) (fun hstarts => ?_) hround
        simp [hstarts p.1 hu, hstarts p.2 hv, hknown]
      · cases h

/-! ### Objectives -/

/-- The last node of a block has no bound. -/
def Unbounded (t : Discipline) (v : View α) (cause : SchedulingError α) : Prop :=
  ∃ bounds, t = .alap bounds ∧ ∃ sink ∈ v.sinks, bounds.get? sink.name = none ∧
    cause = .config (.missingSinkBound sink.name)

/-- An objective that needs an interval leaves the model as it was. -/
theorem leaves_of_required {name : String} {obstacle : Obstacle} {named : List (String × α)}
    {direction : Direction} (h : perform (do
      requireVar name obstacle
      BuildM.step (Model.setObjective named direction) : BuildM α Unit) m = (.error cause, m')) :
    Leaves v Expected m cause m' := by
  have hsame : m' = m := by
    rcases perform_bind_error_iff.mp h with hmissing | ⟨_, t, hrequired, hgoal⟩
    · unfold requireVar at hmissing
      rw [perform_bind_of_ok (perform_get m)] at hmissing
      split at hmissing <;> cases hmissing
      rfl
    · rcases perform_requireVar_ok_iff.mp hrequired with ⟨_, rfl⟩
      rcases perform_step_error_iff.mp hgoal with ⟨c, hgoal, _⟩
      exact (Model.perform_setObjective_error hgoal).1
  rw [hsame]
  exact leaves_self _ _ _ _

theorem addObjective_leaves {d : Discipline}
    (h : perform (addObjective d v) m = (.error cause, m')) :
    Leaves v (Unbounded d v) m cause m' := by
  have hsinks : ∀ n ∈ v.sinks, n ∈ v.nodes := fun n hn => (List.mem_filter.mp hn).1
  cases d with
  | asap => exact leaves_of_goal (Gains.refl m) (fun hstarts => startTerms_known hstarts 1) h
  | alap bounds =>
      rcases perform_bind_error_iff.mp h with h | ⟨_, t, hbounds, h⟩
      · rcases exists_round_gains (boundSink_moves Gains.adding bounds) h with
          ⟨sink, hsink, t, hgains, hround⟩
        unfold boundSink at hround
        cases hbound : bounds.get? sink.name with
        | none =>
            rw [hbound] at hround
            cases hround
            exact ⟨hgains, .inr (.inl ⟨bounds, rfl, sink, hsink, hbound, rfl⟩)⟩
        | some bound =>
            rw [hbound] at hround
            exact leaves_of_row hgains
              (fun hstarts => by simp [hstarts sink (hsinks sink hsink)]) hround
      · have hgains := (Moves.forM Gains.refl Gains.trans
          (boundSink_moves Gains.adding bounds) v.sinks).of_perform hbounds
        exact leaves_of_goal hgains (fun hstarts => startTerms_known hstarts (-1)) h
  | noPipeline =>
      rcases declare_error h with ⟨rfl, _⟩ | ⟨_, t, hgains, hknown, h⟩
      · exact leaves_self _ _ _ _
      · rcases perform_bind_error_iff.mp h with h | ⟨_, t', hcovers, h⟩
        · rcases exists_round_gains (coverSink_moves Gains.adding) h with
            ⟨sink, hsink, t', hmore, hround⟩
          refine leaves_of_row (hgains.trans _ _ _ hmore) (fun hstarts => ?_) hround
          simp [hstarts sink (hsinks sink hsink), hknown.of_isPrefix hmore.vars]
        · have hmore := (Moves.forM Gains.refl Gains.trans
            (coverSink_moves Gains.adding) v.sinks).of_perform hcovers
          refine leaves_of_goal (hgains.trans _ _ _ hmore) (fun _ => ?_) h
          simp [hknown.of_isPrefix hmore.vars]
  | pipelined target => cases target <;> exact leaves_of_required h

end Discipline

end CyclePlan
