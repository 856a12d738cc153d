import CyclePlan.Engine.Basic
import CyclePlan.Proofs.Engine.Declaring
import CyclePlan.Proofs.Graph.View

/-!
# Accepted Steps

The steps of a discipline, as actions that a model accepts.

Every step is followed once, for every number type whose units and words are finite.
What it needs and what it declares is read off its text: rows need the variables
they mention, and only starts, intervals and the latency are ever declared. Beside
names and numbers there is little to go wrong. As late as possible needs a bound for
every last node, a shared interval is at least one, and no back-edge leaves its
block.

## Main definitions

* `Discipline.roles`: The variables of a discipline.
* `Discipline.IsBuildable`: Nothing is missing from what a discipline is given.

## Theorems

* `Engine.declares_addStarts`, `Engine.declares_addDependencies`: The steps that all
  disciplines share.
* `Discipline.declares_addIntervals`, `Discipline.declares_addObjective_plain`,
  `Discipline.declares_addObjective_pipelined`: The steps of a discipline.
-/

namespace CyclePlan

variable {α : Type}

/-- The timing variables of a view. -/
def View.startRoles (v : View α) : List Role := v.nodes.map fun n => .start n.name

namespace View

variable {v : View α}

theorem start_mem_startRoles {n : View.Node α} (h : n ∈ v.nodes) :
    Role.start n.name ∈ v.startRoles := List.mem_map_of_mem h

theorem startRoles_nodup (h : (v.nodes.map (·.name)).Nodup) : v.startRoles.Nodup := by
  have hroles := h.map (f := Role.start) fun a b heq => Role.start.inj heq
  rwa [List.map_map] at hroles

end View

namespace Discipline

/-- The interval variables that a target asks for. -/
def intervalRoles (v : View α) : IntervalTarget → List Role
  | .fixed _ => [.interval]
  | .perBlock => .maxInterval :: v.loopBlocks.map .blockInterval

/-- The variables of a discipline beside the timing variables. -/
def auxiliaryRoles (v : View α) : Discipline → List Role
  | noPipeline => [.maxLatency]
  | pipelined target => intervalRoles v target
  | _ => []

/-- The variables of a discipline. -/
def roles (t : Discipline) (v : View α) : List Role := v.startRoles ++ t.auxiliaryRoles v

/-- Nothing is missing from what a discipline is given, and its numbers are finite. -/
def IsBuildable [Scalar α] (v : View α) : Discipline → Prop
  | asap => True
  | alap bounds => ∀ n ∈ v.sinks, ∃ bound, bounds.get? n.name = some bound ∧
      Scalar.isFinite (Scalar.ofInt bound : α) = true
  | noPipeline => True
  | pipelined (.fixed interval) =>
    1 ≤ interval ∧ Scalar.isFinite (Scalar.ofInt interval : α) = true
  | pipelined .perBlock => Scalar.isFinite (intervalWeight v) = true

variable {v : View α} {target : IntervalTarget}

/-- No interval variable is a timing variable. -/
theorem not_start_of_mem_auxiliaryRoles {t : Discipline} {r : Role}
    (h : r ∈ t.auxiliaryRoles v) : r ∉ v.startRoles := by
  intro hstart
  rcases List.mem_map.mp hstart with ⟨n, _, rfl⟩
  cases t with
  | asap => cases h
  | alap _ => cases h
  | noPipeline => simp [auxiliaryRoles] at h
  | pipelined target => cases target <;> simp [auxiliaryRoles, intervalRoles] at h

/-- Every back pair is relaxed by an interval variable of the target. -/
theorem intervalVarOf_mem_roles (target : IntervalTarget) {p : View.Node α × View.Node α}
    (hp : p ∈ v.backPairs) :
    ∃ r ∈ intervalRoles v target, intervalVarOf target p.1 = r.var := by
  cases target with
  | fixed interval => exact ⟨.interval, List.mem_cons_self, rfl⟩
  | perBlock =>
      refine ⟨.blockInterval p.1.block, List.mem_cons_of_mem _ ?_, rfl⟩
      exact List.mem_map_of_mem (View.block_mem_loopBlocks hp)

theorem perform_requireVar_ok_iff {name : String} {o : Obstacle} {m m' : Model α} :
    perform (requireVar name o) m = (.ok ⟨⟩, m') ↔ m.Knows name ∧ m' = m := by
  rw [requireVar, perform_bind_of_ok (perform_get m), m.knows_iff_isSome]
  cases hid : m.variableId? name with
  | none =>
      constructor
      · intro h
        cases h
      · rintro ⟨h, _⟩
        cases h
  | some id =>
      constructor
      · intro h
        cases h
        exact ⟨rfl, rfl⟩
      · rintro ⟨_, rfl⟩
        rfl

theorem declares_requireVar {name : String} {o : Obstacle} {r : Role} {old : List Role}
    (hr : r ∈ old) (hname : name = r.var) :
    Declares (.alone α) old [] (requireVar name o : BuildM α Unit) := by
  intro m hm hknown _
  have hreq := perform_requireVar_ok_iff (o := o).mpr ⟨hname ▸ hknown r hr, rfl⟩
  refine ⟨⟨⟩, m, hreq, hm, fun _ => ?_⟩
  simp

end Discipline

variable [Scalar α] {v : View α}

/-- A lower bound alone is no obstacle if it is defined. -/
theorem boundsError?_lower {name : String} {l : α} (h : Scalar.isNaN l = false) :
    Model.boundsError? name (some l) none = none := by
  simp [Model.boundsError?, h]

variable [Scalar.FiniteWords α]

theorem boundsError?_binary (name : String) :
    Model.boundsError? name (some (0 : α)) (some 1) = none := by
  simp [Model.boundsError?, Scalar.FiniteWords.zero_defined, Scalar.FiniteWords.one_defined,
    Scalar.FiniteWords.not_one_lt_zero]

/-! ### Starts and dependencies -/

namespace Engine

/-- Nodes with different names all get a timing variable. -/
theorem declares_addStarts (hnames : (v.nodes.map (·.name)).Nodup) :
    Declares (.alone α) [] v.startRoles (v.nodes.forM addStart : ModelM α Unit) := by
  have hround : ∀ n ∈ v.nodes,
      Declares (.alone α) [] [Role.start n.name] (addStart n : ModelM α Unit) := fun n _ =>
    (Declares.addVariable (.start n.name)
      (boundsError?_lower Scalar.FiniteWords.zero_defined)).followed fun _ => .pure _
  have hloop := Declares.forM hround (by
    rw [← List.map_eq_flatMap]
    exact View.startRoles_nodup hnames)
  rwa [← List.map_eq_flatMap] at hloop

/-- Dependencies between nodes are accepted. -/
theorem declares_addDependencies {pairs : List (View.Node α × View.Node α)}
    (hpairs : ∀ p ∈ pairs, p.1 ∈ v.nodes ∧ p.2 ∈ v.nodes)
    (hlatencies : ∀ n ∈ v.nodes, Scalar.isFinite n.latency = true) :
    Declares (.alone α) v.startRoles [] (pairs.forM addDependency) := by
  refine Declares.forM_nil fun p hp => ?_
  rcases hpairs p hp with ⟨ha, hb⟩
  exact (Declares.addDifference .ge (View.start_mem_startRoles hb) (View.start_mem_startRoles ha)
    (hlatencies _ ha)).step.followed fun _ => .pure _

end Engine

/-! ### Intervals -/

namespace Discipline

variable {target : IntervalTarget}

theorem declares_intervalVariable {old : List Role} (r : Role) :
    Declares (.alone α) old [r]
      (BuildM.step (Model.addVariable r.var (some (1 : α)) none .integer)) :=
  (Declares.addVariable r (boundsError?_lower Scalar.FiniteWords.one_defined)).step

theorem declares_addBlockInterval (b : Nat) :
    Declares (.alone α) [.maxInterval] [.blockInterval b] (addBlockInterval b : BuildM α Unit) := by
  refine (declares_intervalVariable (.blockInterval b)).followed fun _ => ?_
  exact (Declares.addDifference (a := .maxInterval) (b := .blockInterval b) .ge
    List.mem_cons_self (by simp) Scalar.FiniteWords.zero).step.followed fun _ => .pure _

/-- The interval variables are accepted, a shared interval from one on. -/
theorem declares_addIntervalVars (h : IsBuildable v (.pipelined target)) :
    Declares (.alone α) [] (intervalRoles v target) (addIntervalVars target v) := by
  cases target with
  | fixed interval =>
      rcases h with ⟨hpos, hfinite⟩
      rw [addIntervalVars]
      refine Declares.ite (Int.not_lt.mpr hpos) ?_
      refine (declares_intervalVariable .interval).followed fun _ => ?_
      refine (Declares.addConstraint .eq ?_ ?_ hfinite).step.followed fun _ => .pure _
      · exact List.forall_mem_singleton.mpr ⟨.interval, List.mem_cons_self, rfl⟩
      · exact List.forall_mem_singleton.mpr Scalar.FiniteUnits.one
  | perBlock =>
      have hblocks : Declares (.alone α) ([] ++ [Role.maxInterval])
          (v.loopBlocks.map .blockInterval) (v.loopBlocks.forM addBlockInterval) := by
        rw [List.map_eq_flatMap]
        refine Declares.forM (fun b _ => declares_addBlockInterval b) ?_
        rw [← List.map_eq_flatMap]
        exact v.loopBlocks_nodup.map fun a b heq => Role.blockInterval.inj heq
      exact (declares_intervalVariable .maxInterval).bind (fun _ => hblocks) (by simp)

/-- So are the interval constraints, where back-edges stay in their blocks. -/
theorem declares_addIntervals (h : IsBuildable v (.pipelined target))
    (hblock : ∀ p ∈ v.backPairs, p.1.block = p.2.block)
    (hlatencies : ∀ n ∈ v.nodes, Scalar.isFinite n.latency = true) :
    Declares (.alone α) v.startRoles (intervalRoles v target)
      (addIntervals (.pipelined target) v) := by
  rw [addIntervals]
  split
  · next a b hfind =>
      have hleaves := List.find?_some hfind
      exact absurd (hblock _ (List.mem_of_find?_eq_some hfind)) (bne_iff_ne.mp hleaves)
  · refine ((declares_addIntervalVars h).mono (by simp)).followed fun _ => ?_
    refine (Declares.forM_nil fun p hp => ?_).followed fun _ => .pure _
    rcases View.mem_nodes_of_backPairs hp with ⟨ha, hb⟩
    rcases intervalVarOf_mem_roles target hp with ⟨r, hr, hvar⟩
    refine (Declares.addConstraint .ge ?_ ?_ (hlatencies _ ha)).step.followed fun _ => .pure _
    · exact List.forall_mem_cons.mpr
        ⟨⟨_, List.mem_append_left _ (View.start_mem_startRoles hb), rfl⟩,
          List.forall_mem_cons.mpr ⟨⟨_, List.mem_append_left _ (View.start_mem_startRoles ha), rfl⟩,
            List.forall_mem_singleton.mpr ⟨r, List.mem_append_right _ hr, hvar⟩⟩⟩
    · have hdistance := Scalar.FiniteWords.word (α := α) loopDistance (by decide)
      exact List.forall_mem_cons.mpr ⟨Scalar.FiniteUnits.one, List.forall_mem_cons.mpr
        ⟨Scalar.FiniteUnits.neg_one, List.forall_mem_singleton.mpr hdistance⟩⟩

/-! ### Objectives -/

omit [Scalar.FiniteWords α] in
/-- The sum of all starts, together with further terms. -/
theorem declares_setGoal {old : List Role} {c : α} {more : List (String × α)}
    (hstarts : ∀ r ∈ v.startRoles, r ∈ old) (hc : Scalar.isFinite c = true)
    (hmore : ∀ t ∈ more, (∃ r ∈ old, t.1 = r.var) ∧ Scalar.isFinite t.2 = true) :
    Declares (.alone α) old []
      (BuildM.step (Model.setObjective (startTerms v c ++ more) .minimize)) := by
  refine (Declares.setObjective .minimize ?_ ?_).step
  · rw [List.forall_mem_append, startTerms, List.forall_mem_map]
    exact ⟨fun n hn => ⟨_, hstarts _ (View.start_mem_startRoles hn), rfl⟩,
      fun t ht => (hmore t ht).1⟩
  · rw [List.forall_mem_append, startTerms, List.forall_mem_map]
    exact ⟨fun _ _ => hc, fun t ht => (hmore t ht).2⟩

omit [Scalar.FiniteWords α] in
theorem declares_setStarts {c : α} (hc : Scalar.isFinite c = true) :
    Declares (.alone α) v.startRoles []
      (BuildM.step (Model.setObjective (startTerms v c) .minimize)) := by
  have hnone : ∀ t ∈ ([] : List (String × α)),
      (∃ r ∈ v.startRoles, t.1 = r.var) ∧ Scalar.isFinite t.2 = true := by simp
  have hgoal := declares_setGoal (v := v) (fun r hr => hr) hc hnone
  rwa [List.append_nil] at hgoal

theorem declares_boundSink {bounds : NameMap Int} {n : View.Node α} (hn : n ∈ v.nodes)
    (hbound : ∃ bound, bounds.get? n.name = some bound ∧
      Scalar.isFinite (Scalar.ofInt bound : α) = true) :
    Declares (.alone α) v.startRoles [] (boundSink bounds n) := by
  rcases hbound with ⟨bound, hget, hfinite⟩
  rw [boundSink, hget]
  refine (Declares.addConstraint .le ?_ ?_ hfinite).step.followed fun _ => .pure _
  · exact List.forall_mem_singleton.mpr ⟨_, View.start_mem_startRoles hn, rfl⟩
  · exact List.forall_mem_singleton.mpr Scalar.FiniteUnits.one

theorem declares_coverSink {n : View.Node α} (hn : n ∈ v.nodes) :
    Declares (.alone α) (v.startRoles ++ [.maxLatency]) [] (coverSink n) := by
  have hstart := List.mem_append_left [Role.maxLatency] (View.start_mem_startRoles hn)
  exact (Declares.addDifference (a := .maxLatency) .ge (by simp) hstart
    Scalar.FiniteWords.zero).step.followed fun _ => .pure _

/-- What a plain discipline adds is accepted once the starts are there. -/
theorem declares_addObjective_plain {t : Discipline} (ht : t.isPipelined = false)
    (h : t.IsBuildable v) :
    Declares (.alone α) v.startRoles (t.auxiliaryRoles v) (t.addObjective v) := by
  have hnodes : ∀ n ∈ v.sinks, n ∈ v.nodes := fun n hn => (List.mem_filter.mp hn).1
  cases t with
  | asap =>
      exact declares_setStarts Scalar.FiniteUnits.one
  | alap bounds =>
      exact (Declares.forM_nil fun n hn => declares_boundSink (hnodes n hn) (h n hn)).andThen
        fun _ => declares_setStarts Scalar.FiniteUnits.neg_one
  | noPipeline =>
      refine (Declares.addVariable .maxLatency
        (boundsError?_lower Scalar.FiniteWords.zero_defined)).step.followed fun _ => ?_
      refine (Declares.forM_nil fun n hn => declares_coverSink (hnodes n hn)).andThen fun _ => ?_
      refine (Declares.setObjective .minimize ?_ ?_).step
      · exact List.forall_mem_singleton.mpr ⟨.maxLatency, by simp, rfl⟩
      · exact List.forall_mem_singleton.mpr Scalar.FiniteUnits.one
  | pipelined target => cases ht

/-- With overlap, the objective is accepted once the intervals are there. -/
theorem declares_addObjective_pipelined (h : IsBuildable v (.pipelined target)) :
    Declares (.alone α) (v.startRoles ++ intervalRoles v target) []
      (addObjective (.pipelined target) v) := by
  cases target with
  | fixed interval =>
      refine (declares_requireVar (r := .interval) (by simp [intervalRoles]) rfl).andThen
        fun _ => ?_
      refine declares_setGoal (fun r hr => List.mem_append_left _ hr) Scalar.FiniteUnits.one ?_
      exact List.forall_mem_singleton.mpr
        ⟨⟨.interval, by simp [intervalRoles], rfl⟩, Scalar.FiniteUnits.one⟩
  | perBlock =>
      refine (declares_requireVar (r := .maxInterval) (by simp [intervalRoles]) rfl).andThen
        fun _ => ?_
      refine declares_setGoal (fun r hr => List.mem_append_left _ hr) Scalar.FiniteUnits.one ?_
      exact List.forall_mem_singleton.mpr ⟨⟨.maxInterval, by simp [intervalRoles], rfl⟩, h⟩

end Discipline

end CyclePlan
