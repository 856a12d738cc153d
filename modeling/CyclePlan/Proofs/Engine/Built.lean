import CyclePlan.Proofs.Engine.Building
import CyclePlan.Proofs.Engine.Steps

/-!
# Built Engines

What an engine holds once its model is built.

A fresh engine takes exactly the graphs without defects (`load_ok_iff`,
`exists_load`). Building can fail, for as late as possible if a block's last
node has no bound and for a shared interval below one, and for nothing else
(`exists_build`): no variable is declared twice and all names and numbers of the
rows are known. None of this depends on how latencies are represented.

If building succeeds, the engine's model renders the program of its discipline
(`build_renders`), whatever the discipline is. This is where the two halves of
the theory meet: everything before is about steps, and everything after is about
solutions of programs. Programs are about rational latencies.

## Main definitions

* `Engine.fresh`: An engine before its first call.
* `Engine.loadedWith`, `Engine.builtWith`: An engine with a graph, and one with
  a finished model.

## Theorems

* `load_ok_iff`, `exists_load`: Which graphs are taken.
* `exists_build`: Where building succeeds.
* `build_renders`: A finished model renders the program of its discipline.
-/

namespace CyclePlan

namespace Engine

/-- An engine before its first call. -/
def fresh {α : Type} (t : Discipline) (solver : Solver α) (sameBlockOnly : Bool) : Engine α :=
  { discipline := t, solver, sameBlockOnly }

theorem fresh_view_ne {α : Type} {t : Discipline} {solver : Solver α} {sameBlockOnly : Bool}
    (v : View α) : (fresh t solver sameBlockOnly).view ≠ some v := by
  intro h
  cases h

/-- An engine that has taken a graph. -/
def loadedWith {α : Type} (t : Discipline) (solver : Solver α) (sameBlockOnly : Bool) (v : View α)
    (m : Model α) : Engine α :=
  { discipline := t, solver, sameBlockOnly, phase := .allocated, view := some v, model := m }

/-- An engine with a finished model that has not been solved. -/
def builtWith {α : Type} (t : Discipline) (solver : Solver α) (sameBlockOnly : Bool) (v : View α)
    (m : Model α) : Engine α :=
  { discipline := t, solver, sameBlockOnly, phase := .aimed, view := some v, model := m,
    hasDependencies := true, hasIntervals := t.isPipelined }

/-! ### Any latencies -/

section

variable {α : Type} [Scalar α] {t : Discipline} {solver : Solver α} {sameBlockOnly : Bool}
  {g : Graph α} {e : Engine α} {v : View α} {m : Model α}

/-- A graph is taken exactly if it has no defects. -/
theorem load_ok_iff :
    perform (load g) (fresh t solver sameBlockOnly) = (.ok ⟨⟩, e) ↔
      g.defects = [] ∧ ∃ v m, View.ofGraph g = .ok v ∧
        allocate (g.name ++ "_" ++ t.name) v = .ok m ∧
        e = loadedWith t solver sameBlockOnly v m := by
  rw [perform_load_ok_iff]
  constructor
  · rintro ⟨_, hdefects, hrest⟩
    exact ⟨hdefects, hrest⟩
  · rintro ⟨hdefects, hrest⟩
    exact ⟨rfl, hdefects, hrest⟩

variable [Scalar.FiniteWords α]

/-- Nodes with different names all get a timing variable. -/
theorem exists_allocate (name : String) (hnames : (v.nodes.map (·.name)).Nodup) :
    ∃ m, allocate name v = .ok m ∧ m.HasRoles v.startRoles := by
  rcases (Model.HasRoles.named name).declare (declares_addStarts hnames) (by simp) (by simp) with
    ⟨_, m, hrun, hroles⟩
  rw [perform] at hrun
  exact ⟨m, by rw [allocate, hrun], hroles⟩

theorem hasRoles_of_allocate {name : String} (hnames : (v.nodes.map (·.name)).Nodup)
    (h : allocate name v = .ok m) : m.HasRoles v.startRoles := by
  rcases exists_allocate name hnames with ⟨m', hm', hroles⟩
  rwa [Except.ok.inj (h.symm.trans hm')]

theorem exists_load (t : Discipline) (solver : Solver α) (sameBlockOnly : Bool)
    (h : g.defects = []) :
    ∃ e, perform (load g) (fresh t solver sameBlockOnly) = (.ok ⟨⟩, e) := by
  have hformed := Graph.formed_of_defects h
  rcases hformed.exists_view with ⟨v, hview⟩
  rcases exists_allocate (g.name ++ "_" ++ t.name) (hformed.node_names_nodup hview) with
    ⟨m, hm, _⟩
  exact ⟨_, load_ok_iff.mpr ⟨h, v, m, hview, hm, rfl⟩⟩

/-- A graph that was taken can be built if nothing is missing from what the discipline is
    given. The model then has the variables of the discipline. -/
theorem exists_build
    (hload : perform (load g) (fresh t solver sameBlockOnly) = (.ok ⟨⟩, e))
    (ht : ∀ v, View.ofGraph g = .ok v → t.IsBuildable v) :
    ∃ v m, View.ofGraph g = .ok v ∧ m.HasRoles (t.roles v) ∧
      perform build e = (.ok ⟨⟩, builtWith t solver sameBlockOnly v m) := by
  rcases load_ok_iff.mp hload with ⟨hdefects, v, m, hview, hm, rfl⟩
  have hformed := Graph.formed_of_defects hdefects
  have hstarts := hasRoles_of_allocate (hformed.node_names_nodup hview) hm
  have hlatencies := Graph.isFinite_node_of_defects hdefects hview
  have hother : ∀ r ∈ t.auxiliaryRoles v, r ∉ v.startRoles :=
    fun r => Discipline.not_start_of_mem_auxiliaryRoles
  rcases hstarts.declare (declares_addDependencies (v := v)
    (fun p hp => View.mem_nodes_of_forwardPairs (List.mem_of_mem_filter hp)) hlatencies)
    (fun r hr => hr) (by simp) with ⟨_, m₁, hdeps, hroles⟩
  rw [List.append_nil] at hroles
  have hadd : perform (addDependencies sameBlockOnly) (loadedWith t solver sameBlockOnly v m)
      = (.ok _, _) :=
    perform_addDependencies_ok_iff.mpr ⟨.inl rfl, rfl, v, ⟨⟩, m₁, rfl, hdeps, rfl, rfl⟩
  cases hkind : t.isPipelined with
  | false =>
      rcases hroles.declare (Discipline.declares_addObjective_plain hkind (ht v hview))
        (fun r hr => hr) hother with ⟨_, m₂, hobj, hall⟩
      refine ⟨v, m₂, hview, hall, (perform_build_plain_ok_iff hkind).mpr ⟨_, _, hadd, ?_⟩⟩
      refine perform_setObjective_ok_iff.mpr
        ⟨rfl, fun h => ?_, v, ⟨⟩, m₂, rfl, hobj, rfl, ?_⟩
      · exact absurd (hkind.symm.trans h) Bool.false_ne_true
      · simp only [builtWith, loadedWith, hkind]
  | true =>
      rcases t with _ | _ | _ | target <;> cases hkind
      rcases hroles.declare (Discipline.declares_addIntervals (ht v hview)
        (hformed.backPairs_block hview) hlatencies) (fun r hr => hr) hother with
        ⟨k, m₂, hint, hall⟩
      rcases hall.declare (Discipline.declares_addObjective_pipelined (ht v hview))
        (fun r hr => hr) (by simp) with ⟨_, m₃, hobj, hsame⟩
      rw [List.append_nil] at hsame
      refine ⟨v, m₃, hview, hsame, (perform_build_pipelined_ok_iff rfl .addInterval).mpr
        ⟨_, _, hadd, k, _, perform_contributeIntervals_ok_iff.mpr
          ⟨.inr rfl, rfl, v, k, m₂, rfl, hint, rfl, rfl⟩, ?_⟩⟩
      exact perform_setObjective_ok_iff.mpr
        ⟨rfl, fun _ => rfl, v, ⟨⟩, m₃, rfl, hobj, rfl, rfl⟩

end

/-! ### Rational latencies -/

variable {t : Discipline} {solver : Solver Rat} {sameBlockOnly : Bool} {g : Graph Rat}
  {e e' : Engine Rat}

/-- Rational numbers are finite, so only the value of a shared interval matters. -/
theorem isBuildable_of_isValid {target : IntervalTarget} (v : View Rat) (h : target.IsValid) :
    Discipline.IsBuildable v (.pipelined target) := by
  cases target with
  | fixed interval => exact ⟨h, rfl⟩
  | perBlock => exact rfl

/-- The rows that are added for the forward dependencies. -/
theorem perform_emitted_ok_iff {v : View Rat} {m m' : Model Rat} :
    perform ((v.forwardPairs.filter (isEmitted sameBlockOnly)).forM addDependency) m
        = (.ok ⟨⟩, m') ↔
      (∀ p ∈ v.emitted sameBlockOnly, (Row.dependency p).IsKnown m) ∧
        m' = m.withRows ((v.emitted sameBlockOnly).map Row.dependency) :=
  BuildM.perform_forM_addRow_ok_iff (f := Row.dependency)

/-- The forward dependencies of a loaded engine, as growth of its model. -/
theorem dependencies_growsBy {name : String} {v : View Rat} {m m' : Model Rat}
    (hm : (Model.named name : Model Rat).GrowsBy m (v.nodes.map startVariable) [])
    (h : perform ((v.forwardPairs.filter (isEmitted sameBlockOnly)).forM addDependency) m
      = (.ok ⟨⟩, m')) :
    (Model.named name : Model Rat).GrowsBy m' (v.nodes.map startVariable)
      ((v.emitted sameBlockOnly).map Row.dependency) := by
  rcases perform_emitted_ok_iff.mp h with ⟨hknown, rfl⟩
  have hrows := hm.trans (Model.GrowsBy.withRows (m := m)
    ((v.emitted sameBlockOnly).map Row.dependency) fun r hr => by
      rcases List.mem_map.mp hr with ⟨p, hp, rfl⟩
      exact hknown p hp)
  rwa [List.append_nil, List.nil_append] at hrows

/-- The forward dependencies can be added to a loaded engine, with either choice of
    pairs. Its model consists of their rows then. -/
theorem exists_addDependencies
    (hload : perform (load g) (fresh t solver sameBlockOnly) = (.ok ⟨⟩, e)) (blocksOnly : Bool) :
    ∃ v n m, View.ofGraph g = .ok v ∧
      m.Consists ((v.emitted blocksOnly).map Row.dependency) ∧
      perform (addDependencies blocksOnly) e
        = (.ok n, { e with model := m, hasDependencies := true, phase := .constrained }) := by
  rcases load_ok_iff.mp hload with ⟨hdefects, v, m, hview, hm, rfl⟩
  have hformed := Graph.formed_of_defects hdefects
  have hroles := hasRoles_of_allocate (hformed.node_names_nodup hview) hm
  rcases hroles.declare (declares_addDependencies (v := v)
    (fun p hp => View.mem_nodes_of_forwardPairs (List.mem_of_mem_filter hp))
    (Graph.isFinite_node_of_defects hdefects hview)) (fun r hr => hr) (by simp) with
    ⟨_, m', hdeps, _⟩
  refine ⟨v, _, m', hview, ?_, perform_addDependencies_ok_iff.mpr
    ⟨.inl rfl, rfl, v, ⟨⟩, m', rfl, hdeps, rfl, rfl⟩⟩
  exact (dependencies_growsBy (allocate_growsBy hm) hdeps).consists (Model.Consists.named _)

/-- A finished model renders the program of its discipline. -/
theorem build_renders {u : Unit}
    (hload : perform (load g) (fresh t solver sameBlockOnly) = (.ok ⟨⟩, e))
    (hbuild : perform build e = (.ok u, e')) :
    ∃ v m, View.ofGraph g = .ok v ∧ m.Renders (t.program v sameBlockOnly) ∧
      e' = builtWith t solver sameBlockOnly v m := by
  rcases load_ok_iff.mp hload with ⟨_, v, m, hview, hm, rfl⟩
  have hstart := allocate_growsBy hm
  cases ht : t.isPipelined with
  | false =>
      rcases (perform_build_plain_ok_iff ht).mp hbuild with ⟨n, e₁, hadd, hgoal⟩
      rcases perform_addDependencies_ok_iff.mp hadd with ⟨_, _, w, _, m₁, hw, hdeps, _, rfl⟩
      rcases perform_setObjective_ok_iff.mp hgoal with ⟨_, _, w', _, m₂, hw', hobj, _, rfl⟩
      cases hw
      cases hw'
      -- The rows so far and those of the objective are all that the program lists.
      rcases Discipline.addObjective_growsBy ht hobj with ⟨m₃, hgrows, hknown, rfl⟩
      refine ⟨v, _, hview, ((dependencies_growsBy hstart hdeps).trans hgrows).renders hknown, ?_⟩
      simp only [builtWith, loadedWith, ht]
  | true =>
      rcases t with _ | _ | _ | target <;> cases ht
      rcases (perform_build_pipelined_ok_iff rfl .addInterval).mp hbuild with
        ⟨n, e₁, hadd, k, e₂, hintervals, hgoal⟩
      rcases perform_addDependencies_ok_iff.mp hadd with ⟨_, _, w, _, m₁, hw, hdeps, _, rfl⟩
      rcases perform_contributeIntervals_ok_iff.mp hintervals with
        ⟨_, _, w', _, m₂, hw', hint, _, rfl⟩
      rcases perform_setObjective_ok_iff.mp hgoal with ⟨_, _, w'', _, m₃, hw'', hobj, _, rfl⟩
      cases hw
      cases hw'
      cases hw''
      rcases Discipline.addObjective_pipelined hobj with ⟨hknown, rfl⟩
      have hgrows := (dependencies_growsBy hstart hdeps).trans
        (Discipline.addIntervals_growsBy hint)
      exact ⟨v, _, hview, hgrows.renders hknown, rfl⟩

/-- As soon as possible can always be built. -/
theorem exists_build_asap
    (hload : perform (load g) (fresh .asap solver sameBlockOnly) = (.ok ⟨⟩, e)) :
    ∃ e', perform build e = (.ok ⟨⟩, e') := by
  rcases exists_build hload fun _ _ => trivial with ⟨v, m, _, _, hbuild⟩
  exact ⟨_, hbuild⟩

/-- So can overlapping iterations, if a given interval is at least one. -/
theorem exists_build_pipelined {target : IntervalTarget} (hvalid : target.IsValid)
    (hload : perform (load g) (fresh (.pipelined target) solver sameBlockOnly) = (.ok ⟨⟩, e)) :
    ∃ e', perform build e = (.ok ⟨⟩, e') := by
  rcases exists_build hload fun v _ => isBuildable_of_isValid v hvalid with
    ⟨v, m, _, _, hbuild⟩
  exact ⟨_, hbuild⟩

/-- A shared interval can be built from one on. -/
theorem exists_build_fixed {interval : Int} (hpos : 1 ≤ interval)
    (hload : perform (load g) (fresh (.pipelined (.fixed interval)) solver sameBlockOnly)
      = (.ok ⟨⟩, e)) :
    ∃ e', perform build e = (.ok ⟨⟩, e') := by
  have hvalid : (IntervalTarget.fixed interval).IsValid := hpos
  exact exists_build_pipelined hvalid hload

end Engine

end CyclePlan
