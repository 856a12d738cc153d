import CyclePlan.Proofs.Graph.Construction
import CyclePlan.Proofs.Lp.FurtherRows
import CyclePlan.Proofs.Resource.InFlight
import CyclePlan.Proofs.Rollback
import CyclePlan.Proofs.WithinHorizon

/-!
# Ordering

What ordering adds to a model, and what the additions are good for.

Each operation waits for the one `k` places before it in the queue of its class and
block, and that is a row of the same form as a dependency has. The rows are added one
after the other, and their numbers are answered (`perform_addOrdering`). No other
constraint is needed to bound the operations in flight: neither the dependencies nor
the bounds of the variables are, and start cycles need not be whole
(`Engine.ordering_bounds_in_flight`). Latencies may be nothing.

## Main definitions

* `waitingRows`: The rows of the operations that wait.

## Theorems

* `perform_addOrdering`: What ordering adds, and what it answers.
* `Engine.ordering_bounds_in_flight`: No more operations than units are in flight.
-/

namespace CyclePlan

/-- The rows of the operations that wait. -/
def waitingRows (v : View Rat) (limits : Limits) : List Row :=
  (waitingPairs v limits).map Row.dependency

/-! ### What is added -/

variable {h : Handle Rat} {limits : Limits}

theorem waitingRows_known {v : View Rat} {m : Model Rat}
    (hstarts : ∀ n ∈ v.nodes, m.Knows (startVar n.name)) (limits : Limits) :
    ∀ r ∈ waitingRows v limits, r.IsKnown m := by
  intro r hr
  rcases List.mem_map.mp hr with ⟨p, hp, rfl⟩
  rcases mem_nodes_of_waitingPairs hp with ⟨hearlier, hlater⟩
  simp only [Row.IsKnown, Row.dependency, List.forall_mem_cons]
  exact ⟨hstarts _ hlater, hstarts _ hearlier, fun t ht => absurd ht List.not_mem_nil⟩

/-- A handle that submits rows gets the numbers that follow each other. -/
theorem perform_mapM_addConstraint {β : Type} {f : β → Row} {bs : List β}
    (hknown : ∀ b ∈ bs, (f b).IsKnown h.model) :
    perform (bs.mapM fun b =>
        HandleM.onModel (Model.addConstraint (f b).terms (f b).relation (f b).rhs)) h
      = (.ok (List.range' (max h.model.nextConstraint 1) bs.length),
          { h with model := h.model.withRows (bs.map f) }) := by
  induction bs generalizing h with
  | nil => rfl
  | cons b bs ih =>
      rw [List.forall_mem_cons] at hknown
      have hfirst : perform (HandleM.onModel
          (Model.addConstraint (f b).terms (f b).relation (f b).rhs)) h
          = (.ok (max h.model.nextConstraint 1), { h with model := h.model.withRow (f b) }) := by
        rw [perform_handle_onModel,
          Model.perform_addConstraint_ok_iff.mpr ⟨hknown.1, rfl, rfl⟩]
        rfl
      have hnext : max (h.model.withRow (f b)).nextConstraint 1
          = max h.model.nextConstraint 1 + 1 := Nat.max_eq_left (Nat.le_add_left _ _)
      rw [List.mapM_cons, perform_bind_of_ok hfirst,
        perform_bind_of_ok (ih (h := { h with model := h.model.withRow (f b) }) hknown.2)]
      rw [List.length_cons, List.range'_succ]
      simp only [hnext]
      rfl

/-- Where the nodes have their variables, ordering adds its rows and answers their
    numbers. -/
theorem perform_addOrdering (hstarts : ∀ n ∈ h.view.nodes, h.model.Knows (startVar n.name))
    (limits : Limits) :
    perform (addOrdering limits) h
      = (.ok (List.range' (max h.model.nextConstraint 1) (waitingPairs h.view limits).length),
          { h with model := h.model.withRows (waitingRows h.view limits) }) := by
  rw [addOrdering, perform_bind_of_ok (perform_get h)]
  exact perform_mapM_addConstraint (f := Row.dependency) fun p hp =>
    waitingRows_known hstarts limits _ (List.mem_map_of_mem hp)

/-- A constraint is found under its number. -/
theorem Model.IsNumbered.constraint?_eq {α : Type} {m : Model α} (h : m.IsNumbered)
    {c : Nat × Constraint α} (hc : c ∈ m.constraints) : m.constraint? c.1 = some c.2 := by
  rcases List.append_of_mem hc with ⟨before, after, hsplit⟩
  have hascending := h.ascending
  rw [hsplit, List.pairwise_append] at hascending
  have hnone : before.find? (fun d => d.1 == c.1) = none := by
    refine List.find?_eq_none.mpr fun d hd hsame => ?_
    have hlt := hascending.2.2 d hd c List.mem_cons_self
    exact absurd (beq_iff_eq.mp hsame) (Nat.ne_of_lt hlt)
  rw [Model.constraint?, hsplit, List.find?_append, hnone, Option.none_or, List.find?_cons_of_pos]
  · rfl
  · exact beq_self_eq_true c.1

/-! ### Operations in flight -/

/-- Values at which nobody starts too early keep the operations in flight within the
    capacity. -/
theorem countP_inFlight_of_holds {g : Graph Rat} {v : View Rat} {y : String → Rat}
    (hfit : g.Fit) (hview : View.ofGraph g = .ok v)
    (hholds : ∀ r ∈ waitingRows v limits, r.Holds y) {unit : String} {capacity : Nat}
    (hcapacity : limits.capacity? unit = some capacity) (block : Nat) (time : Rat) :
    g.ops.countP (fun op => op.competes block unit &&
      decide (y (startVar op.name) ≤ time ∧ time < y (startVar op.name) + op.latency))
        ≤ capacity := by
  rw [← View.countP_orderedUnits (p := fun n => decide (y (startVar n.name) ≤ time ∧
    time < y (startVar n.name) + n.latency)) hview (fun _ _ => rfl) block unit]
  refine countP_inFlight_le (fun n hn => ?_) (fun p hp => ?_) time
  · have hlatency := hfit.node_latency hview n (View.mem_of_mem_orderedUnits hn)
    linarith
  · -- Only blocks of the view have a queue that is not empty.
    have hearlier := (List.of_mem_zip hp).1
    have hblock : block ∈ v.blocks := by
      have hqueued := (List.mem_filter.mp hearlier).2
      rw [Bool.and_eq_true, beq_iff_eq] at hqueued
      exact v.mem_blocks_iff.mpr ⟨p.1, View.mem_of_mem_orderedUnits hearlier, hqueued.1⟩
    have hwaits : p ∈ waitingPairs v limits := by
      refine List.mem_flatMap.mpr ⟨block, hblock, List.mem_flatMap.mpr ⟨(unit, capacity), ?_, hp⟩⟩
      exact NameMap.get?_eq_some_iff.mp hcapacity
    exact Row.dependency_holds_iff.mp (hholds _ (List.mem_map_of_mem hwaits))

namespace Engine

variable {discipline : Discipline} {solver : Solver Rat} {sameBlockOnly : Bool}
  {e : Engine Rat} {g : Graph Rat}

/-- On every handle that an engine lends for a graph, ordering is accepted. It adds one
    constraint for every operation of a limited class that does not fit into the
    capacity of its block, and any assignment that satisfies these constraints, whatever
    it does to the others, has at no time more operations of a block and class in flight
    than the capacity. -/
theorem ordering_bounds_in_flight (hdefects : g.defects = [])
    (hgraph : View.ofGraph g = .ok h.view)
    (hrun : Reaches Model.Edits (fresh discipline solver sameBlockOnly) e)
    (hview : e.view = some h.view) (hmodel : e.model.Edits h.model) (limits : Limits) :
    ∃ ids h', perform (addResources limits .ordering) h = (.ok ids, h') ∧
      h'.model.vars = h.model.vars ∧
      h'.model.constraints.map (·.1) = h.model.constraints.map (·.1) ++ ids ∧ ids.Nodup ∧
      ids.length = ∑ block ∈ Finset.range g.blocks.length,
        (limits.toList.map fun l => g.ops.countP (·.competes block l.1) - l.2).sum ∧
      ∀ x : Nat → Rat,
        (∀ id ∈ ids, ∃ c, h'.model.constraint? id = some c ∧ c.Holds x) →
        ∀ block unit capacity, limits.capacity? unit = some capacity → ∀ time : Rat,
          g.ops.countP (fun op => op.competes block unit &&
            decide (h'.model.valueOf x (startVar op.name) ≤ time ∧
              time < h'.model.valueOf x (startVar op.name) + op.latency)) ≤ capacity := by
  have hfit := Graph.fit_of_defects hdefects
  have hstarts : ∀ n ∈ h.view.nodes, h.model.Knows (startVar n.name) := fun n hn =>
    ⟨_, startVariable_mem_of_reaches hrun hview hmodel n hn, rfl⟩
  have hadd := perform_addOrdering hstarts limits
  have hconstraints := h.model.withRows_constraints (waitingRows h.view limits)
  have hlength : (waitingRows h.view limits).length = (waitingPairs h.view limits).length :=
    List.length_map _
  have hnumbered : (h.model.withRows (waitingRows h.view limits)).IsNumbered :=
    (hrun.numbered.edits hmodel).edits
      (Model.withRows_edits (waitingRows_known hstarts limits))
  rw [hlength] at hconstraints
  refine ⟨_, _, hadd, h.model.withRows_vars _, ?_, List.nodup_range', ?_,
    fun x hx block unit capacity hcapacity time => ?_⟩
  · simp only []
    rw [hconstraints, List.map_append, List.map_fst_zip]
    rw [List.length_range', List.length_map, hlength]
  · rw [List.length_range']
    exact length_waitingPairs hdefects hgraph limits
  · rw [Model.withRows_valueOf]
    refine countP_inFlight_of_holds hfit hgraph (fun r hr => ?_) hcapacity block time
    rcases h.model.exists_number_of_mem hr with ⟨id, hid, hmem⟩
    rw [hlength] at hid
    rcases hx id hid with ⟨c, hfound, hc⟩
    rw [hnumbered.constraint?_eq hmem] at hfound
    cases hfound
    exact (h.model.stored_holds_iff r x).mp hc

/-- Three additions in two blocks share one adder. Only the two that are in the same
    block have to wait for each other. -/
theorem ordering_bounds_in_flight_additions :
    ∃ (e : Engine Rat) (h h' : Handle Rat) (ids : List Nat),
      Graph.additions.defects = [] ∧ View.ofGraph Graph.additions = .ok h.view ∧
      Reaches Model.Edits (fresh .asap oracle true) e ∧ e.view = some h.view ∧
      e.model.Edits h.model ∧
      perform (addResources Limits.oneAdder .ordering) h = (.ok ids, h') ∧
      h'.model.vars = h.model.vars ∧
      h'.model.constraints.map (·.1) = h.model.constraints.map (·.1) ++ ids ∧ ids.Nodup ∧
      ids.length = 1 ∧
      ∀ x : Nat → Rat,
        (∀ id ∈ ids, ∃ c, h'.model.constraint? id = some c ∧ c.Holds x) →
        ∀ block unit capacity, Limits.oneAdder.capacity? unit = some capacity → ∀ time : Rat,
          Graph.additions.ops.countP (fun op => op.competes block unit &&
            decide (h'.model.valueOf x (startVar op.name) ≤ time ∧
              time < h'.model.valueOf x (startVar op.name) + op.latency)) ≤ capacity := by
  rcases exists_load .asap oracle true Graph.additions_defects with ⟨e₁, hload⟩
  rcases exists_build_asap hload with ⟨e₂, hbuild⟩
  rcases build_renders hload hbuild with ⟨v, m, hgraph, _, rfl⟩
  have hreach := reaches_built Model.Edits hload hbuild
  let h : Handle Rat := (builtWith .asap oracle true v m).handle v
  rcases ordering_bounds_in_flight (h := h) Graph.additions_defects hgraph hreach rfl
    (Model.Edits.refl m) Limits.oneAdder with ⟨ids, h', hadd, hvars, hnumbers, hnodup, hlength, hx⟩
  have hone : ids.length = 1 := hlength.trans (by decide +kernel)
  exact ⟨_, h, h', ids, Graph.additions_defects, hgraph, hreach, rfl, Model.Edits.refl m, hadd,
    hvars, hnumbers, hnodup, hone, hx⟩

end Engine

end CyclePlan
