import CyclePlan.Proofs.Feasible

/-!
# After a Refusal

What is different after a call that was refused, and what comes of it.

Not everything is as before. A value that is given for the interval replaces the
one that the engine has, before anything is looked at, so it stays even if the
call comes at the wrong time or the value is too small. And a building step that is
refused halfway leaves what it has added.

The rest is left alone: how far the engine has come, the view, the last solution
and its outcome. What stays in the model stands behind what was there, and there
are few reasons for it, as long as no borrower took a timing variable away
(`refused_call_leaves`).

The interval that was taken over matters later. Building asks for it again, so an
engine that was given a value below one can be built before that call, and never
after it (`exists_refused_interval`).

## Theorems

* `perform_setObjective_missing`: Bounds that stay in the model.
* `perform_addInterval_small`: An interval that is refused and taken over.
* `exists_refused_interval`: A refused call that makes building impossible.
* `refused_call_leaves`: What a refused call leaves.
-/

namespace CyclePlan

namespace Engine

variable {α : Type} [Scalar α] {e e' : Engine α} {cause : SchedulingError α}

/-! ### Bounds that stay -/

section

variable {v : View Rat} {bounds : NameMap Int} {done rest : List (View.Node Rat)}
  {sink : View.Node Rat}

/-- The bounds before the one that is missing are in the model when its turn comes. -/
theorem perform_addObjective_missing {m : Model Rat} (hsinks : v.sinks = done ++ sink :: rest)
    (hdone : ∀ n ∈ done, (bounds.get? n.name).isSome) (hmissing : bounds.get? sink.name = none)
    (hstarts : Discipline.StartsKnown v m) :
    perform (Discipline.addObjective (.alap bounds) v) m
      = (.error (.config (.missingSinkBound sink.name)),
          m.withRows (done.map (Row.sinkBound bounds))) := by
  have hnode : ∀ n ∈ done, n ∈ v.nodes := fun n hn =>
    (List.mem_filter.mp (hsinks ▸ List.mem_append_left _ hn)).1
  have hbefore : perform (done.forM (Discipline.boundSink bounds)) m
      = (.ok ⟨⟩, m.withRows (done.map (Row.sinkBound bounds))) := by
    refine (BuildM.perform_forM_row_ok_iff Discipline.perform_boundSink_ok_iff).mpr
      ⟨fun n hn => ⟨hdone n hn, fun x hx => ?_⟩, rfl⟩
    rw [List.mem_singleton.mp hx]
    exact hstarts n (hnode n hn)
  have hstop : perform (Discipline.boundSink bounds sink)
      (m.withRows (done.map (Row.sinkBound bounds)))
        = (.error (.config (.missingSinkBound sink.name)),
            m.withRows (done.map (Row.sinkBound bounds))) := by
    unfold Discipline.boundSink
    rw [hmissing]
    rfl
  have hbounds : perform (v.sinks.forM (Discipline.boundSink bounds)) m
      = (.error (.config (.missingSinkBound sink.name)),
          m.withRows (done.map (Row.sinkBound bounds))) := by
    rw [hsinks, perform_forM_append, perform_bind_of_ok hbefore, perform_forM_cons]
    exact perform_bind_of_error hstop _
  exact perform_bind_of_error hbounds _

/-- So an objective that is refused for a bound leaves the bounds before it. -/
theorem perform_setObjective_missing {e : Engine Rat} (hphase : e.phase = .constrained)
    (hdiscipline : e.discipline = .alap bounds) (hview : e.view = some v) (hstarts : e.HasStarts)
    (hsinks : v.sinks = done ++ sink :: rest)
    (hdone : ∀ n ∈ done, (bounds.get? n.name).isSome)
    (hmissing : bounds.get? sink.name = none) :
    perform setObjective e = (.error (.config (.missingSinkBound sink.name)),
      { e with model := e.model.withRows (done.map (Row.sinkBound bounds)) }) := by
  have hstep := perform_addObjective_missing hsinks hdone hmissing (hstarts v hview)
  rw [← hdiscipline] at hstep
  have hguard : ¬ (e.discipline.isPipelined = true ∧ (!e.hasIntervals) = true) := by
    rw [hdiscipline]
    exact fun h => Bool.false_ne_true h.1
  rw [setObjective, perform_bind_of_ok (perform_get e)]
  simp only [if_neg (not_not.mpr hphase), if_neg hguard]
  exact perform_viewed_of_error hview hstep

end

/-! ### Intervals that are taken over -/

theorem perform_addIntervalVars_small {interval : Int} (hsmall : interval < 1) (v : View α)
    (m : Model α) : perform (Discipline.addIntervalVars (.fixed interval) v) m
      = (.error (.config (.intervalTooSmall interval)), m) := by
  unfold Discipline.addIntervalVars
  simp only [hsmall, if_true]
  rfl

/-- An interval below one is refused before anything is added, if nothing else is. -/
theorem exists_addIntervals_small {interval : Int} (hsmall : interval < 1) (v : View α)
    (m : Model α) :
    ∃ cause, perform (Discipline.addIntervals (.pipelined (.fixed interval)) v) m
        = (.error cause, m) ∧
      ((∀ p ∈ v.backPairs, p.1.block = p.2.block) →
        cause = .config (.intervalTooSmall interval)) := by
  have hvars := perform_addIntervalVars_small hsmall v m
  unfold Discipline.addIntervals
  simp only []
  split
  · next a b hfind =>
    have hleaves : a.block ≠ b.block := by simpa using List.find?_some hfind
    exact ⟨_, rfl, fun hblock => absurd (hblock (a, b) (List.mem_of_find?_eq_some hfind)) hleaves⟩
  · exact ⟨_, perform_bind_of_error hvars _, fun _ => rfl⟩

theorem contributeIntervals_small {interval : Int} (hsmall : interval < 1)
    (h : e.discipline = .pipelined (.fixed interval)) (call : EngineCall) (n : Nat) :
    perform (contributeIntervals call) e ≠ (.ok n, e') := by
  intro hok
  rcases perform_contributeIntervals_ok_iff.mp hok with ⟨_, _, v, b, m, _, hadd, _⟩
  rcases exists_addIntervals_small hsmall v e.model with ⟨cause, hrefused, _⟩
  rw [h, hrefused] at hadd
  cases hadd

/-- Nothing can be built with an interval below one. -/
theorem build_small {interval : Int} (hsmall : interval < 1)
    (h : e.discipline = .pipelined (.fixed interval)) (u : Unit) :
    perform build e ≠ (.ok u, e') := by
  intro hok
  rcases (perform_build_pipelined_ok_iff h .addInterval).mp hok with ⟨_, e₁, hdeps, k, e₂, hadd, _⟩
  exact contributeIntervals_small hsmall ((discipline_of_addDependencies hdeps).trans h) _ _ hadd

/-- In place of a given interval, one below one is refused and taken over all the same. -/
theorem perform_addInterval_small {given interval : Int} {v : View α} (hsmall : interval < 1)
    (h : e.discipline = .pipelined (.fixed given))
    (hphase : e.phase = .allocated ∨ e.phase = .constrained) (hnew : e.hasIntervals = false)
    (hview : e.view = some v) (hblock : ∀ p ∈ v.backPairs, p.1.block = p.2.block) :
    perform (addInterval interval) e = (.error (.config (.intervalTooSmall interval)),
      { e with discipline := .pipelined (.fixed interval) }) := by
  rcases exists_addIntervals_small hsmall v e.model with ⟨cause, hadd, hcause⟩
  rw [hcause hblock] at hadd
  have hguard : ¬ e.hasIntervals = true := Bool.eq_false_iff.mp hnew
  rw [perform_addInterval_fixed h, contributeIntervals, perform_bind_of_ok (perform_get _)]
  simp only [if_pos hphase, if_neg hguard]
  exact perform_viewed_of_error hview hadd

section

variable {solver : Solver Rat} {sameBlockOnly : Bool} {g : Graph Rat} {given interval : Int}

/-- An engine that has taken a graph can be built with the interval that it was made
    for. If it is offered another one below one, it refuses that, and cannot be built
    any more. -/
theorem exists_refused_interval (hdefects : g.defects = []) (hpos : 1 ≤ given)
    (hsmall : interval < 1) :
    ∃ e e', (fresh (.pipelined (.fixed given)) solver sameBlockOnly).afterAll [.load g] = e ∧
      e.discipline = .pipelined (.fixed given) ∧
      perform (addInterval interval) e = (.error (.config (.intervalTooSmall interval)), e') ∧
      e'.discipline = .pipelined (.fixed interval) ∧
      (∃ built, perform build e = (.ok ⟨⟩, built)) ∧
      ∀ built, perform build e' ≠ (.ok ⟨⟩, built) := by
  rcases exists_load (.pipelined (.fixed given)) solver sameBlockOnly hdefects with ⟨e, hload⟩
  rcases load_ok_iff.mp hload with ⟨_, v, m, hview, _, rfl⟩
  have hblock := (Graph.fit_of_defects hdefects).backPairs_block hview
  have hrefused := perform_addInterval_small
    (e := loadedWith (.pipelined (.fixed given)) solver sameBlockOnly v m)
    hsmall rfl (.inl rfl) rfl rfl hblock
  exact ⟨_, _, congrArg Prod.snd hload, rfl, hrefused, rfl, exists_build_fixed hpos hload,
    fun built => build_small hsmall rfl _⟩

end

/-! ### After any calls -/

/-- After any calls on a new engine, a call that is refused changes no more than the
    discipline and the model. The discipline changes by an interval that is taken
    over, and the model gains what the call added before it stopped. -/
theorem refused_call_leaves {t : Discipline} {solver : Solver α} {sameBlockOnly : Bool}
    {rs : List (Request α)} {r : Request α}
    (hrun : (fresh t solver sameBlockOnly).afterAll rs = e) (hr : r ≠ .build)
    (hrefused : r.IsRefused e cause) :
    ∃ m, r.after e = { e with discipline := r.takenOver e.discipline, model := m } ∧
      e.model.Gains m ∧
      (m ≠ e.model → r.StopsHalfway e cause ∨
        ∃ c, cause = .lp c ∧ ((∀ r ∈ rs, r.IsPermitted Model.Keeps) → c.IsNonFinite)) := by
  rcases r.exists_leaves hr hrefused with ⟨m, hafter, hgains, hcause⟩
  refine ⟨m, hafter, hgains, fun hne => (hcause hne).imp_right ?_⟩
  rintro ⟨c, hc, hfinite⟩
  refine ⟨c, hc, fun hrs => hfinite ?_⟩
  rw [← hrun]
  exact afterAll_hasStarts (fun v hv => absurd hv (fresh_view_ne v)) hrs

/-- A loop on its own is to have an interval of two and is offered nought. All that is
    different afterwards is the discipline. -/
theorem refused_call_leaves_selfLoop :
    ∃ (e : Engine Rat) (cause : SchedulingError Rat),
      (fresh (.pipelined (.fixed 2)) oracle true).afterAll [.load Graph.selfLoop] = e ∧
      (Request.addInterval 0).IsRefused e cause ∧
      (Request.addInterval 0).after e = { e with discipline := .pipelined (.fixed 0) } := by
  rcases @exists_refused_interval oracle true _ 2 0 Graph.selfLoop_defects (by decide) (by decide)
    with ⟨e, e', hrun, hdiscipline, hrefused, _⟩
  have hrefused : (Request.addInterval 0).IsRefused e (.config (.intervalTooSmall 0)) :=
    congrArg Prod.fst hrefused
  rcases refused_call_leaves hrun (fun h => by cases h) hrefused with ⟨m, hafter, _, hcause⟩
  have hsame : m = e.model := by
    by_contra hne
    -- The cause is neither one that is noticed halfway nor one of the model.
    rcases hcause hne with hstop | ⟨c, hc, _⟩
    · exact hstop
    · cases hc
  rw [Request.takenOver, hdiscipline, hsame] at hafter
  exact ⟨e, _, hrun, hrefused, hafter⟩

/-- The same loop can be built before it is offered nought, and never after. -/
theorem changed_by_refusal_selfLoop :
    ∃ e e' : Engine Rat,
      (fresh (.pipelined (.fixed 2)) oracle true).afterAll [.load Graph.selfLoop] = e ∧
      perform (addInterval 0) e = (.error (.config (.intervalTooSmall 0)), e') ∧
      e'.discipline ≠ e.discipline ∧ (∃ built, perform build e = (.ok ⟨⟩, built)) ∧
      ∀ built, perform build e' ≠ (.ok ⟨⟩, built) := by
  rcases @exists_refused_interval oracle true _ 2 0 Graph.selfLoop_defects (by decide) (by decide)
    with ⟨e, e', hrun, hdiscipline, hrefused, htaken, hbuild, hstuck⟩
  refine ⟨e, e', hrun, hrefused, ?_, hbuild, hstuck⟩
  rw [htaken, hdiscipline]
  decide

end Engine

end CyclePlan
