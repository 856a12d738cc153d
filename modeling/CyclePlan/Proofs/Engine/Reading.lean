import CyclePlan.Proofs.Engine.Steps
import CyclePlan.Proofs.Lp.Rows
import CyclePlan.Proofs.Scalar.Rounding

/-!
# Reading Schedules

How the values of a solution come back as start cycles.

A solution gives values by name, and a schedule keeps the rounded ones of the
timing variables. Where the solution carries an integral point nothing is lost:
rounding a whole number does nothing, and since nodes have different names every
node finds its own cycle again (`get?_startCycles_iff`). What a schedule says about
any other name is nothing at all.

The interval is read the same way, from one of two variables, and whichever of
them the solution has a value for comes first.

## Main definitions

* `Solution.Reads`: A solution has the whole value that a point gives to a
  variable.

## Theorems

* `NameMap.get?_ofList_iff`: Looking up what was listed once.
* `Solution.Carries.reads`: What a carried point is read as.
* `Engine.schedule_solved`, `Engine.schedule_ok_iff`: The schedule of an engine.
* `Engine.get?_startCycles_iff`: Its start cycles.
-/

namespace CyclePlan

/-! ### Maps -/

namespace NameMap

variable {β : Type}

theorem get?_foldl_insert (entries : List (String × β)) (m : NameMap β) {name : String}
    (h : name ∉ entries.map (·.1)) :
    (entries.foldl (fun m e => m.insert e.1 e.2) m).get? name = m.get? name := by
  induction entries generalizing m with
  | nil => rfl
  | cons e rest ih =>
      rw [List.map_cons, List.mem_cons, not_or] at h
      rw [List.foldl_cons, ih _ h.2, get?_insert, if_neg (Ne.symm h.1)]

theorem get?_foldl_insert_of_mem {entries : List (String × β)} (m : NameMap β)
    (hnodup : (entries.map (·.1)).Nodup) {name : String} {value : β}
    (h : (name, value) ∈ entries) :
    (entries.foldl (fun m e => m.insert e.1 e.2) m).get? name = some value := by
  induction entries generalizing m with
  | nil => exact absurd h List.not_mem_nil
  | cons e rest ih =>
      rw [List.map_cons, List.nodup_cons] at hnodup
      rw [List.foldl_cons]
      rcases List.mem_cons.mp h with rfl | h
      · -- The entries that follow have other names.
        rw [get?_foldl_insert rest _ hnodup.1, get?_insert, if_pos rfl]
      · exact ih _ hnodup.2 h

/-- Every name that was listed is found. -/
theorem isSome_get?_foldl_insert (entries : List (String × β)) (m : NameMap β) {name : String}
    (h : name ∈ entries.map (·.1) ∨ (m.get? name).isSome = true) :
    ((entries.foldl (fun m e => m.insert e.1 e.2) m).get? name).isSome = true := by
  induction entries generalizing m with
  | nil => simpa using h
  | cons e rest ih =>
      rw [List.foldl_cons]
      refine ih _ ?_
      by_cases hname : e.1 = name
      · right
        simp [get?_insert, hname]
      · rw [List.map_cons, List.mem_cons] at h
        simp only [get?_insert, hname, if_false]
        exact h.imp_left fun h => h.resolve_left (Ne.symm hname)

/-- Where every name is listed once, looking up finds what was listed. -/
theorem get?_ofList_iff {entries : List (String × β)} (hnodup : (entries.map (·.1)).Nodup)
    {name : String} {value : β} :
    (ofList entries).get? name = some value ↔ (name, value) ∈ entries := by
  constructor
  · intro h
    by_cases hmem : name ∈ entries.map (·.1)
    · rcases List.mem_map.mp hmem with ⟨⟨name', value'⟩, he, rfl⟩
      have hfound := get?_foldl_insert_of_mem empty hnodup he
      have heq : value' = value := Option.some.inj (hfound.symm.trans h)
      rwa [← heq]
    · rw [ofList, get?_foldl_insert _ _ hmem, get?_empty] at h
      cases h
  · exact get?_foldl_insert_of_mem empty hnodup

end NameMap

/-! ### Solutions -/

namespace Solution

variable {s : Solution Rat} {m : Model Rat} {x : Nat → Rat} {name : String}

/-- A solution has a whole value under a name, the one that a point gives to the
    variable. -/
def Reads (s : Solution Rat) (m : Model Rat) (x : Nat → Rat) (name : String) : Prop :=
  ∃ n : Int, m.valueOf x name = n ∧ s.int? name = some n

theorem Carries.value? (h : s.Carries m x) (hk : m.Knows name) :
    s.value? name = some (m.valueOf x name) := by
  rcases m.getElem?_indexOf hk with ⟨v, hv, rfl⟩
  exact h _ v hv

/-- The integer variables of a carried integral point are read off exactly. -/
theorem Carries.reads (h : s.Carries m x) (hx : m.IsIntegral x) {v : Variable Rat}
    (hv : v ∈ m.vars) (hint : v.isIntegral = true) : s.Reads m x v.name := by
  rcases (m.isIntegral_iff x).mp hx v hv hint with ⟨n, hn⟩
  refine ⟨n, hn, ?_⟩
  rw [int?, h.value? ⟨v, hv, rfl⟩, hn, Option.map_some, Scalar.roundInt_intCast]

end Solution

/-! ### Schedules -/

namespace Engine

theorem hasAssignment_outcomeOf {α : Type} (s : Solution α) :
    (outcomeOf s).hasAssignment = s.status.hasAssignment := by
  unfold outcomeOf
  cases s.status <;> rfl

theorem phaseAfter_of_hasAssignment {o : Outcome} (h : o.hasAssignment = true) :
    phaseAfter o = .solved := by
  cases o with
  | optimal => rfl
  | feasible => rfl
  | infeasible => cases h
  | failed _ => cases h

theorem hasAssignment_of_phaseAfter {o : Outcome} (h : phaseAfter o = .solved) :
    o.hasAssignment = true := by
  cases o with
  | optimal => rfl
  | feasible => rfl
  | infeasible => cases h
  | failed _ => cases h

section

variable {α : Type} [Scalar α] {e : Engine α} {s : Solution α} {v : View α} {o : Outcome}

/-- The start cycles that a solution gives to the nodes of a view. -/
def startCycles (s : Solution α) (v : View α) : List (String × Int) :=
  v.nodes.filterMap fun n => (s.int? (startVar n.name)).map (n.name, ·)

/-- The schedule of a solved engine. -/
theorem schedule_solved (hphase : e.phase = .solved) (hs : e.solution = some s)
    (hv : e.view = some v) (ho : e.outcome = some o) :
    e.schedule = .ok {
      outcome := o
      cycles := .ofList (startCycles s v)
      interval := e.achievedInterval?
      objective := s.objective } := by
  rw [schedule, ho]
  simp only [hphase, ne_eq, not_true_eq_false, if_false, solved, hs, hv]
  rfl

/-- A schedule can be read once there is an outcome. It has start cycles if the
    engine is solved, and nothing but the outcome otherwise. -/
theorem schedule_ok_iff {found : Schedule α} :
    e.schedule = .ok found ↔ ∃ o, e.outcome = some o ∧
      ((e.phase ≠ .solved ∧ found = { outcome := o }) ∨
        e.phase = .solved ∧ ∃ s v, e.solution = some s ∧ e.view = some v ∧
          found = {
            outcome := o
            cycles := .ofList (startCycles s v)
            interval := e.achievedInterval?
            objective := s.objective }) := by
  constructor
  · intro h
    cases ho : e.outcome with
    | none =>
        rw [schedule, ho] at h
        cases h
    | some o =>
        refine ⟨o, rfl, ?_⟩
        by_cases hphase : e.phase = .solved
        · right
          -- Without a solution or a view, reading is refused.
          rcases hs : e.solution with _ | s
          · rw [schedule, ho] at h
            simp only [hphase, ne_eq, not_true_eq_false, if_false, solved, hs] at h
            cases h
          rcases hv : e.view with _ | v
          · rw [schedule, ho] at h
            simp only [hphase, ne_eq, not_true_eq_false, if_false, solved, hs, hv] at h
            cases h
          rw [schedule_solved hphase hs hv ho] at h
          exact ⟨hphase, s, v, rfl, rfl, (Except.ok.inj h).symm⟩
        · left
          rw [schedule, ho] at h
          simp only [hphase, ne_eq, not_false_eq_true, if_true] at h
          exact ⟨hphase, (Except.ok.inj h).symm⟩
  · rintro ⟨o, ho, ⟨hphase, rfl⟩ | ⟨hphase, s, v, hs, hv, rfl⟩⟩
    · rw [schedule, ho]
      simp only [hphase, ne_eq, not_false_eq_true, if_true]
      rfl
    · exact schedule_solved hphase hs hv ho

theorem achievedInterval?_solved (hphase : e.phase = .solved) (hs : e.solution = some s) :
    e.achievedInterval? = (s.int? intervalVar <|> s.int? maxIntervalVar) := by
  rw [achievedInterval?, hs]
  simp only [Option.bind_eq_bind, Option.bind_some, hphase, if_true]

/-- The start cycles of a schedule are those of the nodes, under their names. -/
theorem get?_startCycles_iff (hnodup : (v.nodes.map (·.name)).Nodup) {name : String} {c : Int} :
    (NameMap.ofList (startCycles s v)).get? name = some c ↔
      ∃ n ∈ v.nodes, n.name = name ∧ s.int? (startVar name) = some c := by
  -- Nodes without a value drop out, and the names that are left are still distinct.
  have hsub : ((startCycles s v).map (·.1)).Sublist (v.nodes.map (·.name)) := by
    clear hnodup
    rw [startCycles]
    generalize v.nodes = nodes
    induction nodes with
    | nil => exact List.Sublist.refl _
    | cons n nodes ih =>
        rw [List.filterMap_cons]
        cases s.int? (startVar n.name) with
        | none => exact ih.cons _
        | some _ => exact ih.cons_cons _
  rw [NameMap.get?_ofList_iff (hsub.nodup hnodup), startCycles, List.mem_filterMap]
  constructor
  · rintro ⟨n, hn, hc⟩
    rcases Option.map_eq_some_iff.mp hc with ⟨c', hc', heq⟩
    cases heq
    exact ⟨n, hn, rfl, hc'⟩
  · rintro ⟨n, hn, rfl, hc⟩
    exact ⟨n, hn, by rw [hc, Option.map_some]⟩

end

end Engine

end CyclePlan
