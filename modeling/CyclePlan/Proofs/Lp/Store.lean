import Mathlib.Data.List.Forall2
import CyclePlan.Proofs.Lp.Rows
import CyclePlan.Proofs.Scalar.Comparison

/-!
# A Model as a Store

What calls put into a model is what is there.

A model is used by calls that declare variables, submit and remove constraints and set
the objective, in any order, and each of them may be refused. The calls with their
answers are a record, from which everything that should be in the model can be read off
without looking at the model: the variables that were declared, the constraints that
were submitted and not removed since, the last objective. `Reflects` says that the model
is that record. Every call keeps it so (`Reflects.after`), whether it is accepted or
refused.

Numbers are part of the record. Constraints are numbered from one in the order in which
they were accepted, so a call that is refused takes no number, and a number that was
removed is not given out again.

Terms are stored merged. `IsMerged` says what that leaves of them: every variable once,
in order, and no zeros. Under any reading of coefficients as rationals in which sums are
exact, the stored terms have the value of those that were submitted.

## Main definitions

* `Model.Call`, `Model.Event`: A call, and a call with its answer.
* `Model.events`, `Model.afterCalls`: What a sequence of calls leads to.
* `Model.Record`, `Model.record`, `Model.Record.live`: What should be in the model.
* `Model.IsMerged`: Terms are those that were submitted, merged.
* `Model.Reflects`: The model is what the record says.

## Theorems

* `Model.isMerged_of_collect`: Terms are merged when they are stored.
* `Model.after_of_refused`: A refused call changes nothing.
* `Model.Reflects.after`: Every call keeps the model and the record in agreement.
* `Model.exists_newer`: Constraints that are not removed stay as they are.
* `Model.calls_reflected`: So do all calls.
-/

namespace CyclePlan

namespace Scalar

/-- Terms with their coefficients read as rationals. -/
def readTerms {α κ : Type} (read : α → Rat) (terms : List (κ × α)) : List (κ × Rat) :=
  terms.map fun t => (t.1, read t.2)

end Scalar

open Scalar

namespace Model

/-! ### Calls and their record -/

/-- A call on a model. -/
inductive Call (α : Type) where
  | addVariable (name : String) (lower upper : Option α) (kind : VariableKind)
  | addConstraint (named : List (String × α)) (relation : Relation) (rhs : α)
  | removeConstraint (id : Nat)
  | setObjective (named : List (String × α)) (direction : Direction)

/-- What a call answers if it is accepted. -/
inductive Answer (α : Type) where
  | variable (id : Nat)
  | constraint (id : Nat)
  | removed (c : Constraint α)
  | done

/-- A call with its answer. -/
structure Event (α : Type) where
  call : Call α
  answer : Except (ModelError α) (Answer α)

/-- A constraint as it was submitted, with the number that was answered. -/
structure Submission (α : Type) where
  id : Nat
  named : List (String × α)
  relation : Relation
  rhs : α

variable {α : Type} [Scalar α]

namespace Call

/-- The action of a call. -/
def act : Call α → ModelM α (Answer α)
  | addVariable name lower upper kind => do
    return .variable (← Model.addVariable name lower upper kind)
  | addConstraint named relation rhs => do
    return .constraint (← Model.addConstraint named relation rhs)
  | removeConstraint id => do return .removed (← Model.removeConstraint id)
  | setObjective named direction => do
    Model.setObjective named direction
    return .done

/-- What a call on a model answers. -/
def answer (m : Model α) (call : Call α) : Except (ModelError α) (Answer α) :=
  (perform call.act m).1

/-- The model after a call, whether it was refused or not. -/
def after (m : Model α) (call : Call α) : Model α := (perform call.act m).2

end Call

/-- The model after several calls. -/
def afterCalls (m : Model α) (calls : List (Call α)) : Model α := calls.foldl Call.after m

/-- Several calls with their answers. -/
def events (m : Model α) : List (Call α) → List (Event α)
  | [] => []
  | call :: calls => ⟨call, call.answer m⟩ :: events (call.after m) calls

/-- A model as it is made, with a name or without. -/
def initial : Option String → Model α
  | some name => named name
  | none => {}

/-- What accepted calls have brought about. -/
structure Record (α : Type) where
  /-- The variables that were declared, with the numbers that were answered. -/
  declared : List (Variable α × Nat) := []
  submitted : List (Submission α) := []
  /-- The numbers of the constraints that were removed. -/
  removed : List Nat := []
  /-- The objective that was set last. -/
  aim : Option (Direction × List (String × α)) := none

namespace Record

/-- The record with one more call. A call that was refused leaves no trace. -/
def note (r : Record α) : Event α → Record α
  | ⟨.addVariable name lower upper kind, .ok (.variable id)⟩ =>
    { r with declared := r.declared ++ [(variableOf name lower upper kind, id)] }
  | ⟨.addConstraint named relation rhs, .ok (.constraint id)⟩ =>
    { r with submitted := r.submitted ++ [⟨id, named, relation, rhs⟩] }
  | ⟨.removeConstraint id, .ok _⟩ => { r with removed := r.removed ++ [id] }
  | ⟨.setObjective named direction, .ok _⟩ => { r with aim := some (direction, named) }
  | _ => r

omit [Scalar α] in
/-- The constraints that were submitted and not removed. -/
def live (r : Record α) : List (Submission α) :=
  r.submitted.filter fun s => !r.removed.contains s.id

theorem note_refused (r : Record α) (call : Call α) (cause : ModelError α) :
    r.note ⟨call, .error cause⟩ = r := by
  cases call <;> rfl

end Record

/-- The record of several calls. -/
def record (m : Model α) (calls : List (Call α)) : Record α := (m.events calls).foldl Record.note {}

/-! ### Merged terms -/

omit [Scalar α] in
/-- Values by number and values by name are those of the same assignment. -/
def Agrees (m : Model α) (x : Nat → Rat) (y : String → Rat) : Prop :=
  ∀ name i, m.variableId? name = some i → y name = x i

/-- Terms are those that were submitted by name, merged. -/
structure IsMerged (m : Model α) (named : List (String × α)) (terms : List (Nat × α)) : Prop where
  known : ∀ t ∈ named, m.Knows t.1
  inside : ∀ t ∈ terms, t.1 < m.vars.length
  ascending : terms.Pairwise fun s t => s.1 < t.1
  nonzero : ∀ t ∈ terms, (t.2 != 0) = true
  /-- Read as rationals, they have the same value. -/
  value : ∀ read : α → Rat, IsExact read → ∀ x y, m.Agrees x y →
    evaluate (readTerms read terms) x = Row.sum (readTerms read named) y

variable {m m' : Model α} {named : List (String × α)} {terms merged : List (Nat × α)}

omit [Scalar α] in
theorem variableId?_of_isPrefix (h : m.vars <+: m'.vars) {name : String} {i : Nat}
    (hi : m.variableId? name = some i) : m'.variableId? name = some i := by
  rcases h with ⟨more, hmore⟩
  rw [variableId?, ← hmore, List.findIdx?_append]
  rw [variableId?] at hi
  rw [hi, Option.some_or]

omit [Scalar α] in
/-- Names are distinct, so a name leads to the one variable that has it. -/
theorem variableId?_iff {name : String} {i : Nat} :
    m.variableId? name = some i ↔ ∃ v, m.vars[i]? = some v ∧ v.name = name := by
  rw [variableId?, List.findIdx?_eq_some_iff_getElem]
  constructor
  · rintro ⟨hi, hname, _⟩
    exact ⟨_, List.getElem?_eq_getElem hi, beq_iff_eq.mp hname⟩
  · rintro ⟨v, hv, rfl⟩
    rcases List.getElem?_eq_some_iff.mp hv with ⟨hi, rfl⟩
    refine ⟨hi, beq_self_eq_true _, fun j hj hsame => ?_⟩
    -- An earlier variable of the same name would make the names repeat.
    have hi' : j < (m.vars.map (·.name)).length := by
      rw [List.length_map]
      exact hj.trans hi
    have hplace : (m.vars.map (·.name))[j]? = (m.vars.map (·.name))[i]? := by
      rw [List.getElem?_map, List.getElem?_map, hv, List.getElem?_eq_getElem (hj.trans hi)]
      exact congrArg some (beq_iff_eq.mp hsame)
    exact Nat.ne_of_lt hj ((List.getElem?_inj hi' m.distinct).mp hplace)

theorem IsMerged.of_isPrefix (h : m.IsMerged named terms) (hvars : m.vars <+: m'.vars) :
    m'.IsMerged named terms where
  known t ht := (h.known t ht).of_isPrefix hvars
  inside t ht := Nat.lt_of_lt_of_le (h.inside t ht) hvars.length_le
  ascending := h.ascending
  nonzero := h.nonzero
  value read hread x y hagrees := h.value read hread x y fun name i hi =>
    hagrees name i (variableId?_of_isPrefix hvars hi)

theorem addTerm_ascending (v : Nat) (c : α) (h : terms.Pairwise fun s t => s.1 < t.1) :
    (addTerm v c terms).Pairwise fun s t => s.1 < t.1 := by
  induction terms with
  | nil => exact List.pairwise_singleton _ _
  | cons t rest ih =>
      rcases List.pairwise_cons.mp h with ⟨hfirst, hrest⟩
      rw [addTerm]
      split
      · exact List.pairwise_cons.mpr ⟨hfirst, hrest⟩
      · next hne =>
        split
        · next hlt =>
          refine List.pairwise_cons.mpr ⟨fun s hs => ?_, h⟩
          rcases List.mem_cons.mp hs with rfl | hs
          · exact hlt
          · exact hlt.trans (hfirst s hs)
        · next hnlt =>
          refine List.pairwise_cons.mpr ⟨fun s hs => ?_, ih hrest⟩
          rcases mem_addTerm hs with heq | ⟨s', hs', heq⟩
          · rw [heq]
            exact Nat.lt_of_le_of_ne (Nat.le_of_not_lt hnlt) hne
          · rw [heq]
            exact hfirst s' hs'

theorem readTerms_addTerm {read : α → Rat} (hread : IsExact read) (v : Nat) (c : α)
    (terms : List (Nat × α)) :
    readTerms read (addTerm v c terms) = addTerm v (read c) (readTerms read terms) := by
  induction terms with
  | nil => rfl
  | cons t rest ih =>
      simp only [readTerms, List.map_cons, addTerm] at ih ⊢
      split
      · rw [List.map_cons, hread.add]
      · split
        · rfl
        · rw [List.map_cons, ih]

theorem evaluate_readTerms_filter {read : α → Rat} (hread : IsExact read)
    (terms : List (Nat × α)) (x : Nat → Rat) :
    evaluate (readTerms read (terms.filter fun t => t.2 != 0)) x
      = evaluate (readTerms read terms) x := by
  induction terms with
  | nil => rfl
  | cons t rest ih =>
      rw [List.filter_cons]
      split
      · rw [readTerms, readTerms, List.map_cons, List.map_cons, evaluate_cons, evaluate_cons]
        exact congrArg _ ih
      · next hzero =>
        have hread₀ := hread.zero t.2 (Bool.eq_false_iff.mpr hzero)
        rw [ih, readTerms, readTerms, List.map_cons, evaluate_cons, hread₀, zero_mul, zero_add]

theorem collectTerm_ok {t : String × α} (h : m.collectTerm terms t = .ok merged) :
    ∃ v, m.variableId? t.1 = some v ∧ merged = addTerm v t.2 terms := by
  rw [collectTerm] at h
  split at h
  · cases h
  · next v hv =>
    split at h
    · cases h
      exact ⟨v, hv, rfl⟩
    · cases h

/-- Terms that are merged one after the other stay in order, and each of them adds its
    value. -/
theorem foldlM_collectTerm_ok (h : named.foldlM m.collectTerm terms = .ok merged)
    (hascending : terms.Pairwise fun s t => s.1 < t.1) :
    (∀ t ∈ named, m.Knows t.1) ∧ merged.Pairwise (fun s t => s.1 < t.1) ∧
      ∀ read : α → Rat, IsExact read → ∀ x y, m.Agrees x y →
        evaluate (readTerms read merged) x
          = Row.sum (readTerms read named) y + evaluate (readTerms read terms) x := by
  induction named generalizing terms with
  | nil =>
      cases h
      refine ⟨nofun, hascending, fun read _ x y _ => ?_⟩
      exact (zero_add _).symm
  | cons t rest ih =>
      rw [List.foldlM_cons] at h
      cases hfirst : m.collectTerm terms t with
      | error _ =>
          rw [hfirst] at h
          cases h
      | ok next =>
          rw [hfirst] at h
          rcases collectTerm_ok hfirst with ⟨v, hv, rfl⟩
          -- The rest is merged into terms that have the first one in them and are in order.
          rcases ih h (addTerm_ascending v t.2 hascending) with ⟨hknown, hpairwise, hvalue⟩
          have hfound : m.Knows t.1 := (m.knows_iff_isSome t.1).mpr (Option.isSome_of_eq_some hv)
          refine ⟨List.forall_mem_cons.mpr ⟨hfound, hknown⟩, hpairwise,
            fun read hread x y hagrees => ?_⟩
          rw [hvalue read hread x y hagrees, readTerms_addTerm hread, evaluate_addTerm,
            ← hagrees t.1 v hv]
          simp only [Row.sum, readTerms, List.map_cons, List.sum_cons]
          ring

/-- Terms are merged when they are stored. -/
theorem isMerged_of_collect (h : m.collect named = .ok terms) : m.IsMerged named terms := by
  have hinside := lt_of_collect h
  rw [collect] at h
  cases hmerged : named.foldlM m.collectTerm [] with
  | error _ =>
      rw [hmerged] at h
      cases h
  | ok merged =>
      rw [hmerged] at h
      cases h
      rcases foldlM_collectTerm_ok hmerged List.Pairwise.nil with ⟨hknown, hascending, hvalue⟩
      refine ⟨hknown, hinside, hascending.filter _, fun t ht => (List.mem_filter.mp ht).2,
        fun read hread x y hagrees => ?_⟩
      rw [evaluate_readTerms_filter hread, hvalue read hread x y hagrees]
      exact add_zero _

/-! ### What a call does -/

/-- An action whose answer is passed on by another name. -/
theorem perform_map {ε σ β γ : Type} (act : ExceptT ε (StateM σ) β) (f : β → γ) (s : σ) :
    perform (do return f (← act)) s = ((perform act s).1.map f, (perform act s).2) := by
  rw [perform_bind]
  rcases perform act s with ⟨answer, t⟩
  cases answer <;> rfl

omit [Scalar α] in
theorem perform_removeConstraint_of_missing {id : Nat} (h : m.constraint? id = none) :
    perform (removeConstraint id) m = (.error (.unknownConstraint id), m) := by
  rw [removeConstraint, perform_bind_of_ok (perform_get m)]
  simp only [h]
  rfl

/-- What an accepted call answers and does. -/
inductive Call.Accepted (m : Model α) : Call α → Answer α → Model α → Prop
  | declared (name : String) (lower upper : Option α) (kind : VariableKind)
    (fresh : m.variableId? (variableOf name lower upper kind).name = none)
    (hbounds : boundsError? name (variableOf name lower upper kind).lower
      (variableOf name lower upper kind).upper = none) :
    Accepted m (.addVariable name lower upper kind) (.variable m.vars.length)
      (m.withVariable (variableOf name lower upper kind) fresh)
  | submitted (named : List (String × α)) (relation : Relation) (rhs : α)
    (terms : List (Nat × α)) (hcollect : m.collect named = .ok terms) :
    Accepted m (.addConstraint named relation rhs) (.constraint (max m.nextConstraint 1))
      { m with
        constraints := m.constraints ++ [(max m.nextConstraint 1, ⟨terms, relation, rhs⟩)]
        nextConstraint := max m.nextConstraint 1 + 1 }
  | removed (id : Nat) (c : Constraint α) (hfound : m.constraint? id = some c) :
    Accepted m (.removeConstraint id) (.removed c)
      { m with constraints := m.constraints.filter fun d => d.1 != id }
  | aimed (named : List (String × α)) (direction : Direction) (terms : List (Nat × α))
    (hcollect : m.collect named = .ok terms) :
    Accepted m (.setObjective named direction) .done { m with objective := { direction, terms } }

/-- A call is refused and changes nothing, or it is accepted. -/
theorem Call.refused_or_accepted (m : Model α) (call : Call α) :
    (∃ cause, call.answer m = .error cause ∧ call.after m = m) ∨
      ∃ a, call.answer m = .ok a ∧ Accepted m call a (call.after m) := by
  cases call with
  | addVariable name lower upper kind =>
      rw [answer, after, act, perform_map]
      rcases h : perform (Model.addVariable name lower upper kind) m with ⟨result, m'⟩
      cases result with
      | error cause => exact .inl ⟨cause, rfl, (perform_addVariable_error h).1⟩
      | ok id =>
          rcases perform_addVariable_ok h with ⟨rfl, hbounds, fresh, rfl⟩
          exact .inr ⟨_, rfl, .declared name lower upper kind fresh hbounds⟩
  | addConstraint named relation rhs =>
      rw [answer, after, act, perform_map]
      rcases h : perform (Model.addConstraint named relation rhs) m with ⟨result, m'⟩
      cases result with
      | error cause => exact .inl ⟨cause, rfl, (perform_addConstraint_error h).1⟩
      | ok id =>
          rcases perform_addConstraint_ok h with ⟨terms, hcollect, rfl, rfl⟩
          exact .inr ⟨_, rfl, .submitted named relation rhs terms hcollect⟩
  | removeConstraint id =>
      rw [answer, after, act, perform_map]
      cases h : m.constraint? id with
      | none =>
          rw [perform_removeConstraint_of_missing h]
          exact .inl ⟨_, rfl, rfl⟩
      | some c =>
          rw [perform_removeConstraint_of_found h]
          exact .inr ⟨_, rfl, .removed id c h⟩
  | setObjective named direction =>
      rw [answer, after, act, perform_map _ fun _ => Answer.done]
      rcases h : perform (Model.setObjective named direction) m with ⟨result, m'⟩
      cases result with
      | error cause => exact .inl ⟨cause, rfl, (perform_setObjective_error h).1⟩
      | ok u =>
          rcases perform_setObjective_ok h with ⟨terms, hcollect, rfl⟩
          exact .inr ⟨_, rfl, .aimed named direction terms hcollect⟩

/-- A refused call changes nothing. -/
theorem after_of_refused {call : Call α} {cause : ModelError α}
    (h : call.answer m = .error cause) : call.after m = m := by
  rcases call.refused_or_accepted m with ⟨_, _, hkept⟩ | ⟨a, ha, _⟩
  · exact hkept
  · rw [h] at ha
    cases ha

/-! ### The model and the record -/

/-- A stored constraint is the one that was submitted. -/
structure Stores (m : Model α) (s : Submission α) (c : Nat × Constraint α) : Prop where
  id : c.1 = s.id
  relation : c.2.relation = s.relation
  rhs : c.2.rhs = s.rhs
  merged : m.IsMerged s.named c.2.terms

/-- The objective is the one that was set, or none. -/
def AimsAt (m : Model α) : Option (Direction × List (String × α)) → Prop
  | none => m.objective = {}
  | some (direction, named) =>
    m.objective.direction = direction ∧ m.IsMerged named m.objective.terms

/-- The model is what the record of the calls says. -/
structure Reflects (m : Model α) (r : Record α) : Prop where
  /-- The variables are those that were declared, under the numbers that were answered. -/
  vars : r.declared = m.vars.zipIdx
  bounds : ∀ v ∈ m.vars, ∀ l u, v.lower = some l → v.upper = some u → l ≤ u
  binary : ∀ v ∈ m.vars, v.kind = .binary → v.lower = some 0 ∧ v.upper = some 1
  /-- The constraints that were accepted are numbered from one. -/
  numbers : r.submitted.map (·.id) = List.range' 1 r.submitted.length
  next : max m.nextConstraint 1 = r.submitted.length + 1
  given : ∀ id ∈ r.removed, id ≤ r.submitted.length
  /-- Those that were not removed are stored, in the order of their numbers. -/
  constraints : List.Forall₂ m.Stores r.live m.constraints
  objective : m.AimsAt r.aim

theorem Stores.of_isPrefix {s : Submission α} {c : Nat × Constraint α} (h : m.Stores s c)
    (hvars : m.vars <+: m'.vars) : m'.Stores s c :=
  ⟨h.id, h.relation, h.rhs, h.merged.of_isPrefix hvars⟩

theorem AimsAt.of_isPrefix {aim : Option (Direction × List (String × α))} (h : m.AimsAt aim)
    (hvars : m.vars <+: m'.vars) (hobjective : m'.objective = m.objective) : m'.AimsAt aim := by
  cases aim with
  | none => exact hobjective.trans h
  | some a => exact ⟨hobjective ▸ h.1, hobjective ▸ h.2.of_isPrefix hvars⟩

theorem initial_reflects (name : Option String) : (initial name : Model α).Reflects {} := by
  cases name <;>
    exact ⟨rfl, nofun, nofun, rfl, rfl, nofun, .nil, rfl⟩

/-- Bounds that are not at fault are in order. -/
theorem le_of_boundsError? [Comparable α] {name : String} {l u : α}
    (h : boundsError? name (some l) (some u) = none) : l ≤ u := by
  rw [boundsError?] at h
  split at h
  · cases h
  · next hdefined =>
    have hnan := List.find?_eq_none.mp hdefined
    simp only [Option.toList_some, List.singleton_append, List.forall_mem_cons,
      List.not_mem_nil, Bool.not_eq_true] at hnan
    by_cases hlt : u < l
    · simp only [hlt, if_true] at h
      cases h
    · exact Comparable.le_of_not_lt hnan.1 hnan.2.1 hlt

namespace Reflects

variable {r : Record α}

/-- A number that is given next has not been removed. -/
theorem next_not_mem (h : m.Reflects r) : max m.nextConstraint 1 ∉ r.removed := by
  intro hmem
  have hle := h.given _ hmem
  rw [h.next] at hle
  exact Nat.not_succ_le_self _ hle

theorem declared [Comparable α] (h : m.Reflects r) {name : String} {lower upper : Option α}
    {kind : VariableKind} (fresh : m.variableId? (variableOf name lower upper kind).name = none)
    (hbounds : boundsError? name (variableOf name lower upper kind).lower
      (variableOf name lower upper kind).upper = none) :
    (m.withVariable (variableOf name lower upper kind) fresh).Reflects
      (r.note ⟨.addVariable name lower upper kind, .ok (.variable m.vars.length)⟩) := by
  have hvars : m.vars <+: (m.withVariable (variableOf name lower upper kind) fresh).vars :=
    List.prefix_append _ _
  -- What is stored refers to earlier variables, so only the new one has to be looked at.
  refine ⟨?_, ?_, ?_, h.numbers, h.next, h.given,
    h.constraints.imp fun s c hs => hs.of_isPrefix hvars, h.objective.of_isPrefix hvars rfl⟩
  · rw [Record.note, h.vars, withVariable, List.zipIdx_append, List.zipIdx_singleton, Nat.zero_add]
  · refine List.forall_mem_append.mpr ⟨h.bounds, List.forall_mem_singleton.mpr fun l u hl hu => ?_⟩
    rw [hl, hu] at hbounds
    exact le_of_boundsError? hbounds
  · refine List.forall_mem_append.mpr ⟨h.binary, List.forall_mem_singleton.mpr fun hkind => ?_⟩
    cases kind with
    | binary => exact ⟨rfl, rfl⟩
    | continuous => cases hkind
    | integer => cases hkind

theorem submitted (h : m.Reflects r) {named : List (String × α)} (relation : Relation)
    (rhs : α) {terms : List (Nat × α)} (hcollect : m.collect named = .ok terms) :
    Reflects { m with
        constraints := m.constraints ++ [(max m.nextConstraint 1, ⟨terms, relation, rhs⟩)]
        nextConstraint := max m.nextConstraint 1 + 1 }
      (r.note ⟨.addConstraint named relation rhs, .ok (.constraint (max m.nextConstraint 1))⟩) := by
  let s : Submission α := ⟨max m.nextConstraint 1, named, relation, rhs⟩
  have hmore : (r.submitted ++ [s]).length = r.submitted.length + 1 := List.length_append
  refine ⟨h.vars, h.bounds, h.binary, ?_, ?_, fun id hid => ?_, ?_,
    h.objective.of_isPrefix List.prefix_rfl rfl⟩
  · rw [Record.note, hmore, List.range'_1_concat, List.map_append, h.numbers, List.map_singleton,
      h.next, Nat.add_comm 1]
  · rw [Record.note, hmore, h.next]
    exact Nat.max_eq_left (Nat.le_add_left 1 _)
  · rw [Record.note, hmore]
    exact (h.given id hid).trans (Nat.le_succ _)
  · -- The number is new, so it is not among those that were removed.
    have hlive : (r.note ⟨.addConstraint named relation rhs,
        .ok (.constraint (max m.nextConstraint 1))⟩).live = r.live ++ [s] := by
      rw [Record.live, Record.note, List.filter_append]
      refine congrArg _ (List.filter_eq_self.mpr fun s hs => ?_)
      rw [List.mem_singleton.mp hs, Bool.not_eq_true', ← Bool.not_eq_true, List.contains_iff_mem]
      exact h.next_not_mem
    rw [hlive]
    exact List.rel_append (h.constraints.imp fun s c hs => hs.of_isPrefix List.prefix_rfl)
      (.cons ⟨rfl, rfl, rfl, (isMerged_of_collect hcollect).of_isPrefix List.prefix_rfl⟩ .nil)

/-- The numbers of the constraints that are there are those that were not removed. -/
theorem ids (h : m.Reflects r) : m.constraints.map (·.1) = r.live.map (·.id) := by
  have hboth := h.constraints
  generalize r.live = submissions, m.constraints = stored at hboth ⊢
  induction hboth with
  | nil => rfl
  | cons hstores _ ih => rw [List.map_cons, List.map_cons, hstores.id, ih]

/-- They are listed in ascending order. -/
theorem ascending (h : m.Reflects r) : m.constraints.Pairwise fun c d => c.1 < d.1 := by
  have hgiven : (r.submitted.map (·.id)).Pairwise (· < ·) := h.numbers ▸ List.pairwise_lt_range'
  refine List.pairwise_map.mp (h.ids ▸ hgiven.sublist ?_)
  exact List.filter_sublist.map _

theorem le_of_mem (h : m.Reflects r) {c : Nat × Constraint α} (hc : c ∈ m.constraints) :
    c.1 ≤ r.submitted.length := by
  have hmem : c.1 ∈ r.live.map (·.id) := h.ids ▸ List.mem_map_of_mem hc
  have hgiven := (List.filter_sublist.map _).subset hmem
  rw [h.numbers, List.mem_range'_1] at hgiven
  omega

theorem removed (h : m.Reflects r) {id : Nat} {c : Constraint α}
    (hfound : m.constraint? id = some c) :
    Reflects { m with constraints := m.constraints.filter fun d => d.1 != id }
      (r.note ⟨.removeConstraint id, .ok (.removed c)⟩) := by
  refine ⟨h.vars, h.bounds, h.binary, h.numbers, h.next, ?_, ?_,
    h.objective.of_isPrefix List.prefix_rfl rfl⟩
  · -- Only a constraint that is there can be removed, and all of those have been given numbers.
    refine List.forall_mem_append.mpr ⟨h.given, List.forall_mem_singleton.mpr ?_⟩
    rcases Option.map_eq_some_iff.mp hfound with ⟨d, hd, _⟩
    have hid := List.find?_some hd
    rw [← beq_iff_eq.mp hid]
    exact h.le_of_mem (List.mem_of_find?_eq_some hd)
  · have hlive : (r.note ⟨.removeConstraint id, .ok (.removed c)⟩).live
        = r.live.filter fun s => s.id != id := by
      rw [Record.live, Record.live, Record.note, List.filter_filter]
      refine List.filter_congr fun s _ => ?_
      rw [List.contains_eq_mem, List.contains_eq_mem]
      by_cases hs : s.id = id <;> simp [hs]
    rw [hlive]
    refine List.rel_filter (fun s d hs => ?_)
      (h.constraints.imp fun s c hs => hs.of_isPrefix List.prefix_rfl)
    simp only [hs.id]

theorem aimed (h : m.Reflects r) {named : List (String × α)} (direction : Direction)
    {terms : List (Nat × α)} (hcollect : m.collect named = .ok terms) :
    Reflects { m with objective := { direction, terms } }
      (r.note ⟨.setObjective named direction, .ok .done⟩) :=
  ⟨h.vars, h.bounds, h.binary, h.numbers, h.next, h.given,
    h.constraints.imp fun _ _ hs => hs.of_isPrefix List.prefix_rfl,
    rfl, (isMerged_of_collect hcollect).of_isPrefix List.prefix_rfl⟩

/-- Every call keeps the model and the record in agreement. -/
theorem after [Comparable α] (h : m.Reflects r) (call : Call α) :
    (call.after m).Reflects (r.note ⟨call, call.answer m⟩) := by
  rcases call.refused_or_accepted m with ⟨cause, hanswer, hkept⟩ | ⟨a, hanswer, haccepted⟩
  · rw [hanswer, hkept, Record.note_refused]
    exact h
  · rw [hanswer]
    generalize call.after m = m' at haccepted
    cases haccepted with
    | declared name lower upper kind fresh hbounds => exact h.declared fresh hbounds
    | submitted named relation rhs terms hcollect => exact h.submitted relation rhs hcollect
    | removed id c hfound => exact h.removed hfound
    | aimed named direction terms hcollect => exact h.aimed direction hcollect

theorem afterCalls [Comparable α] (h : m.Reflects r) (calls : List (Call α)) :
    (m.afterCalls calls).Reflects ((m.events calls).foldl Record.note r) := by
  induction calls generalizing m r with
  | nil => exact h
  | cons call calls ih => exact ih (h.after call)

end Reflects

theorem events_append (m : Model α) (calls more : List (Call α)) :
    m.events (calls ++ more) = m.events calls ++ (m.afterCalls calls).events more := by
  induction calls generalizing m with
  | nil => rfl
  | cons call calls ih => exact congrArg (_ :: ·) (ih (call.after m))

/-! ### What stays -/

/-- What a call does to the constraints: some are gone, those that are left are as they
    were, and others come after them. -/
theorem exists_newer_after (m : Model α) (r : Record α) (call : Call α) :
    ∃ gone newer, (call.after m).constraints
        = (m.constraints.filter fun c => !gone.contains c.1) ++ newer ∧
      (r.note ⟨call, call.answer m⟩).removed = r.removed ++ gone := by
  have hall : m.constraints
      = (m.constraints.filter fun c => !([] : List Nat).contains c.1) ++ [] := by simp
  rcases call.refused_or_accepted m with ⟨cause, hanswer, hkept⟩ | ⟨a, hanswer, haccepted⟩
  · rw [hanswer, hkept, Record.note_refused]
    exact ⟨[], [], hall, (List.append_nil _).symm⟩
  · rw [hanswer]
    generalize call.after m = m' at haccepted
    cases haccepted with
    | declared name lower upper kind fresh hbounds =>
        exact ⟨[], [], hall, (List.append_nil _).symm⟩
    | submitted named relation rhs terms hcollect =>
        refine ⟨[], _, congrArg (· ++ _) ?_, (List.append_nil _).symm⟩
        simp
    | removed id c hfound =>
        refine ⟨[id], [], ?_, rfl⟩
        rw [List.append_nil]
        refine List.filter_congr fun d _ => ?_
        by_cases hd : d.1 = id <;> simp [hd]
    | aimed named direction terms hcollect => exact ⟨[], [], hall, (List.append_nil _).symm⟩

/-- Constraints that are not removed stay as they are, and new ones come after them. -/
theorem exists_newer (m : Model α) (r : Record α) (calls : List (Call α)) :
    ∃ gone newer, (m.afterCalls calls).constraints
        = (m.constraints.filter fun c => !gone.contains c.1) ++ newer ∧
      ((m.events calls).foldl Record.note r).removed = r.removed ++ gone := by
  induction calls generalizing m r with
  | nil => exact ⟨[], [], by simp [afterCalls], (List.append_nil _).symm⟩
  | cons call calls ih =>
      rcases exists_newer_after m r call with ⟨gone₁, newer₁, hfirst, hgone₁⟩
      rcases ih (call.after m) (r.note ⟨call, call.answer m⟩) with ⟨gone₂, newer₂, hrest, hgone₂⟩
      -- Later calls may remove what the first one has added.
      refine ⟨gone₁ ++ gone₂,
        (newer₁.filter fun c => !gone₂.contains c.1) ++ newer₂, ?_, ?_⟩
      · change ((call.after m).afterCalls calls).constraints = _
        rw [hrest, hfirst, List.filter_append, List.filter_filter, List.append_assoc]
        refine congrArg (· ++ _) (List.filter_congr fun c _ => ?_)
        rw [List.contains_append, Bool.not_or, Bool.and_comm]
      · change ((call.after m).events calls |>.foldl Record.note _).removed = _
        rw [hgone₂, hgone₁, List.append_assoc]

/-- After any calls on a new model, the model is what the record says: constraints are
    numbered from one as they were accepted, those that were not removed are listed in the
    order of their numbers, and terms are merged. Names lead to the variables in the order
    in which they were declared. A call that is refused changes nothing, and whatever
    calls follow, constraints that they do not remove stay as they are. -/
theorem calls_reflected [Comparable α] (name : Option String) (calls : List (Call α)) :
    let m := (initial name).afterCalls calls
    let r := (initial name).record calls
    m.Reflects r ∧ m.constraints.Pairwise (fun c d => c.1 < d.1) ∧
      (∀ name i, m.variableId? name = some i ↔ ∃ v, (v, i) ∈ r.declared ∧ v.name = name) ∧
      (∀ call : Call α, ∀ cause, call.answer m = .error cause → call.after m = m) ∧
      ∀ more : List (Call α), ∃ gone newer, (m.afterCalls more).constraints
          = (m.constraints.filter fun c => !gone.contains c.1) ++ newer ∧
        ((initial name).record (calls ++ more)).removed = r.removed ++ gone := by
  have hreflects := (initial_reflects (α := α) name).afterCalls calls
  refine ⟨hreflects, hreflects.ascending, fun name i => ?_, fun call cause => after_of_refused,
    fun more => ?_⟩
  · rw [variableId?_iff]
    refine exists_congr fun v => and_congr_left fun _ => ?_
    rw [record, hreflects.vars, List.mem_zipIdx_iff_getElem?]
  · have hevents : (initial name : Model α).events (calls ++ more)
        = (initial name).events calls ++ ((initial name).afterCalls calls).events more :=
      events_append _ _ _
    rw [record, hevents, List.foldl_append]
    exact exists_newer _ _ more

/-- Two variables, and constraints over them: one over a variable that is not there, one
    with a variable twice, one with terms that cancel, and one after a removal. -/
def storeCalls : List (Call Rat) :=
  [.addVariable "x" (some 0) none .integer, .addConstraint [("z", 1)] .le 4,
    .addVariable "y" (some 0) (some 10) .continuous, .addVariable "x" none none .binary,
    .addConstraint [("x", 1), ("y", 2), ("x", 2)] .le 5,
    .addConstraint [("y", 1), ("x", 1), ("x", -1)] .ge 2, .removeConstraint 1,
    .removeConstraint 1, .addConstraint [("x", 3)] .eq 6]

/-- Of these calls, three are refused and three number a constraint. -/
theorem calls_reflected_storeCalls :
    let m := (initial none).afterCalls storeCalls
    let r := (initial none).record storeCalls
    m.Reflects r ∧ r.submitted.map (·.id) = [1, 2, 3] ∧
      m.constraints.map (fun c => (c.1, c.2.terms)) = [(2, [(1, 1)]), (3, [(0, 3)])] ∧
      m.variableId? "y" = some 1 := by
  refine ⟨(calls_reflected none storeCalls).1, ?_, ?_, ?_⟩
  · decide +kernel
  · decide +kernel
  · decide +kernel

end Model

end CyclePlan
