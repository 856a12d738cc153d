import CyclePlan.Engine.Basic
import CyclePlan.Proofs.Engine.Names
import CyclePlan.Proofs.Graph.View
import CyclePlan.Proofs.Lp.Program

/-!
# The Rows of Timing Models

What every discipline asks for, as a program over the names of variables.

The engine adds its constraints step by step. This module only says which ones:
a row for every kind of constraint with what it means, and for every discipline
the variables, the rows and the goal that a finished model has. That building
leads there is proved elsewhere.

## Main definitions

* `Row.dependency`, `Row.backEdge`, `Row.pin`, `Row.sinkBound`, `Row.sinkCover`,
  `Row.blockInterval`: The kinds of constraints.
* `View.emitted`: The forward pairs that get a constraint.
* `Discipline.program`: What a discipline asks for.
* `IntervalTarget.reportedVar`: The variable that the interval is read from.
* `IntervalTarget.IsValid`: What is asked of a given interval.

## Theorems

* `Row.dependency_holds_iff`, `Row.backEdge_holds_iff`: What the rows mean.
* `Discipline.isSolution_iff`: What a solution is.
* `Discipline.asap_isSolution_iff`, `Discipline.fixed_isSolution_iff`: What two
  of the programs mean.
* `Discipline.eq_fixed_of_name`, `Discipline.eq_perBlock_of_name`: Which
  disciplines have an interval variable.
* `Discipline.backPair_holds`: What back-edges have to spare.
-/

namespace CyclePlan

/-! ### Rows -/

namespace Row

/-- A consumer stays behind its producer. -/
def dependency (p : View.Node Rat × View.Node Rat) : Row :=
  ⟨[(startVar p.2.name, 1), (startVar p.1.name, -1)], .ge, p.1.latency⟩

/-- A consumer of the next iteration stays behind its producer. -/
def backEdge (target : IntervalTarget) (p : View.Node Rat × View.Node Rat) : Row :=
  ⟨[(startVar p.2.name, 1), (startVar p.1.name, -1),
    (Discipline.intervalVarOf target p.1, Scalar.ofInt loopDistance)], .ge, p.1.latency⟩

/-- A variable has a given value. -/
def pin (var : String) (value : Int) : Row := ⟨[(var, 1)], .eq, Scalar.ofInt value⟩

/-- The last node of a block starts no later than in the cycle given for it. -/
def sinkBound (bounds : NameMap Int) (sink : View.Node Rat) : Row :=
  ⟨[(startVar sink.name, 1)], .le, Scalar.ofInt ((bounds.get? sink.name).getD 0)⟩

/-- The latency variable is above the last node of a block. -/
def sinkCover (sink : View.Node Rat) : Row :=
  ⟨[(maxLatencyVar, 1), (startVar sink.name, -1)], .ge, 0⟩

/-- The interval of a block is below the greatest one. -/
def blockInterval (block : Nat) : Row :=
  ⟨[(maxIntervalVar, 1), (blockIntervalVar block, -1)], .ge, 0⟩

variable {y : String → Rat}

theorem dependency_holds_iff {p : View.Node Rat × View.Node Rat} :
    (dependency p).Holds y ↔
      y (startVar p.1.name) + p.1.latency ≤ y (startVar p.2.name) := by
  simp only [Holds, dependency, Relation.Holds, sum, List.map_cons, List.map_nil, List.sum_cons,
    List.sum_nil]
  constructor <;> intro h <;> linarith

theorem backEdge_holds_iff {target : IntervalTarget} {p : View.Node Rat × View.Node Rat} :
    (backEdge target p).Holds y ↔
      y (startVar p.1.name) + p.1.latency ≤
        y (startVar p.2.name) + y (Discipline.intervalVarOf target p.1) := by
  have hone : (Scalar.ofInt loopDistance : Rat) = 1 := by decide
  simp only [Holds, backEdge, Relation.Holds, sum, List.map_cons, List.map_nil, List.sum_cons,
    List.sum_nil, hone]
  constructor <;> intro h <;> linarith

theorem pin_holds_iff {var : String} {value : Int} :
    (pin var value).Holds y ↔ y var = value := by
  simp only [Holds, pin, Relation.Holds, sum, List.map_cons, List.map_nil, List.sum_cons,
    List.sum_nil, one_mul, add_zero]
  exact Iff.rfl

theorem blockInterval_holds_iff {block : Nat} :
    (blockInterval block).Holds y ↔ y (blockIntervalVar block) ≤ y maxIntervalVar := by
  simp only [Holds, blockInterval, Relation.Holds, sum, List.map_cons, List.map_nil,
    List.sum_cons, List.sum_nil]
  constructor <;> intro h <;> linarith

end Row

/-! ### Programs -/

/-- The variable that the achieved interval is the value of. -/
def IntervalTarget.reportedVar : IntervalTarget → String
  | .fixed _ => intervalVar
  | .perBlock => maxIntervalVar

/-- An interval that is given is at least one. -/
def IntervalTarget.IsValid : IntervalTarget → Prop
  | .fixed interval => 1 ≤ interval
  | .perBlock => True

/-- The forward pairs that get a constraint. -/
def View.emitted (v : View Rat) (sameBlockOnly : Bool) : List (View.Node Rat × View.Node Rat) :=
  v.forwardPairs.filter (Engine.isEmitted sameBlockOnly)

/-- The variable of a node's start cycle. -/
def startVariable (n : View.Node Rat) : Variable Rat := ⟨startVar n.name, .integer, some 0, none⟩

/-- A variable for an interval. -/
def intervalVariable (name : String) : Variable Rat := ⟨name, .integer, some 1, none⟩

namespace Discipline

/-- The interval variables that a target asks for. -/
def intervalVariables (v : View Rat) : IntervalTarget → List (Variable Rat)
  | .fixed _ => [intervalVariable intervalVar]
  | .perBlock =>
    intervalVariable maxIntervalVar ::
      v.loopBlocks.map fun b => intervalVariable (blockIntervalVar b)

/-- The rows that relate interval variables to each other or to a value. -/
def intervalPins (v : View Rat) : IntervalTarget → List Row
  | .fixed interval => [Row.pin intervalVar interval]
  | .perBlock => v.loopBlocks.map Row.blockInterval

/-- The rows for interval variables and back-edges. -/
def intervalRows (v : View Rat) (target : IntervalTarget) : List Row :=
  intervalPins v target ++ v.backPairs.map (Row.backEdge target)

/-- The variables of a discipline beside the start cycles. -/
def auxiliaries (v : View Rat) : Discipline → List (Variable Rat)
  | noPipeline => [⟨maxLatencyVar, .integer, some 0, none⟩]
  | pipelined target => intervalVariables v target
  | _ => []

/-- The rows of a discipline beside the forward dependencies. -/
def auxiliaryRows (v : View Rat) : Discipline → List Row
  | asap => []
  | alap bounds => v.sinks.map (Row.sinkBound bounds)
  | noPipeline => v.sinks.map Row.sinkCover
  | pipelined target => intervalRows v target

/-- What a discipline wants to be small. -/
def goal (v : View Rat) : Discipline → List (String × Rat)
  | asap => startTerms v 1
  | alap _ => startTerms v (-1)
  | noPipeline => [(maxLatencyVar, 1)]
  | pipelined (.fixed _) => startTerms v 1 ++ [(intervalVar, 1)]
  | pipelined .perBlock => startTerms v 1 ++ [(maxIntervalVar, intervalWeight v)]

/-- What a discipline asks for. -/
def program (t : Discipline) (v : View Rat) (sameBlockOnly : Bool) : Program where
  vars := v.nodes.map startVariable ++ t.auxiliaries v
  rows := (v.emitted sameBlockOnly).map Row.dependency ++ t.auxiliaryRows v
  goal := t.goal v

variable {t : Discipline} {v : View Rat} {sameBlockOnly : Bool}

theorem startVariable_mem {n : View.Node Rat} (h : n ∈ v.nodes) :
    startVariable n ∈ (t.program v sameBlockOnly).vars :=
  List.mem_append_left _ (List.mem_map_of_mem h)

theorem startVariable_mem_of_renders {m : Model Rat}
    (hm : m.Renders (t.program v sameBlockOnly)) : ∀ n ∈ v.nodes, startVariable n ∈ m.vars := by
  rw [hm.vars]
  exact fun n hn => startVariable_mem hn

theorem knows_startVar_of_renders {m : Model Rat}
    (hm : m.Renders (t.program v sameBlockOnly)) : ∀ n ∈ v.nodes, m.Knows (startVar n.name) :=
  fun n hn => ⟨_, startVariable_mem_of_renders hm n hn, rfl⟩

theorem dependency_mem {p : View.Node Rat × View.Node Rat} (h : p ∈ v.emitted sameBlockOnly) :
    Row.dependency p ∈ (t.program v sameBlockOnly).rows :=
  List.mem_append_left _ (List.mem_map_of_mem h)

/-- The reported interval is a variable of its own. -/
theorem reportedVar_mem {target : IntervalTarget} :
    intervalVariable target.reportedVar ∈
      (program (.pipelined target) v sameBlockOnly).vars := by
  refine List.mem_append_right _ ?_
  cases target with
  | fixed interval => exact List.mem_cons_self
  | perBlock => exact List.mem_cons_self

/-- Every back-edge has the reported interval to spare. -/
theorem backPair_holds {target : IntervalTarget} {y : String → Rat}
    (hy : (program (.pipelined target) v sameBlockOnly).IsSolution y)
    {p : View.Node Rat × View.Node Rat} (hp : p ∈ v.backPairs) :
    y (startVar p.1.name) + p.1.latency ≤
      y (startVar p.2.name) + y target.reportedVar := by
  have hrow : (Row.backEdge target p).Holds y := hy.meets _
    (List.mem_append_right _ (List.mem_append_right _ (List.mem_map_of_mem hp)))
  rw [Row.backEdge_holds_iff] at hrow
  cases target with
  | fixed interval => exact hrow
  | perBlock =>
      -- The block of the back-edge has an interval, and that is below the greatest.
      have hbelow : (Row.blockInterval p.1.block).Holds y := hy.meets _
        (List.mem_append_right _ (List.mem_append_left _
          (List.mem_map_of_mem (View.block_mem_loopBlocks hp))))
      rw [Row.blockInterval_holds_iff] at hbelow
      exact le_trans hrow (add_le_add (le_refl _) hbelow)

/-- A variable with a lower bound alone admits what is not below it. -/
theorem admits_lower_iff {name : String} {kind : VariableKind} {l x : Rat} :
    (⟨name, kind, some l, none⟩ : Variable Rat).Admits x ↔ l ≤ x := by
  constructor
  · intro h
    exact h.above l rfl
  · intro h
    refine ⟨fun l' hl => ?_, fun u hu => ?_⟩
    · cases hl
      exact h
    · cases hu

/-- The start cycles are whole and not negative, and the emitted pairs hold. -/
structure StartsHold (v : View Rat) (sameBlockOnly : Bool) (y : String → Rat) : Prop where
  nonneg : ∀ n ∈ v.nodes, 0 ≤ y (startVar n.name)
  whole : ∀ n ∈ v.nodes, ∃ c : Int, y (startVar n.name) = c
  pairs : ∀ p ∈ v.emitted sameBlockOnly,
    y (startVar p.1.name) + p.1.latency ≤ y (startVar p.2.name)

/-- Any solution starts the nodes as the forward dependencies ask. -/
theorem startsHold_of_isSolution {y : String → Rat}
    (hy : (t.program v sameBlockOnly).IsSolution y) : StartsHold v sameBlockOnly y := by
  refine ⟨fun n hn => ?_, fun n hn => ?_, fun p hp => ?_⟩
  · exact admits_lower_iff.mp (hy.admits _ (startVariable_mem hn))
  · exact hy.integral _ (startVariable_mem hn) rfl
  · exact Row.dependency_holds_iff.mp (hy.meets _ (dependency_mem hp))

/-- A solution is start cycles as the forward dependencies ask, and values that
    suit what the discipline adds to them. -/
theorem isSolution_iff {y : String → Rat} :
    (t.program v sameBlockOnly).IsSolution y ↔
      StartsHold v sameBlockOnly y ∧
        (∀ w ∈ t.auxiliaries v, w.Admits (y w.name) ∧
          (w.isIntegral = true → ∃ k : Int, y w.name = k)) ∧
        ∀ r ∈ t.auxiliaryRows v, r.Holds y := by
  constructor
  · intro hy
    refine ⟨startsHold_of_isSolution hy, fun w hw => ?_, fun r hr => ?_⟩
    · have hmem : w ∈ (t.program v sameBlockOnly).vars := List.mem_append_right _ hw
      exact ⟨hy.admits w hmem, hy.integral w hmem⟩
    · exact hy.meets r (List.mem_append_right _ hr)
  · rintro ⟨h, hvars, hrows⟩
    refine ⟨fun w hw => ?_, fun r hr => ?_, fun w hw hint => ?_⟩
    · rcases List.mem_append.mp hw with hw | hw
      · rcases List.mem_map.mp hw with ⟨n, hn, rfl⟩
        exact admits_lower_iff.mpr (h.nonneg n hn)
      · exact (hvars w hw).1
    · rcases List.mem_append.mp hr with hr | hr
      · rcases List.mem_map.mp hr with ⟨p, hp, rfl⟩
        exact Row.dependency_holds_iff.mpr (h.pairs p hp)
      · exact hrows r hr
    · rcases List.mem_append.mp hw with hw | hw
      · rcases List.mem_map.mp hw with ⟨n, hn, rfl⟩
        exact h.whole n hn
      · exact (hvars w hw).2 hint

/-- As soon as possible asks for nothing else. -/
theorem asap_isSolution_iff {y : String → Rat} :
    (program .asap v sameBlockOnly).IsSolution y ↔ StartsHold v sameBlockOnly y :=
  isSolution_iff.trans (and_iff_left
    ⟨fun _ hw => absurd hw List.not_mem_nil, fun _ hr => absurd hr List.not_mem_nil⟩)

/-- A shared interval asks for its value, and for the back pairs to hold at it. -/
theorem fixed_isSolution_iff {interval : Int} (hpos : 1 ≤ interval) {y : String → Rat} :
    (program (.pipelined (.fixed interval)) v sameBlockOnly).IsSolution y ↔
      StartsHold v sameBlockOnly y ∧ y intervalVar = interval ∧
        ∀ p ∈ v.backPairs,
          y (startVar p.1.name) + p.1.latency ≤ y (startVar p.2.name) + interval := by
  rw [isSolution_iff]
  refine and_congr_right fun _ => ?_
  constructor
  · rintro ⟨_, hrows⟩
    have hpin : y intervalVar = interval :=
      Row.pin_holds_iff.mp (hrows _ (List.mem_append_left _ List.mem_cons_self))
    refine ⟨hpin, fun p hp => ?_⟩
    have hrow := hrows _ (List.mem_append_right _ (List.mem_map_of_mem hp))
    rwa [Row.backEdge_holds_iff, intervalVarOf, hpin] at hrow
  · rintro ⟨hpin, hback⟩
    -- What is added is the interval, the row that pins it and the back pairs.
    refine ⟨fun w hw => ?_, fun r hr => ?_⟩
    · rw [List.mem_singleton.mp hw]
      refine ⟨admits_lower_iff.mpr ?_, fun _ => ⟨interval, hpin⟩⟩
      rw [intervalVariable, hpin]
      exact_mod_cast hpos
    · rcases List.mem_append.mp hr with hr | hr
      · rw [List.mem_singleton.mp hr]
        exact Row.pin_holds_iff.mpr hpin
      · rcases List.mem_map.mp hr with ⟨p, hp, rfl⟩
        rw [Row.backEdge_holds_iff, intervalVarOf, hpin]
        exact hback p hp

/-- Intervals per block may all be the same, if the back pairs hold at it. -/
theorem perBlock_isSolution_of_uniform {interval : Int} (hpos : 1 ≤ interval) {y : String → Rat}
    (hstarts : StartsHold v sameBlockOnly y) (hgreatest : y maxIntervalVar = interval)
    (hblocks : ∀ b ∈ v.loopBlocks, y (blockIntervalVar b) = interval)
    (hback : ∀ p ∈ v.backPairs,
      y (startVar p.1.name) + p.1.latency ≤ y (startVar p.2.name) + interval) :
    (program (.pipelined .perBlock) v sameBlockOnly).IsSolution y := by
  have hadmits : ∀ {name : String}, y name = interval →
      (intervalVariable name).Admits (y name) ∧ ∃ k : Int, y name = k := by
    intro name hname
    refine ⟨admits_lower_iff.mpr ?_, interval, hname⟩
    rw [hname]
    exact_mod_cast hpos
  refine isSolution_iff.mpr ⟨hstarts, fun w hw => ?_, fun r hr => ?_⟩
  · rcases List.mem_cons.mp hw with rfl | hw
    · exact ⟨(hadmits hgreatest).1, fun _ => (hadmits hgreatest).2⟩
    · rcases List.mem_map.mp hw with ⟨b, hb, rfl⟩
      exact ⟨(hadmits (hblocks b hb)).1, fun _ => (hadmits (hblocks b hb)).2⟩
  · rcases List.mem_append.mp hr with hr | hr
    · rcases List.mem_map.mp hr with ⟨b, hb, rfl⟩
      rw [Row.blockInterval_holds_iff, hblocks b hb, hgreatest]
    · rcases List.mem_map.mp hr with ⟨p, hp, rfl⟩
      rw [Row.backEdge_holds_iff, intervalVarOf, hblocks _ (View.block_mem_loopBlocks hp)]
      exact hback p hp

theorem mem_auxiliaries {w : Variable Rat} (hw : w ∈ (t.program v sameBlockOnly).vars)
    (hname : ∀ node, startVar node ≠ w.name) : w ∈ t.auxiliaries v := by
  rcases List.mem_append.mp hw with hw | hw
  · rcases List.mem_map.mp hw with ⟨n, _, rfl⟩
    exact absurd rfl (hname n.name)
  · exact hw

/-- Only a shared interval is called by its name. -/
theorem eq_fixed_of_name {w : Variable Rat} (hw : w ∈ (t.program v sameBlockOnly).vars)
    (hname : w.name = intervalVar) : ∃ interval, t = .pipelined (.fixed interval) := by
  have haux := mem_auxiliaries hw fun node => hname ▸ startVar_ne_intervalVar node
  cases t with
  | asap => exact absurd haux List.not_mem_nil
  | alap _ => exact absurd haux List.not_mem_nil
  | noPipeline =>
      rw [List.mem_singleton.mp haux] at hname
      exact absurd hname (by decide)
  | pipelined target =>
      cases target with
      | fixed interval => exact ⟨interval, rfl⟩
      | perBlock =>
          rcases List.mem_cons.mp haux with rfl | hblock
          · exact absurd hname (by decide)
          · rcases List.mem_map.mp hblock with ⟨b, _, rfl⟩
            exact absurd hname (blockIntervalVar_ne (by decide) b)

/-- Only intervals per block have a greatest one. -/
theorem eq_perBlock_of_name {w : Variable Rat} (hw : w ∈ (t.program v sameBlockOnly).vars)
    (hname : w.name = maxIntervalVar) : t = .pipelined .perBlock := by
  have haux := mem_auxiliaries hw fun node => hname ▸ startVar_ne_maxIntervalVar node
  cases t with
  | asap => exact absurd haux List.not_mem_nil
  | alap _ => exact absurd haux List.not_mem_nil
  | noPipeline =>
      rw [List.mem_singleton.mp haux] at hname
      exact absurd hname (by decide)
  | pipelined target =>
      cases target with
      | fixed interval =>
          rw [List.mem_singleton.mp haux] at hname
          exact absurd hname (by decide)
      | perBlock => rfl

end Discipline

end CyclePlan
