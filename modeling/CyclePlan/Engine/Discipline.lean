import CyclePlan.Engine.Error
import CyclePlan.Graph.View
import CyclePlan.NameMap
import CyclePlan.Text.Blank

/-!
# Scheduling disciplines

What a schedule is to be good at.

Every discipline works on the same timing variables, one start cycle per node
of the view, and adds its own auxiliary constraints and objective. As soon as
possible makes the sum of the start cycles small; as late as possible makes it
large, with each block's last node bounded by a given cycle; without
pipelining, one variable above all last nodes is made small; with pipelining,
iterations overlap and the initiation interval comes first.

The interval is one variable pinned to a value, or one variable per block with
a back-edge, all below one that is made small with a weight that outweighs
every change of the start cycles.

## Main definitions

* `IntervalTarget`, `Discipline`: The disciplines.
* `Discipline.ofText?`: The discipline that a text names.
* `startVar`, `blockIntervalVar`, `intervalVar`, `maxIntervalVar`,
  `maxLatencyVar`: The names of variables.
* `BuildM`: Actions that build a model and may be refused.
* `Discipline.addObjective`: Adds the objective of a discipline.
* `Discipline.addIntervals`: Adds the interval constraints of a discipline.
-/

namespace CyclePlan

/-- What initiation interval is asked for. -/
inductive IntervalTarget where
  /-- One interval for all blocks, pinned to a value. -/
  | fixed (interval : Int)
  /-- One interval for each block with a back-edge, the greatest made small. -/
  | perBlock
  deriving DecidableEq, Repr

/-- A scheduling discipline. -/
inductive Discipline where
  | asap
  /-- Every operation as late as possible, the last node of each block bounded
      by a cycle. -/
  | alap (sinkBounds : NameMap Int)
  /-- The latest last node as soon as possible. -/
  | noPipeline
  | pipelined (target : IntervalTarget)
  deriving DecidableEq, Repr

/-- The name of a node's timing variable. -/
def startVar (node : String) : String := s!"sv{node}"

/-- The name of a block's interval variable. -/
def blockIntervalVar (block : Nat) : String := s!"II_{block}"

/-- The name of the shared interval's variable. -/
def intervalVar : String := "II"

/-- The name of the variable above all interval variables of blocks. -/
def maxIntervalVar : String := "max_II"

/-- The name of the variable above all last nodes. -/
def maxLatencyVar : String := "max_latency"

/-- An action that builds a model and may be refused. What it added before it
    was refused stays. -/
abbrev BuildM (α : Type) := ExceptT (SchedulingError α) (StateM (Model α))

namespace BuildM

/-- A step of a model as part of building it. -/
def step {α β : Type} (act : ModelM α β) : BuildM α β := ExceptT.adapt .lp act

end BuildM

namespace Discipline

/-- The name of a discipline. -/
def name : Discipline → String
  | asap => "asap"
  | alap _ => "alap"
  | noPipeline => "no_pipeline"
  | pipelined _ => "pipelined"

/-- Whether iterations overlap. -/
def isPipelined : Discipline → Bool
  | pipelined _ => true
  | _ => false

/-- The text by which disciplines are compared: without blanks at its ends and
    in lower case, as far as ASCII goes. -/
def canonicalText (s : String) : String := (Text.trim s).map Char.toLower

/-- The discipline that a text names. Bounds are left empty and the interval is
    one, for the caller to fill in. -/
def ofText? (s : String) : Except ConfigError Discipline :=
  match canonicalText s with
  | "asap" => .ok asap
  | "alap" => .ok (alap .empty)
  | "no_pipeline" | "nopipe" => .ok noPipeline
  | "pipelined" => .ok (pipelined (.fixed 1))
  | other => .error (.unknownDiscipline other)

variable {α : Type} [Scalar α]

/-- The sum of all start cycles, each with a coefficient. -/
def startTerms (v : View α) (c : α) : List (String × α) := v.nodes.map fun n => (startVar n.name, c)

/-- A weight that makes one unit of the greatest interval outweigh every change
    of the sum of the start cycles. -/
def intervalWeight (v : View α) : α :=
  (Scalar.ofInt v.size + 1) * (Scalar.sum (v.nodes.map fun n => Scalar.ceil n.latency) + 1)

/-- Refuses to go on unless a variable exists. -/
def requireVar (name : String) (obstacle : Obstacle) : BuildM α Unit := do
  if ((← get).variableId? name).isNone then
    throw (.precondition .setObjective obstacle)

/-- Bounds the last node of a block by the cycle given for it. -/
def boundSink (sinkBounds : NameMap Int) (sink : View.Node α) : BuildM α Unit := do
  match sinkBounds.get? sink.name with
  | none => throw (.config (.missingSinkBound sink.name))
  | some bound =>
    let _ ← BuildM.step (Model.addConstraint [(startVar sink.name, 1)] .le (Scalar.ofInt bound))

/-- Keeps the latency variable above the last node of a block. -/
def coverSink (sink : View.Node α) : BuildM α Unit := do
  let terms : List (String × α) := [(maxLatencyVar, 1), (startVar sink.name, -1)]
  let _ ← BuildM.step (Model.addConstraint terms .ge 0)

/-- Adds the auxiliary constraints and the objective of a discipline. -/
def addObjective (t : Discipline) (v : View α) : BuildM α Unit := do
  match t with
  | asap => BuildM.step (Model.setObjective (startTerms v 1) .minimize)
  | alap sinkBounds =>
    v.sinks.forM (boundSink sinkBounds)
    BuildM.step (Model.setObjective (startTerms v (-1)) .minimize)
  | noPipeline =>
    let _ ← BuildM.step (Model.addVariable maxLatencyVar (some 0) none .integer)
    v.sinks.forM coverSink
    BuildM.step (Model.setObjective [(maxLatencyVar, 1)] .minimize)
  | pipelined (.fixed _) =>
    requireVar intervalVar .noInterval
    BuildM.step (Model.setObjective (startTerms v 1 ++ [(intervalVar, 1)]) .minimize)
  | pipelined .perBlock =>
    requireVar maxIntervalVar .noBlockIntervals
    BuildM.step
      (Model.setObjective (startTerms v 1 ++ [(maxIntervalVar, intervalWeight v)]) .minimize)

/-- Adds the interval variable of a block, below the greatest one. -/
def addBlockInterval (block : Nat) : BuildM α Unit := do
  let var := blockIntervalVar block
  let _ ← BuildM.step (Model.addVariable var (some 1) none .integer)
  let _ ← BuildM.step (Model.addConstraint [(maxIntervalVar, 1), (var, -1)] .ge 0)

/-- Adds the interval variables that a target asks for. -/
def addIntervalVars (target : IntervalTarget) (v : View α) : BuildM α Unit := do
  match target with
  | .fixed interval =>
    if interval < 1 then
      throw (.config (.intervalTooSmall interval))
    let _ ← BuildM.step (Model.addVariable intervalVar (some 1) none .integer)
    let _ ← BuildM.step (Model.addConstraint [(intervalVar, 1)] .eq (Scalar.ofInt interval))
  | .perBlock =>
    let _ ← BuildM.step (Model.addVariable maxIntervalVar (some 1) none .integer)
    v.loopBlocks.forM addBlockInterval

/-- The interval variable that a loop-carried dependency is relaxed by. -/
def intervalVarOf (target : IntervalTarget) (producer : View.Node α) : String :=
  match target with
  | .fixed _ => intervalVar
  | .perBlock => blockIntervalVar producer.block

/-- Keeps a consumer of the next iteration behind its producer. -/
def addBackEdge (target : IntervalTarget) (edge : View.Node α × View.Node α) : BuildM α Unit := do
  let (u, v) := edge
  let terms : List (String × α) :=
    [(startVar v.name, 1), (startVar u.name, -1),
     (intervalVarOf target u, Scalar.ofInt loopDistance)]
  let _ ← BuildM.step (Model.addConstraint terms .ge u.latency)

/-- Adds the interval variables and a constraint for every back-edge, and
    answers the number of the latter. -/
def addIntervals (t : Discipline) (v : View α) : BuildM α Nat := do
  match t with
  | pipelined target =>
    -- Nothing is added unless every back-edge stays in its block.
    if let some (a, b) := v.backPairs.find? fun (a, b) => a.block != b.block then
      throw (.backEdgeLeavesBlock a.name b.name a.block b.block)
    addIntervalVars target v
    v.backPairs.forM (addBackEdge target)
    return v.backPairs.length
  | _ => throw (.precondition .addInterval (.discipline t.name))

end Discipline

end CyclePlan
