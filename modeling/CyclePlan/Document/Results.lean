import CyclePlan.Document.Parameters
import CyclePlan.Graph.Basic
import CyclePlan.Lp.Model
import CyclePlan.Schedule.KeyFigures

/-!
# Results in documents

How operations, graphs, models, schedules and key figures are written in
documents, and how those that can be read are read.

Graphs and models are written only. Their register of names is not part of
the document.

## Main definitions

* `Operation.toJson`, `Operation.ofJson?`: Operations.
* `Graph.toJson`: Graphs.
* `Model.toJson`: Models.
* `Schedule.toJson`, `Schedule.ofJson?`: Schedules.
* `KeyFigures.toJson`, `KeyFigures.ofJson?`: Key figures.
-/

namespace CyclePlan

namespace Operation

/-- An operation, as a document writes it. -/
def toJson (op : Operation Float) : Json :=
  .obj [("name", .str op.name), ("kind", op.kind.toJson), ("block", Json.ofNat op.block),
    ("latency", .float op.latency), ("cycle", Json.ofOption .int op.cycle)]

/-- The operation that a document gives. -/
def ofJson? (j : Json) : Option (Operation Float) := do
  let r ← Record.ofJson? ["name", "kind", "block", "latency", "cycle"] j
  return {
    name := ← r.required? "name" Json.toText?
    kind := ← r.required? "kind" Opcode.ofJson?
    block := ← r.required? "block" Json.toCount?
    latency := ← r.required? "latency" Json.toNumber?
    cycle := ← r.optional? "cycle" Json.toSigned? }

end Operation

namespace Dependency

/-- A dependency, as a document writes it. -/
def toJson (e : Dependency) : Json :=
  .obj [("source", Json.ofNat e.source), ("target", Json.ofNat e.target),
    ("back_edge", .bool e.backEdge)]

end Dependency

namespace ControlEdge

/-- A control edge, as a document writes it. -/
def toJson (e : ControlEdge) : Json :=
  .obj [("from", Json.ofNat e.source), ("to", Json.ofNat e.target), ("back_edge", .bool e.backEdge)]

end ControlEdge

namespace Block

/-- A block, as a document writes it. -/
def toJson (b : Block) : Json :=
  .obj [("id", Json.ofNat b.id), ("name", .str b.name), ("ops", .arr (b.members.map Json.ofNat)),
    ("source", Json.ofOption Json.ofNat b.source), ("sink", Json.ofOption Json.ofNat b.sink)]

end Block

namespace Graph

/-- A graph, as a document writes it. -/
def toJson (g : Graph Float) : Json :=
  .obj [("name", .str g.name), ("ops", .arr (g.ops.map (·.toJson))),
    ("edges", .arr (g.edges.map (·.toJson))), ("blocks", .arr (g.blocks.map (·.toJson))),
    ("control_edges", .arr (g.controlEdges.map (·.toJson)))]

end Graph

namespace Model

/-- Terms, as a document writes them. -/
def termsJson (terms : List (Nat × Float)) : Json :=
  .arr (terms.map fun t => .arr [Json.ofNat t.1, .float t.2])

/-- A variable, as a document writes it. -/
def variableJson (v : Variable Float) : Json :=
  let kind :=
    match v.kind with
    | .continuous => "Continuous"
    | .integer => "Integer"
    | .binary => "Binary"
  .obj [("name", .str v.name), ("kind", .str kind), ("lower", Json.ofOption .float v.lower),
    ("upper", Json.ofOption .float v.upper)]

/-- A constraint, as a document writes it. -/
def constraintJson (c : Constraint Float) : Json :=
  let relation :=
    match c.relation with
    | .eq => "Eq"
    | .le => "Le"
    | .ge => "Ge"
  .obj [("terms", termsJson c.terms), ("sense", .str relation), ("rhs", .float c.rhs)]

/-- An objective, as a document writes it. -/
def objectiveJson (o : Objective Float) : Json :=
  let direction :=
    match o.direction with
    | .minimize => "Minimize"
    | .maximize => "Maximize"
  .obj [("sense", .str direction), ("terms", termsJson o.terms)]

/-- A model, as a document writes it. -/
def toJson (m : Model Float) : Json :=
  .obj [("name", .str m.name), ("variables", .arr (m.vars.map variableJson)),
    ("constraints", .obj (m.constraints.map fun (id, c) => (toString id, constraintJson c))),
    ("next_constraint", Json.ofNat m.nextConstraint), ("objective", objectiveJson m.objective)]

end Model

namespace Outcome

/-- An outcome, as a document writes it. -/
def toJson : Outcome → Json
  | optimal => .str "Optimal"
  | feasible => .str "Feasible"
  | infeasible => .str "Infeasible"
  | failed reason => .obj [("Failed", .str reason)]

/-- The outcome that a document gives. -/
def ofJson? (j : Json) : Option Outcome :=
  match j.toCase? with
  | some ("Failed", some value) => value.toText?.map failed
  | _ =>
    match j.toPlainCase? with
    | some "Optimal" => some optimal
    | some "Feasible" => some feasible
    | some "Infeasible" => some infeasible
    | _ => none

end Outcome

namespace ViolationKind

/-- The name of a rule in documents. -/
def name : ViolationKind → String
  | dependency => "DependencyViolated"
  | interval => "IntervalViolated"
  | capacity => "CapacityExceeded"
  | moduloCapacity => "ModuloCapacityExceeded"

/-- The rule that a document gives. -/
def ofJson? (j : Json) : Option ViolationKind := do
  let name ← j.toPlainCase?
  [dependency, interval, capacity, moduloCapacity].find? fun k => k.name == name

end ViolationKind

namespace Violation

/-- A violation, as a document writes it. -/
def toJson (v : Violation) : Json :=
  .obj [("violation_type", .str v.kind.name), ("entity_id", .str v.entity),
    ("message", .str v.message)]

/-- The violation that a document gives. -/
def ofJson? (j : Json) : Option Violation := do
  let r ← Record.ofJson? ["violation_type", "entity_id", "message"] j
  return {
    kind := ← r.required? "violation_type" ViolationKind.ofJson?
    entity := ← r.required? "entity_id" Json.toText?
    message := ← r.required? "message" Json.toText? }

end Violation

namespace Schedule

/-- A schedule, as a document writes it. -/
def toJson (s : Schedule Float) : Json :=
  .obj [("status", s.outcome.toJson), ("cycles", Json.ofMap .int s.cycles),
    ("ii", Json.ofOption .int s.interval), ("objective", Json.ofOption .float s.objective),
    ("violations", .arr (s.violations.map (·.toJson)))]

/-- The schedule that a document gives. -/
def ofJson? (j : Json) : Option (Schedule Float) := do
  let r ← Record.ofJson? ["status", "cycles", "ii", "objective", "violations"] j
  return {
    outcome := ← r.required? "status" Outcome.ofJson?
    cycles := ← r.required? "cycles" (Json.toMap? Json.toSigned?)
    interval := ← r.optional? "ii" Json.toSigned?
    objective := ← r.optional? "objective" Json.toNumber?
    violations := ← r.required? "violations" (Json.toList? Violation.ofJson?) }

end Schedule

namespace KeyFigures

/-- Key figures, as a document writes them. -/
def toJson (k : KeyFigures) : Json :=
  .obj [("latency", .int k.latency), ("block_latency", Json.ofMap .int k.blockLatency),
    ("ii", Json.ofOption .int k.interval), ("peak_issue", Json.ofMap Json.ofNat k.peakIssue),
    ("mrt_peak", Json.ofMap Json.ofNat k.columnPeak),
    ("scheduled_nodes", Json.ofNat k.scheduledNodes)]

/-- The key figures that a document gives. -/
def ofJson? (j : Json) : Option KeyFigures := do
  let r ← Record.ofJson?
    ["latency", "block_latency", "ii", "peak_issue", "mrt_peak", "scheduled_nodes"] j
  return {
    latency := ← r.required? "latency" Json.toSigned?
    blockLatency := ← r.required? "block_latency" (Json.toMap? Json.toSigned?)
    interval := ← r.optional? "ii" Json.toSigned?
    peakIssue := ← r.required? "peak_issue" (Json.toMap? Json.toCount?)
    columnPeak := ← r.required? "mrt_peak" (Json.toMap? Json.toCount?)
    scheduledNodes := ← r.required? "scheduled_nodes" Json.toCount? }

end KeyFigures

end CyclePlan
