import CyclePlan.Engine.Discipline
import CyclePlan.Json.Shape
import CyclePlan.Lp.Search
import CyclePlan.Resource.Pinning
import CyclePlan.Resource.TimeIndexed

/-!
# Parameters in documents

How the parameters of a run are written in documents: disciplines, the ways to
keep within limits, budgets and the configuration of the solver.

A discipline or formulation without parameters is its name. One with parameters
is an object with the name as its only member.

## Main definitions

* `Opcode.toJson`, `Discipline.toJson`, `Limits.toJson`, `Formulation.toJson`,
  `PinningBudget.toJson`, `SearchConfig.toJson`: Writing.
* `Opcode.ofJson?`, `Discipline.ofJson?`, `Limits.ofJson?`, `Formulation.ofJson?`,
  `PinningBudget.ofJson?`, `SearchConfig.ofJson?`: Reading.
-/

namespace CyclePlan

namespace Opcode

/-- A kind, as a document writes it. -/
def toJson (k : Opcode) : Json := .str k.name

/-- The kind that a document gives. -/
def ofJson? (j : Json) : Option Opcode := j.toPlainCase? >>= ofName?

end Opcode

namespace IntervalTarget

/-- A target, as a document writes it. -/
def toJson : IntervalTarget → Json
  | fixed interval => .obj [("fixed", .int interval)]
  | perBlock => .str "per_block"

/-- The target that a document gives. -/
def ofJson? (j : Json) : Option IntervalTarget :=
  match j.toCase? with
  | some ("fixed", some value) => value.toSigned?.map fixed
  | some ("per_block", _) => j.toPlainCase?.map fun _ => perBlock
  | _ => none

end IntervalTarget

namespace Discipline

/-- A discipline, as a document writes it. -/
def toJson : Discipline → Json
  | asap => .str "asap"
  | alap sinkBounds => .obj [("alap", .obj [("sink_bounds", Json.ofMap .int sinkBounds)])]
  | noPipeline => .str "no_pipeline"
  | pipelined target => .obj [("pipelined", .obj [("ii", target.toJson)])]

/-- The discipline that a document gives. -/
def ofJson? (j : Json) : Option Discipline :=
  match j.toCase? with
  | some ("asap", _) => j.toPlainCase?.map fun _ => asap
  | some ("alap", some value) => do
    let r ← Record.ofJson? ["sink_bounds"] value
    return alap (← r.required? "sink_bounds" (Json.toMap? Json.toSigned?))
  | some ("no_pipeline", _) => j.toPlainCase?.map fun _ => noPipeline
  | some ("pipelined", some value) => do
    let r ← Record.ofJson? ["ii"] value
    return pipelined (← r.required? "ii" IntervalTarget.ofJson?)
  | _ => none

end Discipline

namespace Limits

/-- Limits, as a document writes them. -/
def toJson (limits : Limits) : Json := .obj [("limits", Json.ofMap Json.ofNat limits.capacities)]

/-- The limits that a document gives. They are taken as they are: any class may
    be named, and a capacity may be zero. -/
def ofJson? (j : Json) : Option Limits := do
  let r ← Record.ofJson? ["limits"] j
  let read (value : Json) : Option Nat := (value.toInt? 0 (UInt32.size - 1)).map Int.toNat
  return ⟨← r.required? "limits" (Json.toMap? read)⟩

end Limits

namespace Formulation

/-- A formulation, as a document writes it. -/
def toJson : Formulation → Json
  | ordering => .str "ordering"
  | timeIndexed horizon =>
    .obj [("time_indexed", .obj [("horizon", Json.ofOption .int horizon)])]

/-- The formulation that a document gives. -/
def ofJson? (j : Json) : Option Formulation :=
  match j.toCase? with
  | some ("ordering", _) => j.toPlainCase?.map fun _ => ordering
  | some ("time_indexed", some value) => do
    let r ← Record.ofJson? ["horizon"] value
    return timeIndexed (← r.optional? "horizon" Json.toSigned?)
  | _ => none

end Formulation

namespace PinningBudget

/-- A budget, as a document writes it. -/
def toJson (b : PinningBudget) : Json :=
  .obj [("iterations", Json.ofNat b.iterations), ("max_latency", .int b.maxLatency)]

/-- The budget that a document gives. What it leaves out takes the default. -/
def ofJson? (j : Json) : Option PinningBudget := do
  let r ← Record.ofJson? ["iterations", "max_latency"] j
  let d : PinningBudget := {}
  return {
    iterations := ← r.default? "iterations" Json.toCount? d.iterations
    maxLatency := ← r.default? "max_latency" Json.toSigned? d.maxLatency }

end PinningBudget

namespace SearchConfig

/-- The configuration of the solver, as a document writes it. -/
def toJson (c : SearchConfig Float) : Json :=
  .obj [("max_nodes", Json.ofNat c.maxNodes), ("tolerance", .float c.tolerance)]

/-- The configuration of the solver that a document gives. -/
def ofJson? (j : Json) : Option (SearchConfig Float) := do
  let r ← Record.ofJson? ["max_nodes", "tolerance"] j
  return {
    maxNodes := ← r.required? "max_nodes" Json.toCount?
    tolerance := ← r.required? "tolerance" Json.toNumber? }

end SearchConfig

end CyclePlan
