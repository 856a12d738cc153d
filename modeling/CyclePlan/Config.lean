import CyclePlan.Document.Parameters
import CyclePlan.IntervalSearch
import CyclePlan.Json.Reader
import CyclePlan.Json.Writer
import CyclePlan.Scalar.Double
import CyclePlan.Schedule.KeyFigures

/-!
# Configurations

Everything that sets up one run, as one document.

What a document leaves out takes a default. Capacities are kept as the
document gives them until limits are made of them, so that an unfit one spoils
nothing but its own entry.

## Main definitions

* `RunConfig`: A configuration.
* `RunConfig.ofText?`, `RunConfig.text`: Reading and writing.
* `RunConfig.limits`: The limits, with the entries that are refused.
* `RunConfig.discipline`, `RunConfig.engine`, `RunConfig.intervalSearch`: What a
  configuration sets up.
* `RunConfig.runEngine`: One run with resource constraints.
-/

namespace CyclePlan

/-- Everything that sets up one run. -/
structure RunConfig where
  discipline : String := "asap"
  /-- The capacities, by class, as the document gives them. -/
  resources : NameMap Json := .empty
  /-- How limits are expressed when iterations do not overlap. -/
  formulation : Formulation := .ordering
  /-- Whether forward dependencies between blocks are left out. -/
  sameBlockOnly : Bool := true
  maxInterval : Int := 40
  pinning : PinningBudget := {}
  solver : SearchConfig Float := .standard

/-- What a run with resource constraints gives. -/
structure RunReport where
  /-- The number of resource constraints. -/
  added : Nat
  schedule : Schedule Float
  /-- What the check of the limits finds. -/
  violations : List Violation
  keyFigures : KeyFigures

namespace RunConfig

/-- How deeply documents may be nested. -/
def maxDepth : Nat := 127

/-- A capacity as a document gives it: any value whose parts can be read and
    that is not nested too deeply, two levels down in the document. -/
def rawValue? (j : Json) : Option Json :=
  if j.isReadable ∧ j.depth + 2 ≤ maxDepth then some (sortMembers j) else none
where
  /-- The value with the members of every object by name, the last of a repeated
      name. -/
  sortMembers : Json → Json
    | .arr items => .arr (sortItems items)
    | .obj members => .obj (NameMap.ofList (sortEach members)).entries
    | j => j
  sortItems : List Json → List Json
    | [] => []
    | j :: rest => sortMembers j :: sortItems rest
  sortEach : List (String × Json) → List (String × Json)
    | [] => []
    | (name, j) :: rest => (name, sortMembers j) :: sortEach rest

/-- A configuration, as a document writes it. -/
def toJson (c : RunConfig) : Json :=
  .obj [("technique", .str c.discipline), ("resources", Json.ofMap id c.resources),
    ("strategy", c.formulation.toJson), ("restrict_to_same_block", .bool c.sameBlockOnly),
    ("max_ii", .int c.maxInterval), ("enforcement", c.pinning.toJson),
    ("solver", c.solver.toJson)]

/-- The configuration that a document gives. -/
def ofJson? (j : Json) : Option RunConfig := do
  let r ← Record.ofJson? ["technique", "resources", "strategy", "restrict_to_same_block", "max_ii",
    "enforcement", "solver"] j
  let d : RunConfig := {}
  return {
    discipline := ← r.default? "technique" Json.toText? d.discipline
    resources := ← r.default? "resources" (Json.toMap? rawValue?) d.resources
    formulation := ← r.default? "strategy" Formulation.ofJson? d.formulation
    sameBlockOnly := ← r.default? "restrict_to_same_block" Json.toBool? d.sameBlockOnly
    maxInterval := ← r.default? "max_ii" Json.toSigned? d.maxInterval
    pinning := ← r.default? "enforcement" PinningBudget.ofJson? d.pinning
    solver := ← r.default? "solver" SearchConfig.ofJson? d.solver }

/-- Reads a configuration. -/
def ofText? (s : String) : Except ConfigError RunConfig :=
  match Json.parse? s >>= ofJson? with
  | some c => .ok c
  | none => .error .unreadable

variable (c : RunConfig)

/-- The text of a configuration. -/
def text : String := c.toJson.pretty

/-- The discipline that is named. -/
def disciplineOf : Except ConfigError Discipline := Discipline.ofText? c.discipline

/-- The capacities that are integers, and the refusals of the others. -/
def capacities : List (String × Int) × List CapacityError :=
  (c.resources.entries.filterMap fun (name, value) => value.toSigned?.map (name, ·),
   c.resources.entries.filterMap fun (name, value) =>
     if value.toSigned?.isNone then some (.malformed name value) else none)

/-- The limits, and the refusals: first those of integers that are no capacity
    or belong to no class, then those of values that are no integers. -/
def limits : Limits × List CapacityError :=
  let (entries, malformed) := c.capacities
  let (limits, rejected) := Limits.ofEntries entries
  (limits, rejected ++ malformed)

/-- An engine for a discipline. -/
def engine (t : Discipline) : Engine Float :=
  { discipline := t, solver := builtInSolver c.solver, sameBlockOnly := c.sameBlockOnly }

/-- The search for an interval. Resources are limited if any entry is fit. -/
def intervalSearch : IntervalSearch Float × List CapacityError :=
  let (limits, rejected) := c.limits
  ({ maxInterval := c.maxInterval
     limits := if limits.toList.isEmpty then none else some limits
     budget := c.pinning
     sameBlockOnly := c.sameBlockOnly
     solver := builtInSolver c.solver },
   rejected)

/-- Builds and solves, adds the resource constraints, and solves again. Answers
    their number. -/
def constrainedRun (g : Graph Float) : EngineM Float Nat := do
  Engine.load g
  Engine.build
  let _ ← Engine.solve
  let added ← Engine.lend (addResources c.limits.1 c.formulation).run
  let added ← Engine.liftExcept added
  let _ ← Engine.solve
  return added.length

/-- One run of the configured discipline with resource constraints, checked and
    measured. -/
def runEngine (g : Graph Float) : Except (SchedulingError Float) RunReport := do
  let t ← c.disciplineOf.mapError .config
  -- A solve without an answer is an outcome, so the run goes on after it.
  let (answer, e) := Id.run ((c.constrainedRun g).run.run (c.engine t))
  let added ← answer
  let schedule ← e.schedule
  let keyFigures ← (schedule.keyFigures g).mapError .graph
  return { added, schedule, violations := schedule.checkIssue g c.limits.1, keyFigures }

end RunConfig

end CyclePlan
