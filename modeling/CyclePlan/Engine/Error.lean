import CyclePlan.Graph.Defect
import CyclePlan.Lp.Model

/-!
# Scheduling errors

Why a scheduling call is refused.

That no schedule exists is never an error; it is an outcome. Errors say that a
call was made at the wrong time, that a graph or a configuration is unfit,
that a model refused a step, or that a search was given up. Each constructor
is one cause, and the wording of all of them stands in one place.

## Main definitions

* `Phase`: How far an engine has come.
* `EngineCall`, `Obstacle`: A call, and what stands in its way.
* `ConfigError`: An unfit configuration.
* `PinningFailure`: Why pinning operations to columns gave up.
* `SchedulingError`: Any of the causes.
* `SchedulingError.message`: The wording.
-/

namespace CyclePlan

/-- How far an engine has come. -/
inductive Phase where
  /-- No graph has been taken. -/
  | blank
  /-- The timing variables exist. -/
  | allocated
  /-- Dependency or interval constraints exist. -/
  | constrained
  /-- The model has an objective. -/
  | aimed
  /-- The last solve of the model gave an assignment. -/
  | solved
  /-- The last solve found that there is none. -/
  | infeasible
  deriving DecidableEq, Repr

/-- The wording of a phase. -/
def Phase.text : Phase → String
  | blank => "uninitialized"
  | allocated => "initialized"
  | constrained => "constraints-built"
  | aimed => "objective-set"
  | solved => "solved"
  | infeasible => "infeasible"

/-- The calls that depend on how far an engine has come. -/
inductive EngineCall where
  | load
  | addDependencies
  | addInterval
  | addBlockIntervals
  | setObjective
  | solve
  | lend
  /-- Reading when the blocks end. -/
  | endCycles
  | schedule
  | addResources
  deriving DecidableEq, Repr

/-- The name of a call in messages. -/
def EngineCall.name : EngineCall → String
  | load => "initialize"
  | addDependencies => "add_dependency_constraints"
  | addInterval => "add_ii_constraint"
  | addBlockIntervals => "add_per_block_ii_constraints"
  | setObjective => "set_objective"
  | solve => "solve"
  | lend => "pass_scheduling_ilp"
  | endCycles => "sink_delays"
  | schedule => "schedule"
  | addResources => "add_resource_constraints"

/-- What stands in the way of a call. -/
inductive Obstacle where
  /-- The engine has come too far or not far enough. -/
  | phase (p : Phase)
  /-- The engine follows a discipline without intervals. -/
  | discipline (name : String)
  /-- The shared interval has no variable yet. -/
  | noInterval
  /-- The greatest interval has no variable yet. -/
  | noBlockIntervals
  /-- There is neither a horizon nor a solution to derive one from. -/
  | noHorizon
  deriving DecidableEq, Repr

/-- The wording of an obstacle. -/
def Obstacle.text : Obstacle → String
  | phase p => p.text
  | discipline name => s!"configured for {name}"
  | noInterval => "missing the II constraint"
  | noBlockIntervals => "missing the per-block II constraints"
  | noHorizon => "time-indexed strategy needs a solved model or an explicit horizon"

/-- An unfit configuration. -/
inductive ConfigError where
  | unknownKind (name : String)
  | unknownDiscipline (name : String)
  /-- A block's last node has no bound to be scheduled against. -/
  | missingSinkBound (sink : String)
  | intervalTooSmall (interval : Int)
  /-- A search for an interval has nothing to try. -/
  | nothingToTry (maxInterval : Int)
  /-- A document does not have the shape of a configuration. -/
  | unreadable
  deriving DecidableEq, Repr

/-- The wording of an unfit configuration. -/
def ConfigError.text : ConfigError → String
  | unknownKind name => s!"unknown operation type '{name}'"
  | unknownDiscipline name =>
    s!"unknown scheduling technique '{name}' (expected asap, alap, no_pipeline or pipelined)"
  | missingSinkBound sink =>
    s!"ALAP needs a latency bound for every supersink; '{sink}' has none"
  | intervalTooSmall interval => s!"initiation interval must be at least 1, got {interval}"
  | nothingToTry maxInterval => s!"max_ii must be at least 1, got {maxInterval}"
  | unreadable => "invalid configuration"

/-- Why pinning operations to columns gave up. -/
inductive PinningFailure where
  /-- The passes were used up with operations still waiting. -/
  | budgetExhausted (budget pending : Nat)
  /-- An operation would be pushed past the latest cycle allowed. -/
  | latencyBoundExceeded (node : String) (cycle bound : Int)
  /-- Pushing an operation left no assignment. -/
  | infeasible (node : String) (cycle : Int)
  /-- There was no assignment to start from. -/
  | unsolved
  deriving DecidableEq, Repr

/-- The wording of a failure. -/
def PinningFailure.text : PinningFailure → String
  | budgetExhausted budget pending =>
    s!"iteration budget of {budget} passes exhausted with {pending} operation(s) pending"
  | latencyBoundExceeded node cycle bound =>
    s!"pushing `{node}` to cycle {cycle} exceeds the latency bound {bound}"
  | infeasible node cycle => s!"pushing `{node}` to cycle {cycle} made the ILP infeasible"
  | unsolved => "no solved schedule to enforce resources against"

/-- Why a scheduling call is refused. -/
inductive SchedulingError (α : Type) where
  | config (cause : ConfigError)
  /-- A call is made at the wrong time. -/
  | precondition (call : EngineCall) (obstacle : Obstacle)
  | graph (cause : GraphError)
  | defective (defects : List (GraphDefect α))
  | backEdgeLeavesBlock (source target : String) (sourceBlock targetBlock : Nat)
  | blockWithoutSink (block : Nat)
  | lp (cause : ModelError α)
  | intervalsExhausted (maxInterval : Int)
  /-- Pinning operations to columns gave up. -/
  | pinning (cause : PinningFailure)

/-- The wording of an error. -/
def SchedulingError.message {α : Type} [Scalar α] : SchedulingError α → String
  | config cause => "Configuration error: " ++ cause.text
  | precondition call obstacle =>
    "Precondition violated: `" ++ call.name ++ "` is not allowed while the engine is "
      ++ obstacle.text
  | graph cause => cause.message
  | defective defects => "Malformed graph: " ++ "; ".intercalate (defects.map (·.message))
  | backEdgeLeavesBlock source target sourceBlock targetBlock =>
    s!"Malformed graph: back-edge {source} ({sourceBlock}) -> {target} ({targetBlock}) "
      ++ "spans two basic blocks"
  | blockWithoutSink block => s!"Malformed graph: block {block} has no supersink"
  | lp cause => "LP model error: " ++ cause.message
  | intervalsExhausted maxInterval =>
    s!"No feasible initiation interval in 1..={maxInterval}"
  | pinning cause => "Resource enforcement failed: " ++ cause.text

end CyclePlan
