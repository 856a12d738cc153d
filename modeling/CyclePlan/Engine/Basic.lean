import CyclePlan.Engine.Discipline
import CyclePlan.Lp.Solution
import CyclePlan.Schedule.Basic

/-!
# The scheduling engine

One scheduling run, from a graph to a schedule.

An engine takes a graph, makes a timing model of it in steps, and solves it.
The steps have an order: first the timing variables, then the dependency and
interval constraints, then the objective, then any number of solves. A call
out of order is refused. Between solves the model can be lent out, so that
others can add constraints to it; the engine then forgets that it was solved.

The calls are actions over the engine. What a refused call changed before it
was refused stays, and is part of its meaning.

A borrower works on a handle, which holds the model, the view, the solver and
a copy of the last solution. Solving through the handle renews the copy and
leaves the engine's own solution alone.

## Main definitions

* `Engine`: A scheduling run.
* `EngineM`: Actions over an engine.
* `Engine.load`, `Engine.addDependencies`, `Engine.addInterval`,
  `Engine.addBlockIntervals`, `Engine.setObjective`, `Engine.build`,
  `Engine.solve`: The steps.
* `Handle`, `Engine.lend`: Lending the model.
* `Engine.achievedInterval?`, `Engine.endCycles`, `Engine.schedule`: Reading
  the result.
-/

namespace CyclePlan

/-- What a borrower of a model works on. -/
structure Handle (α : Type) where
  model : Model α
  /-- The view that the model was made from. -/
  view : View α
  solver : Solver α
  /-- How often the solver has been asked. -/
  asked : Nat
  /-- The last solution that the borrower knows of. -/
  solution : Option (Solution α)

/-- A scheduling run. -/
structure Engine (α : Type) where
  discipline : Discipline
  solver : Solver α
  /-- Whether building the model leaves out forward dependencies between
      operations of different blocks, supernodes apart. -/
  sameBlockOnly : Bool := true
  phase : Phase := .blank
  view : Option (View α) := none
  model : Model α := {}
  hasDependencies : Bool := false
  hasIntervals : Bool := false
  solution : Option (Solution α) := none
  outcome : Option Outcome := none
  /-- How often the solver has been asked. -/
  asked : Nat := 0

/-- An action over an engine that may be refused. -/
abbrev EngineM (α : Type) := ExceptT (SchedulingError α) (StateM (Engine α))

namespace Handle

variable {α : Type}

/-- Solves the model and keeps the answer. -/
def solve (h : Handle α) : Handle α :=
  { h with solution := some (h.solver h.asked h.model), asked := h.asked + 1 }

/-- The solution, if it has an assignment. -/
def assignment? (h : Handle α) : Option (Solution α) := h.solution.filter (·.status.hasAssignment)

/-- Whether there is an assignment. -/
def hasAssignment (h : Handle α) : Bool := h.assignment?.isSome

variable [Scalar α]

/-- The value of an integer variable. -/
def int? (h : Handle α) (var : String) : Option Int := h.assignment? >>= (·.int? var)

/-- The start cycle of a node. -/
def cycle? (h : Handle α) (node : String) : Option Int := h.int? (startVar node)

end Handle

namespace Engine

variable {α : Type}

/-- An answer as an action that changes nothing. -/
def liftExcept {β : Type} : Except (SchedulingError α) β → EngineM α β
  | .ok b => pure b
  | .error e => throw e

/-- Refuses a call because of the phase. -/
def refuse {β : Type} (call : EngineCall) : EngineM α β := do
  throw (.precondition call (.phase (← get).phase))

/-- The view, or a refusal. -/
def viewOrRefuse (call : EngineCall) : EngineM α (View α) := do
  match (← get).view with
  | some v => return v
  | none => refuse call

/-- Building steps on the engine's model. -/
def onModel {β : Type} (act : BuildM α β) : EngineM α β := do
  let e ← get
  let (answer, model) := Id.run (act.run.run e.model)
  set { e with model }
  liftExcept answer

variable [Scalar α]

/-- Allocates the timing variable of a node, never negative. -/
def addStart (n : View.Node α) : ModelM α Unit := do
  let _ ← Model.addVariable (startVar n.name) (some 0) none .integer

/-- The model of a view before any constraint: a timing variable for every
    node. -/
def allocate (name : String) (v : View α) : Except (SchedulingError α) (Model α) :=
  match Id.run ((v.nodes.forM addStart : ModelM α Unit).run.run (.named name)) with
  | (.ok _, model) => .ok model
  | (.error e, _) => .error (.lp e)

/-- Takes a graph, if it has no defects, and allocates the timing variables. -/
def load (g : Graph α) : EngineM α Unit := do
  let e ← get
  if e.phase ≠ .blank then
    refuse .load
  let defects := g.defects
  if !defects.isEmpty then
    throw (.defective defects)
  let view ← liftExcept ((View.ofGraph g).mapError .graph)
  let model ← liftExcept (allocate (g.name ++ "_" ++ e.discipline.name) view)
  set { e with model, view := some view, phase := .allocated }

/-- Whether a forward dependency gets a constraint. Those at supernodes always
    do, so that the order of blocks is kept. -/
def isEmitted (sameBlockOnly : Bool) (edge : View.Node α × View.Node α) : Bool :=
  !sameBlockOnly || edge.1.block == edge.2.block || edge.1.kind.isSuper || edge.2.kind.isSuper

/-- Keeps a consumer behind its producer. -/
def addDependency (edge : View.Node α × View.Node α) : BuildM α Unit := do
  let (u, v) := edge
  let terms : List (String × α) := [(startVar v.name, 1), (startVar u.name, -1)]
  let _ ← BuildM.step (Model.addConstraint terms .ge u.latency)

/-- Adds a constraint for every forward dependency, or only for those within
    blocks and at supernodes, and answers their number. -/
def addDependencies (sameBlockOnly : Bool) : EngineM α Nat := do
  let e ← get
  unless e.phase = .allocated ∨ e.phase = .constrained do
    refuse .addDependencies
  if e.hasDependencies then
    refuse .addDependencies
  let view ← viewOrRefuse .addDependencies
  let emitted := view.forwardPairs.filter (isEmitted sameBlockOnly)
  onModel (emitted.forM addDependency)
  modify fun e => { e with hasDependencies := true, phase := .constrained }
  return emitted.length

/-- Adds the interval constraints of the discipline. -/
def contributeIntervals (call : EngineCall) : EngineM α Nat := do
  let e ← get
  unless e.phase = .allocated ∨ e.phase = .constrained do
    refuse call
  if e.hasIntervals then
    refuse call
  let view ← viewOrRefuse call
  let added ← onModel (e.discipline.addIntervals view)
  modify fun e => { e with hasIntervals := true, phase := .constrained }
  return added

/-- Pins the shared interval to a value and adds a constraint for every
    back-edge. The value replaces that of the discipline, even if the call is
    then refused. -/
def addInterval (interval : Int) : EngineM α Nat := do
  match (← get).discipline with
  | .pipelined (.fixed _) =>
    -- The value is taken over before anything else is looked at.
    modify fun e => { e with discipline := .pipelined (.fixed interval) }
    contributeIntervals .addInterval
  | _ => refuse .addInterval

/-- Adds an interval variable for every block with a back-edge, and a constraint
    for every back-edge. -/
def addBlockIntervals : EngineM α Nat := do
  match (← get).discipline with
  | .pipelined .perBlock => contributeIntervals .addBlockIntervals
  | _ => refuse .addBlockIntervals

/-- Adds the objective of the discipline. -/
def setObjective : EngineM α Unit := do
  let e ← get
  if e.phase ≠ .constrained then
    refuse .setObjective
  if e.discipline.isPipelined ∧ !e.hasIntervals then
    refuse .setObjective
  let view ← viewOrRefuse .setObjective
  onModel (e.discipline.addObjective view)
  modify fun e => { e with phase := .aimed }

/-- Builds the whole model: dependencies, intervals if iterations overlap, and
    the objective. -/
def build : EngineM α Unit := do
  let e ← get
  let _ ← addDependencies e.sameBlockOnly
  match e.discipline with
  | .pipelined (.fixed interval) => let _ ← addInterval interval
  | .pipelined .perBlock => let _ ← addBlockIntervals
  | _ => pure ()
  setObjective

omit [Scalar α] in
/-- The outcome that an answer of a solver means. -/
def outcomeOf (s : Solution α) : Outcome :=
  match s.status with
  | .optimal => .optimal
  | .feasible => .feasible
  | .infeasible => .infeasible
  | .unbounded => .failed "unbounded"
  | .failed reason => .failed reason

/-- The phase after an outcome. -/
def phaseAfter : Outcome → Phase
  | .optimal | .feasible => .solved
  | .infeasible => .infeasible
  | .failed _ => .aimed

omit [Scalar α] in
/-- Solves the model. That there is no assignment, or no answer, is an outcome
    and not a refusal. -/
def solve : EngineM α Outcome := do
  let e ← get
  unless e.phase = .aimed ∨ e.phase = .solved ∨ e.phase = .infeasible do
    refuse .solve
  let solution := e.solver e.asked e.model
  let outcome := outcomeOf solution
  set { e with
    phase := phaseAfter outcome
    solution := some solution
    outcome := some outcome
    asked := e.asked + 1 }
  return outcome

omit [Scalar α] in
/-- The handle that a borrower gets. -/
def handle (e : Engine α) (view : View α) : Handle α :=
  ⟨e.model, view, e.solver, e.asked, e.solution⟩

omit [Scalar α] in
/-- Lends the model to a borrower. The engine counts as unsolved from then on,
    since the model may have changed. -/
def lend {β : Type} (borrow : StateM (Handle α) β) : EngineM α β := do
  let e ← get
  if e.phase = .blank ∨ e.phase = .allocated then
    refuse .lend
  let view ← viewOrRefuse .lend
  let (answer, h) := Id.run (borrow.run (e.handle view))
  -- The borrower's copy of the solution stays with the borrower.
  let phase := if e.phase = Phase.constrained then Phase.constrained else Phase.aimed
  set { e with phase, model := h.model, asked := h.asked }
  return answer

variable (e : Engine α)

/-- The initiation interval of the solution, or the greatest one of the
    blocks. -/
def achievedInterval? : Option Int := do
  let s ← e.solution
  if e.phase = .solved then s.int? intervalVar <|> s.int? maxIntervalVar else none

/-- The solution of a solved engine, with the view. -/
def solved (call : EngineCall) : Except (SchedulingError α) (Solution α × View α) :=
  match e.phase, e.solution, e.view with
  | .solved, some s, some v => .ok (s, v)
  | _, _, _ => .error (.precondition call (.phase e.phase))

/-- The start cycle of the last node of every block. -/
def endCycles : Except (SchedulingError α) (NameMap Int) := do
  let (s, v) ← e.solved .endCycles
  let delays ← v.sinks.mapM fun n =>
    match s.int? (startVar n.name) with
    | some cycle => Except.ok (n.name, cycle)
    | none => .error (.graph (.unknownNode n.name))
  return .ofList delays

/-- The result of the last solve. It has start cycles only as long as the engine
    counts as solved. -/
def schedule : Except (SchedulingError α) (Schedule α) := do
  match e.outcome with
  | none => throw (.precondition .schedule (.phase e.phase))
  | some outcome =>
    if e.phase ≠ .solved then
      return { outcome }
    let (s, v) ← e.solved .schedule
    let cycles := v.nodes.filterMap fun n => (s.int? (startVar n.name)).map (n.name, ·)
    return {
      outcome
      cycles := .ofList cycles
      interval := e.achievedInterval?
      objective := s.objective }

end Engine

/-- The graph with the start cycle of every operation taken from a schedule.
    Operations that the schedule does not mention lose theirs. -/
def Graph.withCycles {α : Type} (g : Graph α) (s : Schedule α) : Graph α :=
  { g with ops := g.ops.map fun op => { op with cycle := s.cycle? op.name } }

end CyclePlan
