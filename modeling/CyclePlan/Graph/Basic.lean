import CyclePlan.Graph.Order
import CyclePlan.Operation

/-!
# Control and data flow graphs

The kernels that are scheduled.

Operations are numbered in the order in which they are added, and so are the
basic blocks they belong to. A dependency between two operations holds within
one iteration of a loop, or it is a back-edge and reaches into the next one.
Control edges join blocks in the same two ways.

A graph is built step by step, and a step can be refused. The steps are
actions over the graph, so that what a refused step leaves behind is part of
its meaning: looking names up comes before any change, with the one exception
that bounding the blocks by supernodes adds them block by block and stops at
the first name that is taken.

Names are looked up in the register that was filled when operations were
added. Editing an operation in place changes neither the register nor the
member lists of the blocks.

## Main definitions

* `Graph`: Operations, dependencies, blocks and control edges.
* `Graph.addBlock`, `Graph.addOperation`, `Graph.addDependency`,
  `Graph.addControlEdge`, `Graph.boundBlocks`: The building steps.
* `Graph.ofParts`: A graph from its parts, with a fresh register.
* `Graph.successors`, `Graph.predecessors`, `Graph.topologicalOrder`: The
  forward dependencies as a relation.
-/

namespace CyclePlan

/-- A dependency between two operations, given by their numbers. -/
structure Dependency where
  source : Nat
  target : Nat
  /-- The consumer belongs to the next iteration. -/
  backEdge : Bool
  deriving DecidableEq, Repr

/-- How many iterations a back-edge reaches ahead. -/
def loopDistance : Int := 1

/-- An edge of the control flow between two blocks, given by their numbers. -/
structure ControlEdge where
  source : Nat
  target : Nat
  /-- The edge closes a loop. -/
  backEdge : Bool
  deriving DecidableEq, Repr

/-- A basic block. -/
structure Block where
  id : Nat
  /-- The label. -/
  name : String
  /-- The operations of the block, supernodes apart. -/
  members : List Nat := []
  /-- The supernode that the block starts with. -/
  source : Option Nat := none
  /-- The supernode that the block ends with. -/
  sink : Option Nat := none
  deriving DecidableEq, Repr

namespace Block

/-- The name of the supernode that a block starts with. -/
def sourceName (id : Nat) : String := s!"ssrc_{id}"

/-- The name of the supernode that a block ends with. -/
def sinkName (id : Nat) : String := s!"ssink_{id}"

/-- Whether both supernodes exist. -/
def isBounded (b : Block) : Bool := b.source.isSome && b.sink.isSome

end Block

/-- Why a graph refuses a step or a question. -/
inductive GraphError where
  | nameTaken (name : String)
  /-- An operation names a block that does not exist. -/
  | operationOutsideBlocks (name : String) (block : Nat)
  /-- A control edge names a block that does not exist. -/
  | unknownBlock (block : Nat)
  | unknownNode (name : String)
  /-- An edge among the parts of a graph names a node that does not exist. -/
  | edgeWithoutNode (source target : Nat)
  | cyclic
  | noSuchNode (id : Nat)
  | noSuchBlock (id : Nat)
  deriving DecidableEq, Repr

/-- The wording of a refusal. -/
def GraphError.message : GraphError → String
  | nameTaken name => s!"Malformed graph: duplicate node name '{name}'"
  | operationOutsideBlocks name block =>
    s!"Malformed graph: node '{name}' references unknown block {block}"
  | unknownBlock block => s!"Malformed graph: unknown block {block}"
  | unknownNode name => s!"Unknown node: {name}"
  | edgeWithoutNode source target =>
    s!"Malformed graph: edge {source} -> {target} references a missing node"
  | cyclic => "Malformed graph: forward dependencies contain a cycle"
  | noSuchNode id => s!"node {id} is out of range"
  | noSuchBlock id => s!"block {id} is out of range"

/-- A kernel's control and data flow graph. -/
structure Graph (α : Type) where
  name : String
  ops : List (Operation α) := []
  /-- The name under which each operation was added. -/
  register : List String := []
  edges : List Dependency := []
  blocks : List Block := []
  controlEdges : List ControlEdge := []

/-- An action over a graph. What it changed before it was refused stays. -/
abbrev GraphM (α : Type) := ExceptT GraphError (StateM (Graph α))

namespace Graph

variable {α : Type}

/-- The number under which a name is registered. -/
def idOf? (g : Graph α) (name : String) : Option Nat := g.register.findIdx? (· == name)

/-- The operation with a number. -/
def node? (g : Graph α) (id : Nat) : Option (Operation α) := g.ops[id]?

/-- The block with a number. -/
def block? (g : Graph α) (id : Nat) : Option Block := g.blocks[id]?

/-- The number of operations, supernodes included. -/
def size (g : Graph α) : Nat := g.ops.length

/-- The dependencies within one iteration. -/
def forwardEdges (g : Graph α) : List Dependency := g.edges.filter fun e => !e.backEdge

/-- The dependencies on the next iteration. -/
def backEdges (g : Graph α) : List Dependency := g.edges.filter fun e => e.backEdge

/-- The consumers of an operation within one iteration, in the order of the
    edges. -/
def successors (g : Graph α) (id : Nat) : List Nat :=
  (g.forwardEdges.filter fun e => e.source == id).map (·.target)

/-- The producers for an operation within one iteration, in the order of the
    edges. -/
def predecessors (g : Graph α) (id : Nat) : List Nat :=
  (g.forwardEdges.filter fun e => e.target == id).map (·.source)

/-- The supernodes that end blocks, in the order of the blocks. -/
def blockSinks (g : Graph α) : List Nat := g.blocks.filterMap (·.sink)

/-- The nodes in an order that follows the forward dependencies, the least
    number first wherever several could come next. -/
def topologicalOrder (g : Graph α) : Except GraphError (List Nat) :=
  let n := g.size
  let arrows := g.forwardEdges.map fun e => (e.source, e.target)
  match arrows.flatMap (fun e => [e.1, e.2]) |>.find? (n ≤ ·) with
  | some id => .error (.noSuchNode id)
  | none =>
    match linearExtension? n arrows with
    | some order => .ok order
    | none => .error .cyclic

/-- Appends a block and answers its number. -/
def addBlock (name : String) : GraphM α Nat := do
  let g ← get
  let id := g.blocks.length
  let b : Block := { id, name }
  set { g with blocks := g.blocks ++ [b] }
  return id

/-- Appends an operation to its block and answers its number. Supernodes are
    not members of their block. -/
def addOperation (op : Operation α) : GraphM α Nat := do
  let g ← get
  if g.register.contains op.name then
    throw (.nameTaken op.name)
  if g.blocks.length ≤ op.block then
    throw (.operationOutsideBlocks op.name op.block)
  let id := g.ops.length
  let join (b : Block) : Block := { b with members := b.members ++ [id] }
  set { g with
    ops := g.ops ++ [op]
    register := g.register ++ [op.name]
    blocks := if op.kind.isSuper then g.blocks else g.blocks.modify op.block join }
  return id

/-- Appends an operation with the default latency of its kind. -/
def addOperationOfKind [Scalar α] (name : String) (kind : Opcode) (block : Nat) : GraphM α Nat :=
  addOperation (.ofKind name kind block)

/-- The number under which a name is registered, or a refusal. -/
def requireNode (name : String) : GraphM α Nat := do
  match (← get).idOf? name with
  | some id => return id
  | none => throw (.unknownNode name)

/-- The graph with one more dependency, if it is not there yet. -/
def withEdge (g : Graph α) (e : Dependency) : Graph α :=
  if g.edges.contains e then g else { g with edges := g.edges ++ [e] }

/-- Adds a dependency between two operations, given by their names. -/
def addEdge (source target : String) (backEdge : Bool) : GraphM α Unit := do
  let source ← requireNode source
  let target ← requireNode target
  modify (·.withEdge { source, target, backEdge })

/-- Adds a dependency within one iteration. -/
def addDependency (source target : String) : GraphM α Unit := addEdge source target false

/-- Adds a dependency on the next iteration. -/
def addBackEdge (source target : String) : GraphM α Unit := addEdge source target true

/-- Adds a control edge between two blocks. -/
def addControlEdge (source target : Nat) (backEdge : Bool) : GraphM α Unit := do
  let g ← get
  if g.blocks.length ≤ source then
    throw (.unknownBlock source)
  if g.blocks.length ≤ target then
    throw (.unknownBlock target)
  let e : ControlEdge := { source, target, backEdge }
  unless g.controlEdges.contains e do
    set { g with controlEdges := g.controlEdges ++ [e] }

/-- Joins one member of a block to the supernodes of the block: to the first
    one if no member comes before it, and to the last one if no member comes
    after it. -/
def bindMember (members : List Nat) (source sink : Nat) (g : Graph α) (op : Nat) : Graph α :=
  let g :=
    if (g.predecessors op).any members.contains then g else g.withEdge ⟨source, op, false⟩
  if (g.successors op).any members.contains then g else g.withEdge ⟨op, sink, false⟩

/-- Gives a block that lacks a supernode both of them, and joins its members to
    them. -/
def boundBlock [Scalar α] (id : Nat) : GraphM α Unit := do
  let some b := (← get).block? id | return
  if b.isBounded then return
  let source ← addOperationOfKind (Block.sourceName id) .superSource id
  let sink ← addOperationOfKind (Block.sinkName id) .superSink id
  -- Supernodes join no member list, so `b` still lists the members.
  modify fun g =>
    let g := b.members.foldl (bindMember b.members source sink) g
    let g := if b.members.isEmpty then g.withEdge ⟨source, sink, false⟩ else g
    { g with blocks := g.blocks.modify id fun b => { b with source, sink } }

/-- The supernodes that a control edge joins, the last of one block and the
    first of another. -/
def controlLink? (g : Graph α) (c : ControlEdge) : Except GraphError (Option (Nat × Nat)) := do
  let some a := g.block? c.source | throw (.noSuchBlock c.source)
  match a.sink with
  | none => return none
  | some sink =>
    let some b := g.block? c.target | throw (.noSuchBlock c.target)
    return b.source.map (sink, ·)

/-- Bounds every block by a first and a last supernode, and joins the last
    supernode of a block to the first of each block that control passes to. A
    block that has both already is left alone. -/
def boundBlocks [Scalar α] : GraphM α Unit := do
  for id in List.range (← get).blocks.length do
    boundBlock id
  -- All blocks are bounded by now. Links are looked up before any is added.
  let g ← get
  let links ← (g.controlEdges.filter fun c => !c.backEdge).mapM fun c =>
    (liftExcept (g.controlLink? c) : GraphM α _)
  for link in links.filterMap id do
    modify (·.withEdge ⟨link.1, link.2, false⟩)
where
  /-- A pure answer as an action that changes nothing. -/
  liftExcept {β : Type} : Except GraphError β → GraphM α β
    | .ok b => pure b
    | .error e => throw e

/-- Edits an operation in place and answers the result. The register and the
    member lists stay as they are. -/
def editNode (id : Nat) (edit : Operation α → Operation α) : GraphM α (Operation α) := do
  let g ← get
  match g.node? id with
  | none => throw (.noSuchNode id)
  | some op =>
    set { g with ops := g.ops.set id (edit op) }
    return edit op

/-- The first name that occurs again further on. -/
def repeatedName? : List String → List String → Option String
  | _, [] => none
  | seen, name :: rest =>
    if seen.contains name then some name else repeatedName? (name :: seen) rest

/-- A graph from its parts. The names have to be distinct, and every edge has
    to join two of the operations. -/
def ofParts (name : String) (ops : List (Operation α)) (edges : List Dependency)
    (blocks : List Block) (controlEdges : List ControlEdge) : Except GraphError (Graph α) :=
  match repeatedName? [] (ops.map (·.name)) with
  | some name => .error (.nameTaken name)
  | none =>
    match edges.find? fun e => ops.length ≤ e.source || ops.length ≤ e.target with
    | some e => .error (.edgeWithoutNode e.source e.target)
    | none => .ok { name, ops, register := ops.map (·.name), edges, blocks, controlEdges }

end Graph

end CyclePlan
