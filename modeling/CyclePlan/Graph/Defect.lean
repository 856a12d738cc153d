import CyclePlan.Graph.Basic

/-!
# Defects of graphs

What makes a graph unfit for scheduling.

A graph is inspected as a whole and every defect is reported, in a fixed
order: first the operations one by one, then the edges that lead nowhere, then
the supernodes of each block, the edges at supernodes, the loop-carried
dependencies, and last the forward dependencies as a relation. Where an edge
leads nowhere the inspection stops after the second part, because the rest
looks at both ends of every edge.

## Main definitions

* `SuperRole`: The two supernodes of a block.
* `GraphDefect`: A defect.
* `Graph.defects`: All defects of a graph; none if it is fit.
-/

namespace CyclePlan

/-- The two supernodes of a block. -/
inductive SuperRole where
  | source
  | sink
  deriving DecidableEq, Repr

namespace SuperRole

/-- The kind of the supernode. -/
def kind : SuperRole → Opcode
  | source => .superSource
  | sink => .superSink

end SuperRole

/-- Something that makes a graph unfit for scheduling. -/
inductive GraphDefect (α : Type) where
  | duplicateName (node : String)
  | invalidBlock (node : String) (block : Nat)
  /-- A latency is negative or not finite. -/
  | invalidLatency (node : String) (latency : α)
  | danglingEdge (source target : Nat)
  | missingSuperNode (block : String) (role : SuperRole)
  | repeatedSuperNode (block : String) (role : SuperRole) (count : Nat)
  /-- A block's first node is entered from something other than a last one. -/
  | sourceEntered (node predecessor : String)
  /-- A block's last node is left to something other than a first one. -/
  | sinkLeft (node successor : String)
  /-- A loop-carried dependency leaves its block. -/
  | crossBlockBackEdge (source target : String) (sourceBlock targetBlock : Nat)
  | cyclic

/-- The wording of a defect. -/
def GraphDefect.message {α : Type} [Scalar α] : GraphDefect α → String
  | duplicateName node => s!"Duplicate node name: {node}"
  | invalidBlock node block => s!"Node {node} references unknown block {block}"
  | invalidLatency node latency => s!"Node {node} has invalid latency " ++ Scalar.text latency
  | danglingEdge source target => s!"Edge {source} -> {target} references a missing node"
  | missingSuperNode block role => s!"Block {block} has no " ++ role.kind.name
  | repeatedSuperNode block role count => s!"Block {block} has {count} " ++ role.kind.name ++ "s"
  | sourceEntered node predecessor => s!"Supersource {node} has predecessor {predecessor}"
  | sinkLeft node successor => s!"Supersink {node} has successor {successor}"
  | crossBlockBackEdge source target sourceBlock targetBlock =>
    s!"Back-edge {source} -> {target} spans blocks {sourceBlock} and {targetBlock}"
  | cyclic => "Cycle detected in forward dependencies"

namespace Graph

variable {α : Type} [Scalar α]

/-- Whether a latency is finite and not negative. -/
def isLatency (x : α) : Bool := Scalar.isFinite x && !decide (x < 0)

/-- The defects of operations, one operation after the other. -/
def operationDefects (blocks : Nat) : List String → List (Operation α) → List (GraphDefect α)
  | _, [] => []
  | seen, op :: rest =>
    (if seen.contains op.name then [.duplicateName op.name] else [])
      ++ (if blocks ≤ op.block then [.invalidBlock op.name op.block] else [])
      ++ (if isLatency op.latency then [] else [.invalidLatency op.name op.latency])
      ++ operationDefects blocks (op.name :: seen) rest

/-- The edges that lead from or to a node that does not exist. -/
def danglingEdges (g : Graph α) : List Dependency :=
  g.edges.filter fun e => g.size ≤ e.source || g.size ≤ e.target

/-- The defect of a block in one of its supernodes. -/
def superNodeDefects (g : Graph α) (b : Block) (role : SuperRole) : List (GraphDefect α) :=
  match g.ops.countP fun op => op.kind == role.kind && op.block == b.id with
  | 0 => [.missingSuperNode b.name role]
  | 1 => []
  | k => [.repeatedSuperNode b.name role k]

/-- The defects of a forward edge at a supernode. -/
def connectionDefects (u v : Operation α) : List (GraphDefect α) :=
  (if v.kind = .superSource ∧ u.kind ≠ .superSink then [.sourceEntered v.name u.name] else [])
    ++ (if u.kind = .superSink ∧ v.kind ≠ .superSource then [.sinkLeft u.name v.name] else [])

/-- The defect of a back-edge. One that touches a stripped operation is not
    looked at, since no constraint is made from it. -/
def backEdgeDefects (u v : Operation α) : List (GraphDefect α) :=
  if u.kind.isStripped || v.kind.isStripped || u.block == v.block then []
  else [.crossBlockBackEdge u.name v.name u.block v.block]

/-- What a test finds at the two ends of every edge. -/
def atEnds (g : Graph α) (test : Operation α → Operation α → List (GraphDefect α))
    (edges : List Dependency) : List (GraphDefect α) :=
  edges.flatMap fun e =>
    match g.node? e.source, g.node? e.target with
    | some u, some v => test u v
    | _, _ => []

/-- All defects of a graph. -/
def defects (g : Graph α) : List (GraphDefect α) :=
  let ofOperations := operationDefects g.blocks.length [] g.ops
  let dangling : List (GraphDefect α) :=
    g.danglingEdges.map fun e => .danglingEdge e.source e.target
  if !dangling.isEmpty then ofOperations ++ dangling
  else
    let cycles : List (GraphDefect α) :=
      match g.topologicalOrder with
      | .ok _ => []
      | .error _ => [.cyclic]
    ofOperations
      ++ g.blocks.flatMap (fun b => g.superNodeDefects b .source ++ g.superNodeDefects b .sink)
      ++ g.atEnds connectionDefects g.forwardEdges
      ++ g.atEnds backEdgeDefects g.backEdges
      ++ cycles

end Graph

end CyclePlan
