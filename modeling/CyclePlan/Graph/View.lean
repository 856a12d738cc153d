import CyclePlan.Graph.Basic

/-!
# Scheduling views

What is left of a graph when branches and constants are taken out.

Constraints are made from a view. Its nodes are the kept operations in the
order of their numbers, and a forward edge joins two of them wherever the
graph has a forward path between them whose inner nodes are all stripped.
Stripped operations take no time, so no precedence is lost. A back-edge stays
only if both of its ends do.

The forward edges of a node are found by a walk that keeps its open ends on a
stack, so the consumer added last is met first. That order is part of the
result: constraints are numbered by it, and the numbering decides which of
several optimal schedules is found.

## Main definitions

* `View.Node`, `View.Edge`, `View`: The view.
* `walk`: The kept nodes that a walk through stripped ones meets.
* `View.ofGraph`: The view of a graph.
* `View.forwardPairs`, `View.backPairs`: The edges as pairs of nodes.
* `View.blocks`, `View.loopBlocks`, `View.sinks`, `View.sinkOf?`: What the
  constraints are grouped by.
-/

namespace CyclePlan

/-- A kept operation. -/
structure View.Node (α : Type) where
  /-- The number of the operation in the graph. -/
  origin : Nat
  name : String
  kind : Opcode
  block : Nat
  /-- Cycles between the start and the earliest start of a consumer. -/
  latency : α

/-- An edge between two nodes of a view, given by their positions. -/
structure View.Edge where
  source : Nat
  target : Nat
  deriving DecidableEq, Repr

/-- A graph without its branches and constants. -/
structure View (α : Type) where
  nodes : List (View.Node α)
  forward : List View.Edge
  back : List View.Edge
  /-- The positions in an order that follows the forward edges. -/
  order : List Nat
  /-- The names of the operations that were taken out. -/
  stripped : List String

namespace Graph

/-- Meeting an unseen node leaves fewer of them. -/
theorem length_unseen_erase {unseen : List Nat} {s : Nat} (h : s ∈ unseen) :
    (unseen.erase s).length < unseen.length := by
  have pos : 0 < unseen.length := List.length_pos_of_mem h
  simpa [h] using Nat.sub_lt pos Nat.one_pos

/-- The nodes at which a walk stops, in the order in which it meets them. The
    walk takes the top of the stack, passes over what it has seen before, and
    goes on through a node at which it does not stop with the successors of
    that node, the last one first. -/
def walk (next : Nat → List Nat) (stops : Nat → Bool) (unseen stack : List Nat) : List Nat :=
  match stack with
  | [] => []
  | s :: stack =>
    -- A node can be on the stack several times; the first time counts.
    if s ∈ unseen then
      if stops s then s :: walk next stops (unseen.erase s) stack
      else walk next stops (unseen.erase s) ((next s).reverse ++ stack)
    else walk next stops unseen stack
termination_by (unseen.length, stack.length)
decreasing_by
  · exact Prod.Lex.left _ _ (length_unseen_erase ‹s ∈ unseen›)
  · exact Prod.Lex.left _ _ (length_unseen_erase ‹s ∈ unseen›)
  · exact Prod.Lex.right _ (by simp)

variable {α : Type}

/-- The numbers of the kept operations. -/
def keptIds (g : Graph α) : List Nat :=
  (g.ops.zipIdx.filter fun p => !p.1.kind.isStripped).map (·.2)

/-- The kept nodes that a forward path through stripped nodes leads to from a
    node. -/
def keptSuccessors (g : Graph α) (id : Nat) : List Nat :=
  walk g.successors g.keptIds.contains (g.forwardEdges.map (·.target)).eraseDups
    (g.successors id).reverse

end Graph

namespace View

variable {α : Type}

/-- The view of a graph. It fails if the forward edges that are left contain a
    cycle. -/
def ofGraph (g : Graph α) : Except GraphError (View α) :=
  let keptIds := g.keptIds
  let position? (id : Nat) : Option Nat := keptIds.findIdx? (· == id)
  let nodes := (g.ops.zipIdx.filter fun p => !p.1.kind.isStripped).map fun p =>
    { origin := p.2, name := p.1.name, kind := p.1.kind, block := p.1.block,
      latency := p.1.latency : View.Node α }
  let stripped := (g.ops.filter (·.kind.isStripped)).map (·.name)
  -- Producers in the order of their numbers, the consumers of each as met.
  let forward := keptIds.zipIdx.flatMap fun p =>
    (g.keptSuccessors p.1).filterMap fun id => (position? id).map (View.Edge.mk p.2)
  let back := g.backEdges.filterMap fun e => do
    return ⟨← position? e.source, ← position? e.target⟩
  match Graph.linearExtension? nodes.length (forward.map fun e => (e.source, e.target)) with
  | some order => .ok { nodes, forward, back, order, stripped }
  | none => .error .cyclic

variable (v : View α)

/-- The number of nodes. -/
def size : Nat := v.nodes.length

/-- The node at a position. -/
def node? (i : Nat) : Option (View.Node α) := v.nodes[i]?

/-- The position of the last node with a name. -/
def position? (name : String) : Option Nat :=
  (v.nodes.zipIdx.reverse.find? fun p => p.1.name == name).map (·.2)

/-- The two nodes that an edge joins. -/
def ends? (e : View.Edge) : Option (View.Node α × View.Node α) := do
  return (← v.node? e.source, ← v.node? e.target)

/-- The forward edges as pairs of nodes. -/
def forwardPairs : List (View.Node α × View.Node α) := v.forward.filterMap v.ends?

/-- The back-edges as pairs of nodes. -/
def backPairs : List (View.Node α × View.Node α) := v.back.filterMap v.ends?

/-- The nodes in an order that follows the forward edges. -/
def orderedNodes : List (View.Node α) := v.order.filterMap v.node?

/-- Whether an edge stays inside one block. -/
def staysInBlock (e : View.Edge) : Bool :=
  match v.ends? e with
  | some (a, b) => a.block == b.block
  | none => false

/-- Numbers without repetition, in ascending order. -/
def ascending (ns : List Nat) : List Nat := ns.eraseDups.mergeSort (· ≤ ·)

/-- The blocks that have a node in the view, in ascending order. -/
def blocks : List Nat := ascending (v.nodes.map (·.block))

/-- The blocks that a back-edge starts in, in ascending order. -/
def loopBlocks : List Nat := ascending (v.backPairs.map (·.1.block))

/-- The positions of the nodes of a kind. -/
def positionsOf (kind : Opcode) : List Nat :=
  (v.nodes.zipIdx.filter fun p => p.1.kind == kind).map (·.2)

/-- The nodes that end blocks. -/
def sinks : List (View.Node α) := v.nodes.filter (·.kind == .superSink)

/-- The position of the first node that ends a block. -/
def sinkPosition? (block : Nat) : Option Nat :=
  v.nodes.findIdx? fun n => n.kind == .superSink && n.block == block

/-- The first node that ends a block. -/
def sinkOf? (block : Nat) : Option (View.Node α) :=
  v.nodes.find? fun n => n.kind == .superSink && n.block == block

end View

end CyclePlan
