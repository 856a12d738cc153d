/-!
# Linear Extensions

Ordering numbered nodes so that every edge goes forward.

The loop counts, for every node, the edges that still lead to it. Nodes that no
edge leads to are ready. The least ready node is taken, each edge that leaves it
is struck off the count of its target, and a target whose count comes down to
zero gets ready in turn. An edge that is listed twice is counted twice and struck
off twice. Nodes on a cycle never get ready, so the order reaches every node
exactly where there is no cycle.

## Main definitions

* `Frontier`: The counts and the nodes that are ready.
* `takeReady`: The nodes in the order in which they are taken.
* `linearExtension?`: That order, if it reaches every node.
-/

namespace CyclePlan

namespace Graph

/-- How far an ordering has come. -/
structure Frontier where
  /-- The number of edges that still lead to each node. -/
  entering : List Nat
  /-- The nodes that can be taken next, in no particular order. -/
  ready : List Nat
  deriving Repr, DecidableEq

namespace Frontier

/-- The frontier of the nodes below `n`, none of which was taken. -/
def start (n : Nat) (edges : List (Nat × Nat)) : Frontier :=
  let entering := (List.range n).map fun v => edges.countP fun e => e.2 == v
  { entering, ready := (List.range n).filter fun v => entering[v]? == some 0 }

/-- Strikes off one edge to a node. The last one makes the node ready. -/
def release (f : Frontier) (v : Nat) : Frontier :=
  let entering := f.entering.modify v (· - 1)
  { entering, ready := if entering[v]? = some 0 then v :: f.ready else f.ready }

end Frontier

/-- Takes up to `steps` nodes, each the least one that is ready. -/
def takeReady (edges : List (Nat × Nat)) : Nat → Frontier → List Nat
  | 0, _ => []
  | steps + 1, f =>
    match f.ready.min? with
    | none => []
    | some u =>
      let targets := (edges.filter fun e => e.1 == u).map (·.2)
      let rest := { f with ready := f.ready.erase u }
      u :: takeReady edges steps (targets.foldl Frontier.release rest)

/-- The order of the nodes below `n` in which every edge goes forward and each
    node is the least that can come next, if there is one. -/
def linearExtension? (n : Nat) (edges : List (Nat × Nat)) : Option (List Nat) :=
  let order := takeReady edges n (.start n edges)
  if order.length = n then some order else none

end Graph

end CyclePlan
