import Dataflow.Expr.Order
import Dataflow.Expr.Printer
import Dataflow.Graph.Dominator
/-!
# Dependency graphs

The graph of an expression has a position for every node it reaches, inputs before their consumers and the
expression itself last.  The dominator parent of a position is the nearest one that lies on every way from it
along consumers to the last; the root has none.
-/
namespace Dataflow

structure GraphNode where
  expr : Expr
  /-- The positions of its inputs, in order and with repetitions. -/
  inputs : List Nat
  /-- The positions that have it among their inputs, in ascending order and with repetitions. -/
  consumers : List Nat
  /-- The number of steps from the root down to it in the dominator tree. -/
  depth : Nat
  dominatorParent : Option Nat
  /-- The positions whose dominator parent it is, in descending order. -/
  dominatorChildren : List Nat
  deriving Inhabited

structure DependencyGraph where
  nodes : Array GraphNode
  deriving Inhabited

namespace Expr

/-- Where the node of `e` stands in a list of nodes. -/
def positionIn? (order : List Expr) (e : Expr) : Option Nat := order.findIdx? (·.id == e.id)

def inputPositions (order : List Expr) (e : Expr) : List Nat := e.children.filterMap (positionIn? order)

end Expr

namespace DependencyGraph

/-- The positions that have `i` among their inputs, given the inputs of each. -/
def consumersOf (inputs : List (List Nat)) (i : Nat) : List Nat :=
  inputs.zipIdx.flatMap fun (is, k) => List.replicate (is.count i) k

def ofExpr (root : Expr) : DependencyGraph :=
  let order := root.toposort
  let inputs := order.map (Expr.inputPositions order)
  let consumers := (List.range order.length).map (consumersOf inputs)
  let forest := Forest.ofConsumers order.length fun i => consumers[i]?.getD []
  let descending := (List.range order.length).reverse
  { nodes := ((order.zip (inputs.zip consumers)).zipIdx.map fun ((expr, inputs, consumers), i) =>
      { expr, inputs, consumers
        depth := forest.depth i
        dominatorParent := forest.parent? i
        dominatorChildren := descending.filter fun j => forest.parent? j == some i }).toArray }

def root? (g : DependencyGraph) : Option Expr := g.nodes.back?.map (·.expr)

def size (g : DependencyGraph) : Nat := g.nodes.size

def node? (g : DependencyGraph) (i : Nat) : Option GraphNode := g.nodes[i]?

/-- The position of a node of the graph. -/
def position? (g : DependencyGraph) (e : Expr) : Option Nat := g.nodes.findIdx? (·.expr.id == e.id)

def find? (g : DependencyGraph) (e : Expr) : Option GraphNode := (g.position? e).bind g.node?

def dominatorChildren (g : DependencyGraph) (i : Nat) : List Nat :=
  (g.node? i).elim [] (·.dominatorChildren)

/-- The positions strictly below `i` in the dominator tree, all children of one before what is below them and the
last child first.  Children stand before their parent. -/
def dominatedBy (g : DependencyGraph) (i : Nat) : List Nat :=
  let children := (g.dominatorChildren i).filter (· < i)
  children ++ children.reverse.attach.flatMap fun ⟨j, _⟩ => g.dominatedBy j
termination_by i
decreasing_by
  have h := ‹_ ∈ _›
  simp only [List.mem_reverse] at h
  simpa using (List.mem_filter.1 h).2

end DependencyGraph
end Dataflow
