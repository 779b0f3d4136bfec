import Dataflow.Expr.Basic
/-!
# The order of evaluation

`toposort` lists every node that an expression reaches once, each after its inputs and earlier inputs first, so
that the expression itself comes last.  A worklist holds nodes to be entered and nodes whose inputs have been
entered; a node is listed when it is met in the second state.
-/
namespace Dataflow

/-- A node on the worklist. -/
inductive Pending where
  /-- Its inputs are still to be entered. -/
  | enter (e : Expr)
  /-- Its inputs stand before it on the worklist or are listed. -/
  | leave (e : Expr)

namespace Pending

def weight : Pending → Nat
  | enter e => 2 * e.treeSize
  | leave _ => 1

/-- The weight of a worklist, which every step on it lessens. -/
def weights : List Pending → Nat
  | [] => 0
  | p :: ps => p.weight + weights ps

theorem weights_append (ps qs : List Pending) : weights (ps ++ qs) = weights ps + weights qs := by
  induction ps with
  | nil => simp [weights]
  | cons p ps ih => simp only [List.cons_append, weights, ih]; omega

theorem weights_enter (es : List Expr) : weights (es.map enter) = 2 * Expr.treeSizes es := by
  induction es with
  | nil => rfl
  | cons e es ih => simp only [List.map_cons, weights, ih, weight, Expr.treeSizes]; omega

end Pending

namespace Expr

/-- Whether the node of `e` is in a list. -/
def isIn (e : Expr) (es : List Expr) : Bool := es.any (·.id == e.id)

theorem treeSizes_filter_le (p : Expr → Bool) (es : List Expr) : treeSizes (es.filter p) ≤ treeSizes es := by
  induction es with
  | nil => simp
  | cons e es ih => rw [List.filter_cons]; split <;> simp only [treeSizes] <;> omega

/-- Works off a worklist; `listed` holds the nodes listed so far, the last one first. -/
def listFrom (worklist : List Pending) (listed : List Expr) : List Expr :=
  match worklist with
  | [] => listed.reverse
  | .leave e :: rest => listFrom rest (if e.isIn listed then listed else e :: listed)
  | .enter e :: rest =>
    if e.isIn listed then listFrom rest listed
    else listFrom ((e.children.filter fun c => !c.isIn listed).map .enter ++ .leave e :: rest) listed
termination_by Pending.weights worklist
decreasing_by
  · simp only [Pending.weights, Pending.weight]; omega
  · have := e.treeSize_pos
    simp only [Pending.weights, Pending.weight]; omega
  · have := treeSizes_filter_le (fun c => !c.isIn listed) e.children
    have := e.treeSize_eq
    simp only [Pending.weights, Pending.weights_append, Pending.weights_enter, Pending.weight]
    omega

def toposort (e : Expr) : List Expr := listFrom [.enter e] []

end Expr
end Dataflow
