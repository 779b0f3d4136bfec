import Dataflow.Expr.Printer
/-!
# Outlines

An outline writes an expression with one line for a node, its inputs below it and indented.  In the compact
outline a node that was already written is only referred to; the full outline writes a shared node in full each
time.
-/
namespace Dataflow

inductive Outline where
  | node (e : Expr) (children : List Outline)
  /-- A reference to a node written on an earlier line. -/
  | reference (id : Nat)

namespace Expr

/-- The outline below a node when the nodes in the state have been written. -/
def outlineFrom (e : Expr) : StateM (List Nat) Outline := do
  if (← get).contains e.id then return .reference e.id
  modify (e.id :: ·)
  return .node e (← e.children.attach.mapM fun ⟨c, _⟩ => c.outlineFrom)
termination_by e.treeSize
decreasing_by exact treeSize_lt_of_mem_children ‹_›

def outline (e : Expr) : Outline := (e.outlineFrom.run []).1

def fullOutline (e : Expr) : Outline :=
  .node e (e.children.attach.map fun ⟨c, _⟩ => c.fullOutline)
termination_by e.treeSize
decreasing_by exact treeSize_lt_of_mem_children ‹_›

end Expr

namespace Outline

/-- What a line shows. -/
inductive Item where
  | node (e : Expr)
  | reference (id : Nat)

/-- The numbers by which nodes and variables are shown. -/
structure Naming where
  node : Nat → Nat
  var : Nat → Nat

/-- Every node and variable by its own number. -/
def Naming.own : Naming := ⟨fun n => n, fun n => n⟩

def formText (naming : Naming) : Expr → String
  | .constant _ c =>
    match c.data with
    | [v] => "CONST(" ++ v.text ++ ")"
    | data => "CONST(len=" ++ toString data.length ++ ")"
  | .var _ v => "VAR('" ++ v.name ++ "', v" ++ toString (naming.var v.id) ++ ")"
  | .external _ s => "EXTERN('" ++ s ++ "')"
  | .op _ o => "OP(" ++ o.name ++ ")"
  | .call _ _ _ (some attrs) => "CALL(" ++ attrs.typeKey ++ ")"
  | .call _ _ _ none => "CALL"
  | .tuple _ fs => "TUPLE(len=" ++ toString fs.length ++ ")"
  | .item _ _ k => "GET_ITEM(" ++ toString k ++ ")"
  | .function _ ps _ _ => "FUNCTION(params=" ++ toString ps.length ++ ")"
  | .cond .. => "IF"
  | .dims _ ds => "SHAPE(ndim=" ++ toString ds.length ++ ")"

def Item.text (naming : Naming) : Item → String
  | node e =>
    let type := match e.checkedType? with
      | some t => " : " ++ t.text
      | none => ""
    let shape := match e.shapeAnnotation? with
      | some s => " shape=" ++ s.text
      | none => ""
    "[" ++ toString (naming.node e.id) ++ "] " ++ formText naming e ++ type ++ shape
  | reference id => "[" ++ toString (naming.node id) ++ "] -> (see above)"

/-- A line: its guide marks and what it shows. -/
structure Line where
  guides : String
  item : Item

mutual
/-- The lines of an outline, the first after the marks `first` and the others after `below`. -/
def linesFrom (first below : String) : Outline → List Line
  | node e children => ⟨first, .node e⟩ :: childLines below children
  | reference id => [⟨first, .reference id⟩]
def childLines (below : String) : List Outline → List Line
  | [] => []
  | [c] => c.linesFrom (below ++ "└─ ") (below ++ "   ")
  | c :: cs => c.linesFrom (below ++ "├─ ") (below ++ "│  ") ++ childLines below cs
end

def lines (o : Outline) : List Line := o.linesFrom "" ""

def text (naming : Naming) (o : Outline) : String :=
  String.join (o.lines.map fun l => l.guides ++ l.item.text naming ++ "\n")

end Outline
end Dataflow
