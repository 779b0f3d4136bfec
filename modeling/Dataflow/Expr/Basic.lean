import Dataflow.Ty
import Dataflow.Shape
import Dataflow.Element
import Dataflow.Attr.Dict
import Dataflow.Attr.Record
/-!
# Expressions and the values in their attributes

An expression is a node with its inputs.  Every node has a number, given when it was built; two occurrences with
one number are the same node, so an expression stands for a graph in which nodes are shared, and identity of
nodes is equality of numbers.  A node may carry a checked type and a shape, which annotate it and take no part in
what it computes.

Variables have numbers of their own: an annotated copy of a variable is another node for the same variable.

Calls carry a record of attribute values, functions a dictionary of literals.  A literal may itself hold an
expression.
-/
namespace Dataflow

/-- A primitive operator; one without an arity takes any number of arguments. -/
structure Operator where
  name : String
  arity : Option Nat
  deriving DecidableEq, Inhabited

/-- Whether its two arguments may be swapped. -/
def Operator.isCommutative (o : Operator) : Bool := o.name == "add" || o.name == "multiply"

structure Var where
  id : Nat
  name : String
  deriving DecidableEq, Inhabited

/-- A dense tensor: its elements in row-major order. -/
structure Tensor where
  dtype : DType
  dims : List UInt64
  data : List Element
  deriving DecidableEq, Inhabited

/-- What every node has besides its form. -/
structure NodeInfo where
  id : Nat
  checkedType : Option Ty
  shape : Option Shape
  deriving DecidableEq, Inhabited

mutual
inductive Expr where
  | constant (info : NodeInfo) (value : Tensor)
  | var (info : NodeInfo) (v : Var)
  /-- A function implemented elsewhere, by its symbol. -/
  | external (info : NodeInfo) (symbol : String)
  /-- A reference to a primitive operator. -/
  | op (info : NodeInfo) (operator : Operator)
  | call (info : NodeInfo) (callee : Expr) (args : List Expr) (attrs : Option (Record AttrValue))
  | tuple (info : NodeInfo) (fields : List Expr)
  | item (info : NodeInfo) (tuple : Expr) (index : Nat)
  | function (info : NodeInfo) (params : List Expr) (body : Expr) (attrs : Dict Literal)
  | cond (info : NodeInfo) (test thenBranch elseBranch : Expr)
  /-- A list of dimensions as a value. -/
  | dims (info : NodeInfo) (dims : List SymInt)

/-- A value written into a pattern or into the attributes of a function.  There are two kinds of strings, which
attribute constraints take for the same and structural equality does not. -/
inductive Literal where
  | int (v : Int64)
  | float (v : Binary64)
  | stringImm (s : String)
  | string (s : String)
  | dtype (d : DType)
  | prim (a : SymInt)
  | type (t : Ty)
  | expr (e : Expr)
  | array (items : List Literal)

/-- A value read from an attribute table. -/
inductive AttrValue where
  | null
  | int (v : Int64)
  | float (v : Binary64)
  | string (s : String)
  | dtype (d : DType)
  | literal (l : Literal)
  /-- A pointer into the running program. -/
  | handle (address : UInt64)
end

instance : Inhabited Expr := ⟨.tuple default []⟩
instance : Inhabited Literal := ⟨.int 0⟩
instance : Inhabited AttrValue := ⟨.null⟩

/-- The attributes of a call. -/
abbrev Attrs := Record AttrValue

/-- The attributes of a function, or those a pattern asks for. -/
abbrev LiteralDict := Dict Literal

namespace Expr

def info : Expr → NodeInfo
  | constant i _ | var i _ | external i _ | op i _ | call i .. | tuple i _ | item i .. | function i ..
  | cond i .. | dims i _ => i

/-- The same form with other node data. -/
def withInfo (i : NodeInfo) : Expr → Expr
  | constant _ c => constant i c
  | var _ v => var i v
  | external _ s => external i s
  | op _ o => op i o
  | call _ f args attrs => call i f args attrs
  | tuple _ fs => tuple i fs
  | item _ t k => item i t k
  | function _ ps b attrs => function i ps b attrs
  | cond _ c t e => cond i c t e
  | dims _ ds => dims i ds

/-- The number of a node. -/
def id (e : Expr) : Nat := e.info.id

def checkedType? (e : Expr) : Option Ty := e.info.checkedType

def shapeAnnotation? (e : Expr) : Option Shape := e.info.shape

def var? : Expr → Option Var
  | var _ v => some v
  | _ => none

def operator? : Expr → Option Operator
  | op _ o => some o
  | _ => none

def callee? : Expr → Option Expr
  | call _ f .. => some f
  | _ => none

/-- The primitive operator that a node calls. -/
def calledOperator? (e : Expr) : Option Operator := e.callee?.bind operator?

def isCallTo (name : String) (e : Expr) : Bool := e.calledOperator?.any (·.name == name)

/-- The inputs of a node in the order of evaluation: a callee before its arguments, parameters before the body. -/
def children : Expr → List Expr
  | call _ f args _ => f :: args
  | tuple _ fs => fs
  | item _ t _ => [t]
  | function _ ps b _ => ps ++ [b]
  | cond _ c t e => [c, t, e]
  | constant .. | var .. | external .. | op .. | dims .. => []

/-- The inputs of a node that carry data: all but those that are its callee. -/
def dataInputs (e : Expr) : List Expr := e.children.filter fun c => !e.callee?.any (·.id == c.id)

mutual
/-- The number of positions in the tree that a node spans when nothing is shared. -/
def treeSize : Expr → Nat
  | call _ f args _ => 1 + (f.treeSize + treeSizes args)
  | tuple _ fs => 1 + treeSizes fs
  | item _ t _ => 1 + t.treeSize
  | function _ ps b _ => 1 + (treeSizes ps + b.treeSize)
  | cond _ c t e => 1 + (c.treeSize + (t.treeSize + e.treeSize))
  | constant .. | var .. | external .. | op .. | dims .. => 1
def treeSizes : List Expr → Nat
  | [] => 0
  | e :: es => e.treeSize + treeSizes es
end

theorem treeSizes_append (es fs : List Expr) : treeSizes (es ++ fs) = treeSizes es + treeSizes fs := by
  induction es with
  | nil => simp [treeSizes]
  | cons e es ih => simp only [List.cons_append, treeSizes, ih]; omega

theorem treeSize_eq (e : Expr) : e.treeSize = 1 + treeSizes e.children := by
  cases e <;> simp [treeSize, children, treeSizes, treeSizes_append]

theorem treeSize_pos (e : Expr) : 0 < e.treeSize := by
  rw [treeSize_eq]; omega

theorem treeSize_le_treeSizes_of_mem {e : Expr} {es : List Expr} (h : e ∈ es) : e.treeSize ≤ treeSizes es := by
  induction h with
  | head => rw [treeSizes]; omega
  | tail _ _ ih => rw [treeSizes]; omega

theorem treeSize_lt_of_mem_children {e c : Expr} (h : c ∈ e.children) : c.treeSize < e.treeSize := by
  have := treeSize_le_treeSizes_of_mem h
  rw [treeSize_eq e]; omega

theorem treeSize_lt_of_mem_dataInputs {e c : Expr} (h : c ∈ e.dataInputs) : c.treeSize < e.treeSize :=
  treeSize_lt_of_mem_children (List.mem_filter.1 h).1

@[simp] theorem info_withInfo (i : NodeInfo) (e : Expr) : (e.withInfo i).info = i := by cases e <;> rfl

@[simp] theorem children_withInfo (i : NodeInfo) (e : Expr) : (e.withInfo i).children = e.children := by
  cases e <;> rfl

end Expr

/-- The text of a literal of either string kind. -/
def Literal.string? : Literal → Option String
  | stringImm s | string s => some s
  | _ => none

/-- The name of a value's kind. -/
def AttrValue.kind : AttrValue → String
  | null => "null"
  | int _ => "int"
  | float _ => "float"
  | string _ => "str"
  | dtype _ => "dtype"
  | literal _ => "object"
  | handle _ => "handle"

end Dataflow
