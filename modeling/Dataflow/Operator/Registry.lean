import Dataflow.Expr.Basic
/-!
# The operator registry

An operator is registered once under its name, together with the node that refers to it: looking a name up gives
the same operator and the same node every time.  Attribute tables give operators values under an attribute's
name; a table exists once an operator has a value in it.
-/
namespace Dataflow

/-- A registered operator and the number of the node that refers to it. -/
structure OperatorEntry where
  operator : Operator
  node : Nat
  deriving DecidableEq

def OperatorEntry.expr (e : OperatorEntry) : Expr := .op ⟨e.node, none, none⟩ e.operator

/-- A value in an attribute table. -/
structure OperatorAttr where
  attr : String
  operator : String
  value : AttrValue

structure Registry where
  entries : List OperatorEntry
  /-- The values of all tables, the latest first. -/
  attrs : List OperatorAttr

namespace Registry

def empty : Registry := ⟨[], []⟩

def find? (r : Registry) (name : String) : Option OperatorEntry :=
  r.entries.find? fun e => e.operator.name == name

/-- Adds an operator under a name that is not registered; a registered one stays as it is. -/
def register (r : Registry) (operator : Operator) (node : Nat) : Registry :=
  if (r.find? operator.name).isSome then r else { r with entries := r.entries ++ [⟨operator, node⟩] }

def hasTable (r : Registry) (attr : String) : Bool := r.attrs.any (·.attr == attr)

def attr? (r : Registry) (attr operator : String) : Option AttrValue :=
  (r.attrs.find? fun a => a.attr == attr && a.operator == operator).map (·.value)

def setAttr (r : Registry) (attr operator : String) (value : AttrValue) : Registry :=
  { r with attrs := ⟨attr, operator, value⟩ :: r.attrs }

@[simp] theorem find?_empty (name : String) : empty.find? name = none := rfl

/-- The first registration of a name is the one that counts. -/
theorem find?_register (r : Registry) (o : Operator) (node : Nat) (name : String) :
    (r.register o node).find? name =
      if name = o.name ∧ r.find? o.name = none then some ⟨o, node⟩ else r.find? name := by
  grind [find?, register]

@[simp] theorem find?_setAttr (r : Registry) (attr operator : String) (value : AttrValue) (name : String) :
    (r.setAttr attr operator value).find? name = r.find? name := rfl

/-- The latest value of an operator in a table is the one that counts. -/
theorem attr?_setAttr (r : Registry) (a o b p : String) (value : AttrValue) :
    (r.setAttr a o value).attr? b p = if b = a ∧ p = o then some value else r.attr? b p := by
  grind [attr?, setAttr]

end Registry
end Dataflow
