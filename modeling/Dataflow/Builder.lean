import Dataflow.Expr.Printer
import Dataflow.Expr.Typing
import Dataflow.Operator.Builtin
/-!
# Building expressions

A builder gives numbers to nodes, variables and patterns, each number once, and holds the operator registry.
Building an expression checks what makes it well formed: a call has as many arguments as its operator takes, a
constant as many elements as its dimensions say, a function variables as parameters, and an item's index stays
within a tuple whose arity is known.
-/
namespace Dataflow

structure Builder where
  nextNode : Nat
  nextVar : Nat
  nextSymbol : Nat
  nextPattern : Nat
  registry : Registry

/-- The builder that has built nothing but the nodes of the built-in operators. -/
def Builder.initial : Builder := ⟨builtinOperators.length, 0, 0, 0, .builtin⟩

inductive BuildError where
  | unknownOperator (name : String)
  | argumentCount (operator : String) (expected actual : Nat)
  | itemIndex (index arity : Nat)
  | paramNotVar (position : Nat) (param : Expr)
  | elementCount (dims : List UInt64) (expected : UInt64) (actual : Nat)
  /-- The dimensions of a constant have no product that is a word: a build with overflow checks does not go on. -/
  | elementCountOverflow

def BuildError.message : BuildError → String
  | unknownOperator name =>
    "unknown operator " ++ Text.quoted name ++ "; register it with Operator::register first"
  | argumentCount operator expected actual =>
    "operator " ++ operator ++ " expects " ++ toString expected ++ " arguments, got " ++ toString actual
  | itemIndex index arity =>
    "tuple index " ++ toString index ++ " out of bounds for tuple with " ++ toString arity ++ " fields"
  | paramNotVar position param =>
    "function parameter " ++ toString position ++ " is not a variable: " ++ param.text
  | elementCount dims expected actual =>
    "constant with shape " ++ Text.bracketed (dims.map fun n => toString n.toNat) ++ " needs "
      ++ toString expected.toNat ++ " elements, got " ++ toString actual
  | elementCountOverflow => Word.overflowMessage

abbrev BuildM := StateT Builder (Except BuildError)

namespace Build

/-- A new node of the given form, without annotations. -/
def node (form : NodeInfo → Expr) : BuildM Expr := fun b =>
  .ok (form ⟨b.nextNode, none, none⟩, { b with nextNode := b.nextNode + 1 })

/-- A copy of a node with other annotations: a new node. -/
def copy (e : Expr) (checkedType : Option Ty) (shape : Option Shape) : BuildM Expr :=
  node fun info => e.withInfo { info with checkedType, shape }

def withType (e : Expr) (t : Ty) : BuildM Expr := copy e (some t) e.shapeAnnotation?

def withShape (e : Expr) (s : Shape) : BuildM Expr := copy e e.checkedType? (some s)

/-- A new symbolic variable. -/
def symbol (name : String) : BuildM SymVar := fun b =>
  .ok (⟨b.nextSymbol, name⟩, { b with nextSymbol := b.nextSymbol + 1 })

/-- A new variable. -/
def var (name : String) : BuildM Expr := fun b =>
  node (.var · ⟨b.nextVar, name⟩) { b with nextVar := b.nextVar + 1 }

/-- A new variable with a type; the node without the annotation is built on the way. -/
def typedVar (name : String) (t : Ty) : BuildM Expr := do withType (← var name) t

/-- A constant without dimensions. -/
def scalar {α : Type} [HostScalar α] (value : α) : BuildM Expr :=
  node (.constant · ⟨dtypeOf value, [], [HostScalar.element value]⟩)

def constant (dtype : DType) (dims : List UInt64) (data : List Element) : BuildM Expr :=
  match Word.product? dims with
  | none => throw .elementCountOverflow
  | some expected =>
    if data.length = expected.toNat then node (.constant · ⟨dtype, dims, data⟩)
    else throw (.elementCount dims expected data.length)

/-- Registers an operator, or finds the one that has the name. -/
def register (name : String) (arity : Option Nat) : BuildM Operator := fun b =>
  match b.registry.find? name with
  | some entry => .ok (entry.operator, b)
  | none =>
    .ok (⟨name, arity⟩,
      { b with nextNode := b.nextNode + 1, registry := b.registry.register ⟨name, arity⟩ b.nextNode })

def operator (name : String) : BuildM OperatorEntry := do
  match (← get).registry.find? name with
  | some entry => return entry
  | none => throw (.unknownOperator name)

/-- Gives an operator a value in an attribute table. -/
def setAttr (name attr : String) (value : AttrValue) : BuildM Unit := do
  let entry ← operator name
  modify fun b => { b with registry := b.registry.setAttr attr entry.operator.name value }

/-- The node that refers to an operator. -/
def op (name : String) : BuildM Expr := return (← operator name).expr

def external (symbol : String) : BuildM Expr := node (.external · symbol)

def call (callee : Expr) (args : List Expr) (attrs : Option Attrs) : BuildM Expr :=
  match callee.operator? with
  | some ⟨name, some expected⟩ =>
    if args.length = expected then node (.call · callee args attrs)
    else throw (.argumentCount name expected args.length)
  | _ => node (.call · callee args attrs)

def callOp (name : String) (args : List Expr) : BuildM Expr := do call (← op name) args none

def tuple (fields : List Expr) : BuildM Expr := node (.tuple · fields)

/-- The number of fields of a tuple, as far as its form or its type tells. -/
def knownArity? : Expr → Option Nat
  | .tuple _ fields => some fields.length
  | e =>
    match e.inferType? with
    | some (.tuple ts) => some ts.length
    | _ => none

def item (e : Expr) (index : Nat) : BuildM Expr :=
  match knownArity? e with
  | some arity => if index < arity then node (.item · e index) else throw (.itemIndex index arity)
  | none => node (.item · e index)

def function (params : List Expr) (body : Expr) (attrs : LiteralDict) : BuildM Expr :=
  match params.zipIdx.find? fun (p, _) => p.var?.isNone with
  | some (param, position) => throw (.paramNotVar position param)
  | none => node (.function · params body attrs)

def cond (test thenBranch elseBranch : Expr) : BuildM Expr := node (.cond · test thenBranch elseBranch)

def dims (ds : List SymInt) : BuildM Expr := node (.dims · ds)

end Build
end Dataflow
