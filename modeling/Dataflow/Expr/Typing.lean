import Dataflow.Expr.Basic
/-!
# Types and shapes of expressions

The type of an expression is its annotation, or else follows from its form where the form alone decides it: for
constants, lists of dimensions, external functions, tuples and their items, functions, branches of one type and
calls of functions.  The shape is its annotation or, for a constant, its dimensions.
-/
namespace Dataflow.Expr

mutual
def inferType? (e : Expr) : Option Ty :=
  match e.checkedType? with
  | some t => some t
  | none =>
    match e with
    | constant _ c => some (.tensor (some c.dims.length) (some c.dtype))
    | dims .. => some .shape
    | external .. => some .object
    | tuple _ fs => (inferTypes? fs).map .tuple
    | item _ t k =>
      match t.inferType? with
      | some (.tuple ts) => ts[k]?
      | _ => none
    | function _ ps body _ => (body.inferType?).map (.func (paramTypes ps))
    | cond _ _ t e =>
      match t.inferType? with
      | some a =>
        match e.inferType? with
        | some b => if a == b then some a else none
        | none => none
      | none => none
    | call _ f _ _ =>
      match f.inferType? with
      | some (.func _ r) => some r
      | _ => none
    | var .. | op .. => none

/-- The types of all, if each has one. -/
def inferTypes? : List Expr → Option (List Ty)
  | [] => some []
  | e :: es =>
    match e.inferType? with
    | some t => (inferTypes? es).map (t :: ·)
    | none => none

/-- The types of parameters; one that is not known counts as opaque. -/
def paramTypes : List Expr → List Ty
  | [] => []
  | e :: es => e.inferType?.getD .object :: paramTypes es
end

/-- The element type of the inferred type. -/
def dtype? (e : Expr) : Option DType := e.inferType?.bind Ty.dtype?

/-- A dimension of a constant as a signed word; one from `2 ^ 63` on turns negative. -/
def dimension (n : UInt64) : SymInt := .lit n.toInt64

def shape? (e : Expr) : Option Shape :=
  match e.shapeAnnotation? with
  | some s => some s
  | none =>
    match e with
    | constant _ c => some (.known (c.dims.map dimension))
    | _ => none

end Dataflow.Expr
