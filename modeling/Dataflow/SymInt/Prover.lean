import Dataflow.SymInt.Normalize
/-!
# The equality prover

A prover knows values of some variables and compares terms by their normal forms.  A term is resolved by
replacing bound variables by their values until none is left.  Values never lead back to a variable as long as
no variable is bound twice, so a chain of replacements is no longer than the list of bindings: `resolve` and
`normalize` replace that often and no more.
-/
namespace Dataflow

/-- What the rest of the library asks about dimensions.  Unless an oracle answers otherwise, shapes are compared
dimension by dimension, for lists of the same length. -/
structure Oracle where
  provesEqual : SymInt → SymInt → Bool
  shapesEqual : List SymInt → List SymInt → Bool := fun xs ys =>
    xs.length == ys.length && (xs.zip ys).all fun p => provesEqual p.1 p.2

/-- The oracle for which any two dimensions are equal. -/
def Oracle.permissive : Oracle where
  provesEqual _ _ := true

/-- The bound variables with their values; of two bindings of one variable the first counts. -/
structure Prover where
  bindings : List (SymVar × SymInt)
  deriving DecidableEq, Inhabited

namespace Prover

def empty : Prover := ⟨[]⟩

def value? (p : Prover) (v : SymVar) : Option SymInt := p.bindings.lookup v

def resolveUpTo (p : Prover) : Nat → SymInt → SymInt
  | 0, a => a
  | n + 1, a => a.subst fun v =>
    match p.value? v with
    | some b => p.resolveUpTo n b
    | none => .var v

/-- The term with every bound variable replaced by its resolved value. -/
def resolve (p : Prover) (a : SymInt) : SymInt := p.resolveUpTo p.bindings.length a

def normalizeUpTo (p : Prover) : Nat → SymInt → Option Polynomial
  | 0, a => a.normalizeWith fun v => some (.atom (.var v.id))
  | n + 1, a => a.normalizeWith fun v =>
    match p.value? v with
    | some b => p.normalizeUpTo n b
    | none => some (.atom (.var v.id))

/-- The normal form of a term under the bindings. -/
def normalize (p : Prover) (a : SymInt) : Option Polynomial := p.normalizeUpTo p.bindings.length a

theorem resolve_binary (p : Prover) (op : IntOp) (l r : SymInt) :
    p.resolve (.binary op l r) = .binary op (p.resolve l) (p.resolve r) := by
  unfold resolve
  cases p.bindings.length <;> rfl

theorem normalize_lit (p : Prover) (v : Int64) : p.normalize (.lit v) = some (.constant v) := by
  unfold normalize
  cases p.bindings.length <;> rfl

theorem normalize_binary (p : Prover) (op : IntOp) (l r : SymInt) :
    p.normalize (.binary op l r) = (do op.normalForm (← p.normalize l) (← p.normalize r)) := by
  unfold normalize
  cases p.bindings.length <;> rfl

/-- A variable and a value that leads back to it. -/
structure CyclicBinding where
  var : SymVar
  value : SymInt
  deriving DecidableEq

def CyclicBinding.message (e : CyclicBinding) : String :=
  "cannot bind " ++ e.var.name ++ " to " ++ e.value.text ++ ": the value refers back to " ++ e.var.name

/-- Binds a variable, in place of its earlier value if it has one, unless the resolved value mentions it. -/
def bind (p : Prover) (v : SymVar) (value : SymInt) : Except CyclicBinding Prover :=
  if (p.resolve value).mentions v then .error ⟨v, value⟩
  else .ok ⟨(v, value) :: p.bindings.filter (·.1 ≠ v)⟩

theorem value?_of_bind {p q : Prover} {v : SymVar} {value : SymInt} (h : p.bind v value = .ok q) (w : SymVar) :
    q.value? w = if w = v then some value else p.value? w := by
  unfold bind at h
  split at h
  · cases h
  · cases h
    unfold value?
    generalize p.bindings = bs
    induction bs with grind

/-- The resolved value of a bound variable. -/
def boundValue? (p : Prover) (v : SymVar) : Option SymInt := (p.value? v).map p.resolve

/-- The value of a term without unbound variables, as far as its normal form shows it. -/
def constValue? (p : Prover) (a : SymInt) : Option Int64 := (p.normalize a).bind Polynomial.constant?

/-- Whether both terms have a normal form, and the same one. -/
def provesEqual (p : Prover) (a b : SymInt) : Bool :=
  match p.normalize a, p.normalize b with
  | some f, some g => f == g
  | _, _ => false

def oracle (p : Prover) : Oracle where
  provesEqual := p.provesEqual

theorem shapesEqual_oracle (p : Prover) (xs ys : List SymInt) : p.oracle.shapesEqual xs ys =
    (xs.length == ys.length && (xs.zip ys).all fun d => p.provesEqual d.1 d.2) := rfl

end Prover
end Dataflow
