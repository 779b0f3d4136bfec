import Dataflow.SymInt.Prover
/-!
# The value of a symbolic integer

A term has an integer value once its variables have values.  Quotients are rounded towards minus infinity and a
remainder has the sign of its divisor.  What dividing by zero gives is not said by the terms, so it is a parameter.
-/
namespace Dataflow

structure ZeroDivision where
  quotient : Int → Int
  remainder : Int → Int

namespace IntOp

def eval (z : ZeroDivision) : IntOp → Int → Int → Int
  | add, x, y => x + y
  | sub, x, y => x - y
  | mul, x, y => x * y
  | floorDiv, x, y => if y = 0 then z.quotient x else x.fdiv y
  | floorMod, x, y => if y = 0 then z.remainder x else x.fmod y
  | min, x, y => if x ≤ y then x else y
  | max, x, y => if x ≤ y then y else x

/-- The word for an operator in the keys of its terms, if polynomials do not have the operator. -/
def sealName? : IntOp → Option String
  | floorDiv => some "floordiv"
  | floorMod => some "floormod"
  | min => some "min"
  | max => some "max"
  | add | sub | mul => none

end IntOp

/-- The value of a term whose variables have the values that `σ` gives to their numbers. -/
def SymInt.eval (z : ZeroDivision) (σ : Nat → Int) : SymInt → Int
  | lit v => v.toInt
  | var v => σ v.id
  | binary op l r => op.eval z (l.eval z σ) (r.eval z σ)

/-- Every bound variable has the value of what it is bound to. -/
def Prover.HoldsAt (p : Prover) (z : ZeroDivision) (σ : Nat → Int) : Prop :=
  ∀ v b, p.value? v = some b → σ v.id = b.eval z σ

end Dataflow
