import Dataflow.SymInt.Basic
import Dataflow.SymInt.Polynomial
/-!
# Normal forms of symbolic integers

Sums, differences and products become polynomials.  A rounded quotient, a remainder, a minimum or a maximum is
folded when both operands are constants and in a few cases that hold for every value; otherwise it becomes an
atom known by its operator and the normal forms of its operands.  There is no normal form when a coefficient on
the way is no word.
-/
namespace Dataflow

/-- An atom for an operator that polynomials do not have. -/
def Polynomial.sealed (name : String) (p q : Polynomial) : Polynomial :=
  atom (.sealed (name ++ "(" ++ p.key ++ "," ++ q.key ++ ")"))

/-- The normal form of an operator applied to normal forms. -/
def IntOp.normalForm : IntOp → Polynomial → Polynomial → Option Polynomial
  | .add, p, q => p.add q
  | .sub, p, q => p.sub q
  | .mul, p, q => p.mul q
  | .floorDiv, p, q =>
    match p.constant?, q.constant? with
    | some a, some b =>
      if b ≠ 0 then (Word.floorDiv? a b).map .constant else some (.sealed "floordiv" p q)
    | _, some 1 => some p
    | _, _ => some (.sealed "floordiv" p q)
  | .floorMod, p, q =>
    match p.constant?, q.constant? with
    | some a, some b =>
      if b ≠ 0 then (Word.floorMod? a b).map .constant else some (.sealed "floormod" p q)
    | _, some 1 => some .zero
    | _, _ => some (.sealed "floormod" p q)
  | .min, p, q =>
    match p.constant?, q.constant? with
    | some a, some b => some (.constant (if a ≤ b then a else b))
    | _, _ => some (if p == q then p else .sealed "min" p q)
  | .max, p, q =>
    match p.constant?, q.constant? with
    | some a, some b => some (.constant (if a ≤ b then b else a))
    | _, _ => some (if p == q then p else .sealed "max" p q)

/-- The normal form of a term whose variables have the normal forms that `f` gives. -/
def SymInt.normalizeWith (f : SymVar → Option Polynomial) : SymInt → Option Polynomial
  | lit v => some (.constant v)
  | var v => f v
  | binary op l r => do op.normalForm (← l.normalizeWith f) (← r.normalizeWith f)

end Dataflow
