/-!
# Symbolic integers

A tensor dimension is a signed word or an expression over symbolic variables.  Equality of terms is equality of
their syntax; whether two of them have the same value is a question for the prover.  A variable is its number
together with its name.
-/
namespace Dataflow

structure SymVar where
  id : Nat
  name : String
  deriving DecidableEq, Inhabited

inductive IntOp where
  | add | sub | mul | floorDiv | floorMod | min | max
  deriving DecidableEq, Inhabited

inductive SymInt where
  | lit (value : Int64)
  | var (v : SymVar)
  | binary (op : IntOp) (lhs rhs : SymInt)
  deriving Inhabited

namespace SymInt

/-- Equality of terms.  A term that two others share is not compared with itself part by part. -/
protected def decEq : (a b : SymInt) → Decidable (a = b)
  | lit v, lit w => decidable_of_iff (v = w) (by rw [lit.injEq])
  | var v, var w => decidable_of_iff (v = w) (by rw [var.injEq])
  | binary op l r, binary op' l' r' =>
    if ho : op = op' then
      match withPtrEqDecEq l l' fun _ => SymInt.decEq l l' with
      | .isTrue hl =>
        match withPtrEqDecEq r r' fun _ => SymInt.decEq r r' with
        | .isTrue hr => .isTrue (by rw [ho, hl, hr])
        | .isFalse hr => .isFalse fun h => by cases h; exact hr rfl
      | .isFalse hl => .isFalse fun h => by cases h; exact hl rfl
    else .isFalse fun h => by cases h; exact ho rfl
  | lit _, var _ | lit _, binary .. | var _, lit _ | var _, binary .. | binary .., lit _ | binary .., var _ =>
    .isFalse fun h => by cases h

instance : DecidableEq SymInt := SymInt.decEq

def neg (a : SymInt) : SymInt := binary .mul a (lit (-1))

def literal? : SymInt → Option Int64
  | lit v => some v
  | _ => none

/-- Whether `v` occurs in a term. -/
def mentions (v : SymVar) : SymInt → Bool
  | lit _ => false
  | var w => w == v
  | binary _ l r => l.mentions v || r.mentions v

/-- Every variable replaced by what `f` gives for it. -/
def subst (f : SymVar → SymInt) : SymInt → SymInt
  | lit v => lit v
  | var v => f v
  | binary op l r => binary op (l.subst f) (r.subst f)

def text : SymInt → String
  | lit v => toString v.toInt
  | var v => v.name
  | binary op l r =>
    let infixed (symbol : String) := "(" ++ l.text ++ " " ++ symbol ++ " " ++ r.text ++ ")"
    let applied (name : String) := name ++ "(" ++ l.text ++ ", " ++ r.text ++ ")"
    match op with
    | .add => infixed "+"
    | .sub => infixed "-"
    | .mul => infixed "*"
    | .floorDiv => infixed "//"
    | .floorMod => infixed "%"
    | .min => applied "min"
    | .max => applied "max"

theorem subst_var (a : SymInt) : a.subst var = a := by
  induction a with
  | lit => rfl
  | var => rfl
  | binary op l r hl hr => rw [subst, hl, hr]

end SymInt
end Dataflow
