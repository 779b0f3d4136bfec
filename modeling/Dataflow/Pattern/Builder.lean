import Dataflow.Pattern.Basic
import Dataflow.Builder
/-!
# Making patterns

Every pattern made here gets an identity that no other has.  Making one fails for an operator that is not
registered, and for an item index below -1, which stands for any index.
-/
namespace Dataflow

inductive PatternError where
  | expression (cause : BuildError)
  | itemIndex (index : Int64)

def PatternError.message : PatternError → String
  | expression cause => "invalid pattern expression: " ++ cause.message
  | itemIndex index => "tuple index " ++ toString index.toInt ++ " is invalid; use -1 to accept any index"

abbrev PatternM := StateT Builder (Except PatternError)

namespace Pattern

/-- A pattern of the given form with a new identity. -/
def make (form : PatternId → Pattern) : PatternM Pattern := fun b =>
  .ok (form (.given b.nextPattern), { b with nextPattern := b.nextPattern + 1 })

/-- The pattern of a registered operator. -/
def makeOperator (name : String) : PatternM Pattern := do
  match (← get).registry.find? name with
  | some entry => make (.expr · entry.expr)
  | none => throw (.expression (.unknownOperator name))

def makeItem (tuple : Pattern) (index : Int64) : PatternM Pattern :=
  if index < -1 then throw (.itemIndex index)
  else make (.item · tuple (if index = -1 then none else some index.toNatClampNeg))

end Pattern
end Dataflow
