import Dataflow.Pattern.Basic
import Dataflow.Expr.Printer
/-!
# Faults

A fault ends a match without a verdict: the matcher was set up or asked in a way for which it has no answer.
-/
namespace Dataflow

inductive Fault where
  /-- Variables are to be followed and there are no values to follow them to. -/
  | noBindings
  | noGraph
  /-- An expression that the graph does not reach. -/
  | outsideGraph (e : Expr)
  /-- An element type as an attribute, compared with a literal that is no string. -/
  | incomparable (literal : Literal) (dtype : DType)
  /-- An attribute without a value or with a handle. -/
  | unsupportedKind (value : AttrValue)
  /-- A logged binding that the table does not have. -/
  | missingBinding (pattern : PatternId)

def PatternId.text : PatternId → String
  | given n | derived n => toString n

/-- The wording of a fault; `nodeName` says how a node's number is shown. -/
def Fault.message (nodeName : Nat → String) : Fault → String
  | noBindings => "auto-jump is enabled but the matcher has no variable bindings"
  | noGraph => "dominator pattern visited without a dependency graph"
  | outsideGraph e =>
    "expression " ++ e.text ++ " (id " ++ nodeName e.id ++ ") is not part of the dependency graph"
  | incomparable literal dtype =>
    "unsupported literal " ++ literal.text ++ " for data type attribute " ++ dtype.name
  | unsupportedKind value =>
    "unsupported attribute value kind " ++ value.kind ++ " in pattern comparison"
  | missingBinding pattern => "commit log names pattern " ++ pattern.text ++ " with no binding"

end Dataflow
