import Dataflow.Pattern.Basic
import Dataflow.Expr.Printer
/-! # The text of patterns -/
namespace Dataflow.Pattern

mutual
def text : Pattern → String
  | wildcard _ => "*"
  | either _ p q => "(" ++ p.text ++ " | " ++ q.text ++ ")"
  | both _ p q => "(" ++ p.text ++ " & " ++ q.text ++ ")"
  | negation _ p => "!" ++ p.text
  | constant _ => "const"
  | var _ name => if name.isEmpty then "var" else "var(" ++ name ++ ")"
  | external _ symbol => if symbol.isEmpty then "extern" else "extern(" ++ symbol ++ ")"
  | expr _ target => target.text
  | tuple _ ps => Text.parenthesized (texts ps)
  | anyTuple _ => "(..)"
  | item _ p (some k) => p.text ++ "." ++ toString k
  | item _ p none => p.text ++ ".*"
  | function _ ps body => "fn" ++ Text.parenthesized (texts ps) ++ " \x7b " ++ body.text ++ " \x7d"
  | anyFunction _ body => "fn(..) \x7b " ++ body.text ++ " \x7d"
  | cond _ c t e => "if " ++ c.text ++ " \x7b " ++ t.text ++ " \x7d else \x7b " ++ e.text ++ " \x7d"
  | call _ callee args => callee.text ++ Text.parenthesized (texts args)
  | anyCall _ callee => callee.text ++ "(..)"
  | hasAttrs _ p attrs => p.text ++ attrs.text
  | hasType _ p t => p.text ++ " : " ++ t.text
  | hasShape _ p ds => p.text ++ " shape=" ++ Shape.dimsText ds
  | hasDType _ p d => p.text ++ " dtype=" ++ d.name
  | dims _ ds => "shape" ++ Shape.dimsText ds
  | runtimeShape _ => "shape[runtime]"
  | dominator _ child path parent =>
    "dominates(" ++ parent.text ++ ", " ++ path.text ++ ", " ++ child.text ++ ")"
def texts : List Pattern → List String
  | [] => []
  | p :: ps => p.text :: texts ps
end

end Dataflow.Pattern
