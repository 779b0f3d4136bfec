import Dataflow.Match.Fault
import Dataflow.Expr.Equal
import Dataflow.Operator.Registry
/-!
# Attribute constraints

A pattern may ask for attributes with given literals.  An operator has them in the registry's tables, a call in
its record and a function in its dictionary; no other expression has any.  Strings are compared by content, of
whichever kind they are, except in a function's dictionary, where literals are compared structurally.  An element
type equals a string that is its name.
-/
namespace Dataflow

/-- Whether a literal of a pattern agrees with an attribute value. -/
def Literal.agrees (l : Literal) : AttrValue → Except Fault Bool
  | .int v => return match l with
    | .int w => w == v
    | _ => false
  | .float v => return match l with
    | .float w => w.sameValue v
    | _ => false
  | .string s => return l.string? == some s
  | .dtype d =>
    match l.string? with
    | some name => return d.name == name
    | none => throw (.incomparable l d)
  | .literal m =>
    match m.string? with
    | some s => return l.string? == some s
    | none => return l.equal m
  | v@(.null) | v@(.handle _) => throw (.unsupportedKind v)

namespace Dict

/-- Whether the attribute values that `value?` gives agree with every entry. -/
def agreesWith (d : LiteralDict) (value? : String → Option AttrValue) : Except Fault Bool :=
  d.entries.allM fun (name, l) =>
    match value? name with
    | some v => l.agrees v
    | none => return false

/-- Whether an expression has every attribute of a dictionary. -/
def heldBy (d : LiteralDict) (registry : Registry) : Expr → Except Fault Bool
  | .op _ o => d.agreesWith (registry.attr? · o.name)
  | .call _ _ _ attrs => d.agreesWith fun name => attrs.bind (·.get? name)
  | .function _ _ _ attrs =>
    return d.entries.all fun (name, l) => (attrs.get? name).any l.equal
  | _ => return false

end Dict
end Dataflow
