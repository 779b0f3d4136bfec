import Dataflow.Expr.Basic
/-!
# The text of expressions and attribute values

An expression is written as a tree: a shared node appears in full at every place where it is used, and neither
numbers nor annotations appear.
-/
namespace Dataflow

/-- A one-element constant without dimensions shows its element, any other its type and dimensions. -/
def Tensor.text (c : Tensor) : String :=
  match c.dims, c.data with
  | [], [v] => "const(" ++ v.text ++ ")"
  | _, _ => "const(<" ++ c.dtype.name ++ " " ++ Text.bracketed (c.dims.map fun n => toString n.toNat) ++ ">)"

mutual
def Expr.text : Expr → String
  | .constant _ c => c.text
  | .var _ v => "%" ++ v.name
  | .external _ s => "extern(" ++ Text.quoted s ++ ")"
  | .op _ o => o.name
  | .call _ f args none => f.text ++ Text.parenthesized (Expr.texts args)
  | .call _ f args (some ⟨key, fields⟩) =>
    f.text ++ "(" ++ ", ".intercalate (Expr.texts args) ++ "; " ++ key ++ "\x7b"
      ++ ", ".intercalate (AttrValue.fieldTexts fields) ++ "\x7d)"
  | .tuple _ fs => Text.parenthesized (Expr.texts fs)
  | .item _ t k => t.text ++ "." ++ toString k
  | .function _ ps b _ => "fn" ++ Text.parenthesized (Expr.texts ps) ++ " \x7b " ++ b.text ++ " \x7d"
  | .cond _ c t e => "if " ++ c.text ++ " \x7b " ++ t.text ++ " \x7d else \x7b " ++ e.text ++ " \x7d"
  | .dims _ ds => Shape.dimsText ds

def Expr.texts : List Expr → List String
  | [] => []
  | e :: es => e.text :: Expr.texts es

def Literal.text : Literal → String
  | .int v => toString v.toInt
  | .float v => v.text
  | .stringImm s => Text.quoted s
  | .string s => Text.quoted s
  | .dtype d => d.name
  | .prim a => a.text
  | .type t => t.text
  | .expr e => e.text
  | .array items => Text.bracketed (Literal.texts items)

def Literal.texts : List Literal → List String
  | [] => []
  | l :: ls => l.text :: Literal.texts ls

def AttrValue.text : AttrValue → String
  | .null => "null"
  | .int v => toString v.toInt
  | .float v => v.text
  | .string s => Text.quoted s
  | .dtype d => d.name
  | .literal l => l.text
  | .handle n => "<handle 0x" ++ Text.hexDigits n.toNat ++ ">"

def AttrValue.fieldTexts : List (String × AttrValue) → List String
  | [] => []
  | (name, v) :: rest => (name ++ "=" ++ v.text) :: AttrValue.fieldTexts rest
end

def Record.text (r : Attrs) : String :=
  r.typeKey ++ "\x7b" ++ ", ".intercalate (AttrValue.fieldTexts r.fields) ++ "\x7d"

/-- The entries of a dictionary, as a pattern shows them. -/
def Dict.text (d : LiteralDict) : String :=
  Text.bracketed (d.entries.map fun (name, v) => name ++ "=" ++ v.text)

end Dataflow
