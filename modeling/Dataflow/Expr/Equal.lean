import Dataflow.Expr.Basic
import Std.Data.TreeSet
/-!
# Structural equality

Two expressions are structurally equal when they have the same form and the same data and their inputs are
structurally equal one by one.  Numbers of nodes, sharing and annotations play no part.  A variable equals itself,
and a parameter of a function equals the parameter in its place in the function that it is compared with.

Comparing shares work: lists are compared by their lengths before anything in them is, and a pair of nodes found
equal outside every function is not compared again.  Within a function nothing is recorded, because what holds for
paired parameters need not hold outside.
-/
namespace Dataflow

/-- The parameters of the functions around the left side, each with its partner on the right. -/
abbrev Pairing := List (Nat × Nat)

namespace Pairing

/-- Whether two variables are partners; a variable without one is its own. -/
def relates (pairing : Pairing) (v w : Var) : Bool := (pairing.lookup v.id).getD v.id == w.id

/-- The pairing inside two functions with these parameters.  A parameter that already has a partner keeps it. -/
def enter (pairing : Pairing) : List Expr → List Expr → Pairing
  | p :: ps, q :: qs =>
    match p.var?, q.var? with
    | some v, some w =>
      enter (if (pairing.lookup v.id).isNone then (v.id, w.id) :: pairing else pairing) ps qs
    | _, _ => enter pairing ps qs
  | _, _ => pairing

end Pairing

/-- The pairs of nodes found equal outside every function. -/
abbrev Proven := Std.TreeSet (Nat × Nat) (compareLex (compareOn Prod.fst) (compareOn Prod.snd))

/-- Answers at once for a node compared with itself outside every function and for a recorded pair, and records a
pair that `check` finds equal outside every function. -/
def Proven.remember (pairing : Pairing) (a b : Expr) (check : StateM Proven Bool) : StateM Proven Bool := do
  if a.id == b.id && pairing.isEmpty then return true
  else if (← get).contains (a.id, b.id) then return true
  else
    let equal ← check
    if equal && pairing.isEmpty then modify (·.insert (a.id, b.id))
    return equal

mutual
def Expr.equalUnder (pairing : Pairing) (a b : Expr) : StateM Proven Bool :=
  Proven.remember pairing a b <|
    match a, b with
    | .constant _ c, .constant _ d => return c == d
    | .var _ v, .var _ w => return pairing.relates v w
    | .external _ s, .external _ t => return s == t
    | .op _ o, .op _ p => return o.name == p.name
    | .call _ f args attrs, .call _ g brgs bttrs => do
      let sameAttrs := match attrs, bttrs with
        | none, none => true
        | some ⟨key, fields⟩, some ⟨key', fields'⟩ =>
          key == key' && fields.length == fields'.length && AttrValue.equalFields fields fields'
        | _, _ => false
      if args.length == brgs.length && sameAttrs then
        if ← f.equalUnder pairing g then Expr.equalAllUnder pairing args brgs else return false
      else return false
    | .tuple _ fs, .tuple _ gs =>
      if fs.length == gs.length then Expr.equalAllUnder pairing fs gs else return false
    | .item _ t k, .item _ u l => if k == l then t.equalUnder pairing u else return false
    | .function _ ps body ⟨entries⟩, .function _ qs cody ⟨entries'⟩ => do
      if ps.length == qs.length && entries.length == entries'.length
          && Literal.equalEntries entries entries' then
        let inner := pairing.enter ps qs
        if ← Expr.equalAllUnder inner ps qs then body.equalUnder inner cody else return false
      else return false
    | .cond _ c t e, .cond _ c' t' e' => do
      if ← c.equalUnder pairing c' then
        if ← t.equalUnder pairing t' then e.equalUnder pairing e' else return false
      else return false
    | .dims _ ds, .dims _ es => return ds.length == es.length && ds == es
    | _, _ => return false
termination_by structural a

def Expr.equalAllUnder (pairing : Pairing) : List Expr → List Expr → StateM Proven Bool
  | [], [] => return true
  | a :: as, b :: bs => do
    if ← a.equalUnder pairing b then Expr.equalAllUnder pairing as bs else return false
  | _, _ => return false
termination_by structural as => as

/-- Structural equality of literals.  The two string kinds are different, and expressions are compared outside
every function. -/
def Literal.equal : Literal → Literal → Bool
  | .int v, .int w => v == w
  | .float v, .float w => v == w
  | .stringImm s, .stringImm t => s == t
  | .string s, .string t => s == t
  | .dtype d, .dtype e => d == e
  | .prim a, .prim b => a == b
  | .type t, .type u => t == u
  | .expr a, .expr b => ((a.equalUnder [] b).run ∅).1
  | .array xs, .array ys => xs.length == ys.length && Literal.equalAll xs ys
  | _, _ => false
termination_by structural l => l

def Literal.equalAll : List Literal → List Literal → Bool
  | [], [] => true
  | x :: xs, y :: ys => x.equal y && Literal.equalAll xs ys
  | _, _ => false
termination_by structural xs => xs

def Literal.equalEntries : List (String × Literal) → List (String × Literal) → Bool
  | [], [] => true
  | (n, x) :: xs, (m, y) :: ys => n == m && (x.equal y && Literal.equalEntries xs ys)
  | _, _ => false
termination_by structural xs => xs

/-- Structural equality of attribute values. -/
def AttrValue.equal : AttrValue → AttrValue → Bool
  | .null, .null => true
  | .int v, .int w => v == w
  | .float v, .float w => v == w
  | .string s, .string t => s == t
  | .dtype d, .dtype e => d == e
  | .literal l, .literal m => l.equal m
  | .handle n, .handle m => n == m
  | _, _ => false
termination_by structural v => v

def AttrValue.equalFields : List (String × AttrValue) → List (String × AttrValue) → Bool
  | [], [] => true
  | (n, x) :: xs, (m, y) :: ys => n == m && (x.equal y && AttrValue.equalFields xs ys)
  | _, _ => false
termination_by structural xs => xs
end

/-- Structural equality of expressions. -/
def Expr.equal (a b : Expr) : Bool := ((a.equalUnder [] b).run ∅).1

def Record.equal (r s : Attrs) : Bool :=
  r.typeKey == s.typeKey && r.fields.length == s.fields.length && AttrValue.equalFields r.fields s.fields

def Dict.equal (d e : LiteralDict) : Bool :=
  d.entries.length == e.entries.length && Literal.equalEntries d.entries e.entries

end Dataflow
