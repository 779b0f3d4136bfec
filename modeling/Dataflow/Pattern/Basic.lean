import Dataflow.Expr.Basic
/-!
# Patterns

A pattern describes the form that an expression must have.  Every pattern node has an identity of its own: a
pattern used at two places of a larger one has to match the same node at both, and two patterns that are written
alike but were made separately are different.  The matcher makes patterns too; their identities are apart from
those of the patterns it is given.
-/
namespace Dataflow

inductive PatternId where
  | given (n : Nat)
  /-- Made during a match. -/
  | derived (n : Nat)
  deriving DecidableEq, Inhabited

inductive Pattern where
  | wildcard (id : PatternId)
  /-- The first, or else the second. -/
  | either (id : PatternId) (first second : Pattern)
  | both (id : PatternId) (first second : Pattern)
  | negation (id : PatternId) (inner : Pattern)
  | constant (id : PatternId)
  /-- A variable; an empty name stands for any. -/
  | var (id : PatternId) (name : String)
  /-- An external function; an empty symbol stands for any. -/
  | external (id : PatternId) (symbol : String)
  /-- What is structurally equal to an expression. -/
  | expr (id : PatternId) (target : Expr)
  | tuple (id : PatternId) (fields : List Pattern)
  | anyTuple (id : PatternId)
  /-- An item of a tuple; without an index, any. -/
  | item (id : PatternId) (tuple : Pattern) (index : Option Nat)
  | function (id : PatternId) (params : List Pattern) (body : Pattern)
  | anyFunction (id : PatternId) (body : Pattern)
  | cond (id : PatternId) (test thenBranch elseBranch : Pattern)
  | call (id : PatternId) (callee : Pattern) (args : List Pattern)
  | anyCall (id : PatternId) (callee : Pattern)
  | hasAttrs (id : PatternId) (inner : Pattern) (attrs : LiteralDict)
  | hasType (id : PatternId) (inner : Pattern) (type : Ty)
  | hasShape (id : PatternId) (inner : Pattern) (dims : List SymInt)
  | hasDType (id : PatternId) (inner : Pattern) (dtype : DType)
  /-- A list of dimensions as a value. -/
  | dims (id : PatternId) (dims : List SymInt)
  /-- A shape that is only known when the program runs. -/
  | runtimeShape (id : PatternId)
  /-- `child`, reached from `parent` only through `path`, with `parent` dominated by it. -/
  | dominator (id : PatternId) (child path parent : Pattern)
  deriving Inhabited

namespace Pattern

def id : Pattern → PatternId
  | wildcard i | either i .. | both i .. | negation i _ | constant i | var i _ | external i _ | expr i _
  | tuple i _ | anyTuple i | item i .. | function i .. | anyFunction i _ | cond i .. | call i .. | anyCall i _
  | hasAttrs i .. | hasType i .. | hasShape i .. | hasDType i .. | dims i _ | runtimeShape i | dominator i .. => i

/-- The patterns that a pattern is made of. -/
def children : Pattern → List Pattern
  | wildcard _ | constant _ | var .. | external .. | expr .. | anyTuple _ | dims .. | runtimeShape _ => []
  | either _ p q | both _ p q => [p, q]
  | negation _ p | item _ p _ | anyFunction _ p | anyCall _ p | hasAttrs _ p _ | hasType _ p _ | hasShape _ p _
  | hasDType _ p _ => [p]
  | tuple _ ps => ps
  | function _ ps body => ps ++ [body]
  | cond _ c t e => [c, t, e]
  | call _ callee args => callee :: args
  | dominator _ child path parent => [child, path, parent]

mutual
/-- The number of positions in the tree of a pattern. -/
def size : Pattern → Nat
  | wildcard _ | constant _ | var .. | external .. | expr .. | anyTuple _ | dims .. | runtimeShape _ => 1
  | either _ p q | both _ p q => 1 + (p.size + q.size)
  | negation _ p | item _ p _ | anyFunction _ p | anyCall _ p | hasAttrs _ p _ | hasType _ p _ | hasShape _ p _
  | hasDType _ p _ => 1 + p.size
  | tuple _ ps => 1 + sizes ps
  | function _ ps body => 1 + (sizes ps + body.size)
  | cond _ c t e => 1 + (c.size + (t.size + e.size))
  | call _ callee args => 1 + (callee.size + sizes args)
  | dominator _ child path parent => 1 + (child.size + (path.size + parent.size))
def sizes : List Pattern → Nat
  | [] => 0
  | p :: ps => p.size + sizes ps
end

mutual
/-- Whether a dominator pattern occurs anywhere in a pattern.  The last part is looked at first. -/
def containsDominator : Pattern → Bool
  | wildcard _ | constant _ | var .. | external .. | expr .. | anyTuple _ | dims .. | runtimeShape _ => false
  | either _ p q | both _ p q => q.containsDominator || p.containsDominator
  | negation _ p | item _ p _ | anyFunction _ p | anyCall _ p | hasAttrs _ p _ | hasType _ p _ | hasShape _ p _
  | hasDType _ p _ => p.containsDominator
  | tuple _ ps => anyContainsDominator ps
  | function _ ps body => body.containsDominator || anyContainsDominator ps
  | cond _ c t e => e.containsDominator || (t.containsDominator || c.containsDominator)
  | call _ callee args => anyContainsDominator args || callee.containsDominator
  | dominator .. => true
def anyContainsDominator : List Pattern → Bool
  | [] => false
  | p :: ps => anyContainsDominator ps || p.containsDominator
end

def isNegation : Pattern → Bool
  | negation .. => true
  | _ => false

/-- The operator that a pattern refers to literally. -/
def operator? : Pattern → Option Operator
  | expr _ target => target.operator?
  | _ => none

/-- The name of the operator that a call pattern refers to literally. -/
def calledName? : Pattern → Option String
  | call _ callee _ | anyCall _ callee => callee.operator?.map (·.name)
  | _ => none

theorem sizes_append (ps qs : List Pattern) : sizes (ps ++ qs) = sizes ps + sizes qs := by
  induction ps with
  | nil => simp [sizes]
  | cons p ps ih => simp only [List.cons_append, sizes, ih]; omega

theorem sizes_reverse (ps : List Pattern) : sizes ps.reverse = sizes ps := by
  induction ps with
  | nil => rfl
  | cons p ps ih => simp only [List.reverse_cons, sizes_append, ih, sizes]; omega

theorem size_pos (p : Pattern) : 0 < p.size := by cases p <;> simp only [size] <;> omega

theorem sizes_children (p : Pattern) : p.size = 1 + sizes p.children := by
  cases p <;> simp [size, children, sizes, sizes_append]

end Pattern
end Dataflow
