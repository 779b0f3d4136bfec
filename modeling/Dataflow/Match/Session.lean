import Dataflow.Match.Attribute
import Dataflow.Match.Config
import Dataflow.Match.Trail
import Dataflow.Graph.Basic
import Dataflow.SymInt.Prover
/-!
# What a match reads and what it changes

A match reads its context: the switches, the values of variables, an oracle for dimensions, the operator registry
and a dependency graph.  It changes its session: the trail, whether a bound pattern is held to its node, and the
supply of identities for patterns it makes.

`attempt` frames every visit of a pattern.  A pattern that is bound, while bound patterns are held to their nodes,
matches that node and no other.  Otherwise a success is committed, except for a negation, which binds nothing, and
a failure takes back everything committed since the visit began.  A fault ends the match and takes nothing back.
-/
namespace Dataflow

/-- The values of variables, by the numbers of the variables. -/
structure Bindings where
  entries : List (Nat × Expr)

namespace Bindings

def empty : Bindings := ⟨[]⟩

def set (b : Bindings) (v : Var) (e : Expr) : Bindings := ⟨(v.id, e) :: b.entries.filter (·.1 ≠ v.id)⟩

def value? (b : Bindings) (v : Var) : Option Expr := b.entries.lookup v.id

@[simp] theorem value?_empty (v : Var) : empty.value? v = none := rfl

@[simp] theorem value?_set (b : Bindings) (v w : Var) (e : Expr) :
    (b.set v e).value? w = if w.id = v.id then some e else b.value? w := by
  unfold value? set
  generalize b.entries = es
  induction es with grind

end Bindings

structure MatchContext where
  config : Config
  bindings : Option Bindings
  oracle : Oracle
  registry : Registry
  graph : Option DependencyGraph

structure Session where
  trail : Trail
  /-- Whether a bound pattern matches only the node it is bound to. -/
  memoize : Bool
  /-- The next identity for a pattern made during the match. -/
  fresh : Nat

def Session.initial : Session := ⟨.empty, true, 0⟩

/-- A step of a match changes the session and gives an answer or a fault.  A fault leaves the session as it was
when it arose. -/
abbrev MatchM := ExceptT Fault (StateM Session)

namespace MatchContext

/-- The expression that a match looks at in the place of `e`: the value of a variable that has one, if variables
are to be followed. -/
def follow (c : MatchContext) (e : Expr) : Expr :=
  if c.config.autoJump then
    match e.var?, c.bindings with
    | some v, some b => (b.value? v).getD e
    | _, _ => e
  else e

/-- Whether a variable is to be followed when there are no values at all. -/
def isStuck (c : MatchContext) (e : Expr) : Bool :=
  c.config.autoJump && (c.bindings.isNone && e.var?.isSome)

theorem isStuck_eq_false {c : MatchContext} (h : ¬(c.config.autoJump && c.bindings.isNone) = true) (e : Expr) :
    c.isStuck e = false := by
  rw [isStuck, ← Bool.and_assoc]
  exact Bool.and_eq_false_imp.2 fun hstuck => absurd hstuck h

theorem follow_of_var?_eq_none (c : MatchContext) {e : Expr} (h : e.var? = none) : c.follow e = e := by
  simp [follow, h]

end MatchContext

namespace MatchM

def mark : MatchM Nat := return (← get).trail.mark

/-- Takes back what was committed after a mark.  Nothing is left of a trail whose log and table disagree. -/
def rollback (mark : Nat) : MatchM Unit := ExceptT.mk fun ⟨trail, memoize, fresh⟩ =>
  match trail.rollback mark with
  | .ok trail => (.ok (), ⟨trail, memoize, fresh⟩)
  | .error p => (.error (.missingBinding p), ⟨.empty, memoize, fresh⟩)

def commit (p : Pattern) (e : Expr) : MatchM Unit := ExceptT.mk fun ⟨trail, memoize, fresh⟩ =>
  (.ok (), ⟨trail.commit p e, memoize, fresh⟩)

def setMemoize (memoize : Bool) : MatchM Unit := modify fun s => { s with memoize }

/-- Takes `n` identities from the supply and gives the first. -/
def takeFresh (n : Nat) : MatchM Nat := modifyGet fun s => (s.fresh, { s with fresh := s.fresh + n })

/-- Fails on a variable that cannot be followed. -/
def checkFollow (c : MatchContext) (e : Expr) : MatchM Unit := if c.isStuck e then throw .noBindings else return

/-- The node that a pattern is held to. -/
def held? (p : Pattern) : MatchM (Option Expr) := do
  let s ← get
  return if s.memoize then s.trail.get? p.id else none

/-- Runs the rule of a pattern on an expression. -/
def attempt (p : Pattern) (e : Expr) (rule : MatchM Bool) : MatchM Bool := do
  match ← held? p with
  | some bound => return bound.id == e.id
  | none =>
    let start ← mark
    if ← rule then
      unless p.isNegation do commit p e
      return true
    else
      rollback start
      return false

/-- Runs a search and takes back what it committed unless it succeeds. -/
def orUndo (search : MatchM Bool) : MatchM Bool := do
  let start ← mark
  if ← search then return true
  else
    rollback start
    return false

/-- Runs a search and afterwards holds bound patterns to their nodes, or not, as before it. -/
def restoringMemoize (search : MatchM Bool) : MatchM Bool := do
  let memoize := (← get).memoize
  let matched ← search
  setMemoize memoize
  return matched

/-- The graph and the position of an expression in it. -/
def locate (c : MatchContext) (e : Expr) : MatchM (DependencyGraph × Nat) :=
  match c.graph with
  | none => throw .noGraph
  | some g =>
    match g.position? e with
    | some i => return (g, i)
    | none => throw (.outsideGraph e)

end MatchM
end Dataflow
