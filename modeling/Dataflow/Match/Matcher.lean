import Dataflow.Match.Visit
/-!
# Matchers

A matcher can be asked again and again.  Every match starts from an empty trail and leaves its bindings to be read
until the next one.  A dependency graph is built when a pattern needs one, from the root the matcher was given or
else from the expression itself, and kept as long as the root stays the same.
-/
namespace Dataflow

structure Matcher where
  config : Config
  bindings : Option Bindings
  oracle : Oracle
  /-- Where dependency graphs start, if not at the expression to be matched. -/
  root : Option Expr
  graph : Option DependencyGraph
  trail : Trail

namespace Matcher

def initial : Matcher := ⟨{}, none, Prover.empty.oracle, none, none, .empty⟩

def withConfig (m : Matcher) (config : Config) : Matcher := { m with config }

/-- A matcher that follows variables to these values. -/
def withBindings (m : Matcher) (bindings : Bindings) : Matcher :=
  { m with bindings := some bindings, config := m.config.withAutoJump }

def withOracle (m : Matcher) (oracle : Oracle) : Matcher := { m with oracle }

def withRoot (m : Matcher) (root : Expr) : Matcher := { m with root := some root, graph := none }

/-- The matcher with the graph that a match of `e` needs. -/
def prepareGraph (m : Matcher) (e : Expr) : Matcher :=
  let root := m.root.getD e
  if (m.graph.bind (·.root?)).any (·.id == root.id) then m
  else { m with graph := some (.ofExpr root) }

/-- A graph is kept if its root has the right number. -/
theorem prepareGraph_cases (m : Matcher) (e : Expr) :
    (m.prepareGraph e = m ∧ ∃ g, m.graph = some g ∧ g.root?.any (·.id == (m.root.getD e).id) = true) ∨
      m.prepareGraph e = { m with graph := some (.ofExpr (m.root.getD e)) } := by
  rw [prepareGraph]
  split
  · rename_i hkept
    cases hg : m.graph with
    | none =>
      rw [hg] at hkept
      cases hkept
    | some g =>
      rw [hg] at hkept
      exact .inl ⟨rfl, g, rfl, hkept⟩
  · exact .inr rfl

def context (m : Matcher) (registry : Registry) : MatchContext :=
  ⟨m.config, m.bindings, m.oracle, registry, m.graph⟩

/-- Matches a pattern with an expression.  The matcher that is returned has the bindings of the match; after a
fault these are the ones made before it, and after a match that could not even begin those of the match before. -/
def run (m : Matcher) (registry : Registry) (p : Pattern) (e : Expr) : Except Fault Bool × Matcher :=
  if m.config.autoJump && m.bindings.isNone then (.error .noBindings, m)
  else
    let m := if p.containsDominator then m.prepareGraph e else m
    let (answer, s) := ((m.context registry).visit p e).run .initial
    (answer, { m with trail := s.trail })

end Matcher

namespace Pattern

/-- The matcher for a single match, which follows variables if there are bindings. -/
def matcher (bindings : Option Bindings) : Matcher :=
  match bindings with
  | some b => Matcher.initial.withBindings b
  | none => .initial

/-- Whether a pattern matches an expression. -/
def isMatch (p : Pattern) (registry : Registry) (e : Expr) (bindings : Option Bindings) : Except Fault Bool :=
  ((matcher bindings).run registry p e).1

/-- What each pattern was first bound to, if the pattern matches. -/
def extract (p : Pattern) (registry : Registry) (e : Expr) (bindings : Option Bindings) :
    Except Fault (Option (List Binding)) :=
  match (matcher bindings).run registry p e with
  | (.ok true, m) => .ok (some m.trail.firstBindings)
  | (.ok false, _) => .ok none
  | (.error fault, _) => .error fault

end Pattern
end Dataflow
