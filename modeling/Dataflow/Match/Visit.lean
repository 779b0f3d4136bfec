import Dataflow.Expr.Typing
import Dataflow.Match.Reassociate
import Dataflow.Match.Session
/-!
# Matching a pattern

`visit` matches one pattern with one expression by the rule for the form of the pattern.  Its parts are visited in
order and the visit stops at the first that fails.

A call pattern visits its callee and then its arguments in order, and in reverse order where that fails and the
callee pattern is a commutative operator.  Where the callee fails, the re-associated patterns are tried.

A dominator pattern matches its child with the expression.  Every input of the expression, except a callee, then
has to match the parent, or to match the path and to have inputs that do the same in turn; meanwhile the path is
not held to one node.  At last the parent has to match some node that the expression strictly dominates.

Every visit inside a visit is of a smaller pattern, or of a re-association, which has no re-associations itself;
the walk along a path goes from an expression to its inputs.
-/
namespace Dataflow.MatchContext

open MatchM

mutual

/-- Whether a pattern matches an expression, with the bindings of the match committed. -/
def visit (c : MatchContext) (p : Pattern) (e : Expr) : MatchM Bool :=
  attempt p e <|
    match p with
    | .wildcard _ => return true
    | .either _ l r => do if ← c.visit l e then return true else c.visit r e
    | .both _ l r => do if ← c.visit l e then c.visit r e else return false
    | .negation _ q => return !(← c.visit q e)
    | .constant _ => do
      checkFollow c e
      match c.follow e with
      | .constant .. => return true
      | _ => return false
    | .var _ name => return e.var?.any fun v => name.isEmpty || v.name == name
    | .external _ symbol => do
      checkFollow c e
      match c.follow e with
      | .external _ s => return symbol.isEmpty || s == symbol
      | _ => return false
    | .expr _ target => do
      if target.equal e then return true
      checkFollow c e
      return (c.follow e).id != e.id && target.equal (c.follow e)
    | .anyTuple _ => do
      checkFollow c e
      match c.follow e with
      | .tuple .. => return true
      | _ => return false
    | .tuple _ ps => do
      checkFollow c e
      match c.follow e with
      | .tuple _ es => c.visitAll ps es
      | _ => return false
    | .item _ q index => do
      checkFollow c e
      match c.follow e with
      | .item _ t k => if index.all (· == k) then c.visit q t else return false
      | _ => return false
    | .function _ ps q => do
      checkFollow c e
      match c.follow e with
      | .function _ params body _ => if ← c.visitAll ps params then c.visit q body else return false
      | _ => return false
    | .anyFunction _ q => do
      checkFollow c e
      match c.follow e with
      | .function _ _ body _ => c.visit q body
      | _ => return false
    | .cond _ q₁ q₂ q₃ => do
      checkFollow c e
      match c.follow e with
      | .cond _ e₁ e₂ e₃ => do
        if ← c.visit q₁ e₁ then
          if ← c.visit q₂ e₂ then c.visit q₃ e₃ else return false
        else return false
      | _ => return false
    | .anyCall _ callee => do
      checkFollow c e
      match c.follow e with
      | .call _ f _ _ => c.visit callee f
      | _ => return false
    | .call i callee ps => do
      checkFollow c e
      match _followed : c.follow e with
      | .call j f args attrs => do
        if ← c.visit callee f then
          if ← orUndo (c.visitAll ps args) then return true
          else if c.config.commutative && callee.operator?.any (·.isCommutative) then
            orUndo (c.visitAll ps.reverse args)
          else return false
        else if c.config.associative then do
          let fresh ← takeFresh Pattern.reassociationIds
          (Pattern.reassociations fresh (.call i callee ps) (.call j f args attrs)).attach.anyM
            fun ⟨q, _⟩ => c.visit q (.call j f args attrs)
        else return false
      | _ => return false
    | .hasAttrs _ q attrs => do
      if ← c.visit q e then
        checkFollow c e
        attrs.heldBy c.registry (c.follow e)
      else return false
    | .hasType _ q t => if e.inferType? == some t then c.visit q e else return false
    | .hasShape _ q ds =>
      if (e.shape?.bind Shape.dims?).any (c.oracle.shapesEqual ds) then c.visit q e else return false
    | .hasDType _ q d => if e.dtype? == some d then c.visit q e else return false
    | .dims _ ds => do
      checkFollow c e
      match c.follow e with
      | .dims _ es => return c.oracle.shapesEqual ds es
      | _ => return false
    | .runtimeShape _ => return e.shape?.any Shape.isRuntime
    | .dominator _ child path parent => restoringMemoize do
      if ← c.visit child e then
        let reached ← c.visitPath path parent e
        setMemoize true
        if reached then
          let (g, i) ← locate c e
          (g.dominatedBy i).anyM fun j =>
            match g.node? j with
            | some node => c.visit parent node.expr
            | none => return false
        else return false
      else return false
termination_by (2 * p.size, (Pattern.reassociations 0 p (c.follow e)).length, 0)
decreasing_by
  all_goals try exact Prod.Lex.left _ _ (by simp only [Pattern.size, Pattern.sizes_reverse]; omega)
  rename_i hq
  rw [Pattern.size_of_mem_reassociations hq, c.follow_of_var?_eq_none rfl, Pattern.reassociations_of_mem hq, _followed]
  refine Prod.Lex.right _ (Prod.Lex.left _ _ ?_)
  rw [Pattern.length_reassociations 0 fresh]
  exact List.length_pos_of_mem hq

/-- Visits patterns and expressions pairwise, if there are as many of the ones as of the others. -/
def visitAll (c : MatchContext) (ps : List Pattern) (es : List Expr) : MatchM Bool :=
  match ps, es with
  | [], [] => return true
  | p :: ps, e :: es => do
    if ps.length == es.length then
      if ← c.visit p e then c.visitAll ps es else return false
    else return false
  | _, _ => return false
termination_by (2 * Pattern.sizes ps + 1, 0, 0)
decreasing_by
  · exact Prod.Lex.left _ _ (by simp only [Pattern.sizes]; omega)
  · exact Prod.Lex.left _ _ (by have := p.size_pos; simp only [Pattern.sizes]; omega)

/-- Whether every data input of an expression matches `parent`, or matches `path` and has the same said of its own
inputs. -/
def visitPath (c : MatchContext) (path parent : Pattern) (e : Expr) : MatchM Bool := do
  let _ ← locate c e
  e.dataInputs.attach.allM fun ⟨input, _⟩ => do
    setMemoize true
    if ← c.visit parent input then return true
    setMemoize false
    if ← c.visit path input then c.visitPath path parent input else return false
termination_by (2 * (path.size + parent.size) + 1, 0, e.treeSize)
decreasing_by
  · exact Prod.Lex.left _ _ (by omega)
  · exact Prod.Lex.left _ _ (by omega)
  · exact Prod.Lex.right _ (Prod.Lex.right _ (Expr.treeSize_lt_of_mem_dataInputs ‹_›))
end

end Dataflow.MatchContext
