import Dataflow.Match.Visit
import Mathlib.Tactic.Common
/-!
# One layer of a visit

The rule of a pattern is given here with the visits of other patterns left open (`ruleBy`).  With visits in their place
it is what a visit does (`visit_eq_visitBy`).  A rule is of one of two kinds: it looks at the expression as it is, or
it asks for a form, and then it follows a variable first and looks at nothing else (`formBy`).
-/
namespace Dataflow
namespace MatchContext

open MatchM

section
variable (c : MatchContext) (v : Pattern → Expr → MatchM Bool)

/-- `visitAll` with `v` in the place of the visits. -/
def visitAllBy : List Pattern → List Expr → MatchM Bool
  | [], [] => return true
  | p :: ps, e :: es => do
    if ps.length == es.length then
      if ← v p e then visitAllBy ps es else return false
    else return false
  | _, _ => return false

/-- One step of a walk along a path, which goes on with `walk`. -/
def pathStep (walk : Expr → MatchM Bool) (path parent : Pattern) (e : Expr) : MatchM Bool := do
  let _ ← locate c e
  e.dataInputs.allM fun input => do
    setMemoize true
    if ← v parent input then return true
    setMemoize false
    if ← v path input then walk input else return false

/-- `visitPath` with `v` in the place of the visits. -/
def visitPathBy (path parent : Pattern) (e : Expr) : MatchM Bool := do
  let _ ← locate c e
  e.dataInputs.attach.allM fun (input : { d // d ∈ e.dataInputs }) => do
    setMemoize true
    if ← v parent input.1 then return true
    setMemoize false
    if ← v path input.1 then visitPathBy path parent input.1 else return false
termination_by e.treeSize
decreasing_by exact Expr.treeSize_lt_of_mem_dataInputs input.2

/-- `dominatesParent` with `v` in the place of the visits. -/
def dominatesParentBy (parent : Pattern) (e : Expr) : MatchM Bool := do
  let (g, i) ← locate c e
  (g.dominatedBy i).anyM fun j =>
    match g.node? j with
    | some node => v parent node.expr
    | none => return false

/-- The re-associations of a pattern, tried with `v`. -/
def reassociatedBy (p : Pattern) (e : Expr) : MatchM Bool := do
  let fresh ← takeFresh Pattern.reassociationIds
  (Pattern.reassociations fresh p e).anyM fun q => v q e

/-- What a pattern with a form asks of the expression that is looked at, with `v` in the place of the visits. -/
def formBy (p : Pattern) (e : Expr) : MatchM Bool :=
  match p, e with
  | .constant _, .constant .. => return true
  | .external _ symbol, .external _ s => return symbol.isEmpty || s == symbol
  | .anyTuple _, .tuple .. => return true
  | .tuple _ ps, .tuple _ es => visitAllBy v ps es
  | .item _ q index, .item _ t k => if index.all (· == k) then v q t else return false
  | .function _ ps q, .function _ params body _ => do if ← visitAllBy v ps params then v q body else return false
  | .anyFunction _ q, .function _ _ body _ => v q body
  | .cond _ q₁ q₂ q₃, .cond _ e₁ e₂ e₃ => do
    if ← v q₁ e₁ then
      if ← v q₂ e₂ then v q₃ e₃ else return false
    else return false
  | .anyCall _ callee, .call _ f _ _ => v callee f
  | .call i callee ps, .call j f args attrs => do
    if ← v callee f then
      if ← orUndo (visitAllBy v ps args) then return true
      else if c.config.commutative && callee.operator?.any (·.isCommutative) then
        orUndo (visitAllBy v ps.reverse args)
      else return false
    else if c.config.associative then reassociatedBy v (.call i callee ps) (.call j f args attrs)
    else return false
  | .dims _ ds, .dims _ es => return c.oracle.shapesEqual ds es
  | _, _ => return false

/-- The rule of a pattern, with `v` in the place of the visits. -/
def ruleBy (p : Pattern) (e : Expr) : MatchM Bool :=
  match p with
  | .wildcard _ => return true
  | .either _ l r => do if ← v l e then return true else v r e
  | .both _ l r => do if ← v l e then v r e else return false
  | .negation _ q => return !(← v q e)
  | .var _ name => return e.var?.any fun x => name.isEmpty || x.name == name
  | .expr _ target => do
    if target.equal e then return true
    checkFollow c e
    return (c.follow e).id != e.id && target.equal (c.follow e)
  | .hasAttrs _ q attrs => do
    if ← v q e then
      checkFollow c e
      attrs.heldBy c.registry (c.follow e)
    else return false
  | .hasType _ q t => if e.inferType? == some t then v q e else return false
  | .hasShape _ q ds =>
    if (e.shape?.bind Shape.dims?).any (c.oracle.shapesEqual ds) then v q e else return false
  | .hasDType _ q d => if e.dtype? == some d then v q e else return false
  | .runtimeShape _ => return e.shape?.any Shape.isRuntime
  | .dominator _ child path parent => restoringMemoize do
    if ← v child e then
      let reached ← c.visitPathBy v path parent e
      setMemoize true
      if reached then c.dominatesParentBy v parent e else return false
    else return false
  | p => do
    checkFollow c e
    c.formBy v p (c.follow e)

def visitBy (p : Pattern) (e : Expr) : MatchM Bool := attempt p e (c.ruleBy v p e)

end

variable {c : MatchContext} {v : Pattern → Expr → MatchM Bool} {path parent : Pattern}

theorem anyM_map {α β : Type} (f : β → MatchM Bool) (g : α → β) : ∀ as : List α,
    (as.map g).anyM f = as.anyM fun a => f (g a)
  | [] => rfl
  | a :: as => by rw [List.map_cons, List.anyM_cons, List.anyM_cons, anyM_map f g as]

theorem allM_map {α β : Type} (f : β → MatchM Bool) (g : α → β) : ∀ as : List α,
    (as.map g).allM f = as.allM fun a => f (g a)
  | [] => rfl
  | a :: as => by rw [List.map_cons, List.allM_cons, List.allM_cons, allM_map f g as]

theorem reassociatedBy_eq (p : Pattern) (e : Expr) : reassociatedBy v p e =
    takeFresh Pattern.reassociationIds >>= fun fresh =>
      (Pattern.reassociations fresh p e).attach.anyM fun q => v q.1 e := by
  rw [reassociatedBy]
  refine bind_congr fun fresh => ?_
  conv_lhs => rw [← List.attach_map_subtype_val (Pattern.reassociations fresh p e), anyM_map]

theorem visitAllBy_visit : ∀ (ps : List Pattern) (es : List Expr), visitAllBy c.visit ps es = c.visitAll ps es
  | [], [] => by rw [visitAll, visitAllBy]
  | [], _ :: _ | _ :: _, [] => by rw [visitAll, visitAllBy] <;> simp
  | p :: ps, e :: es => by rw [visitAll, visitAllBy, visitAllBy_visit ps es]

/-- A walk is steps, one after the other. -/
theorem visitPathBy_eq (e : Expr) :
    c.visitPathBy v path parent e = c.pathStep v (c.visitPathBy v path parent) path parent e := by
  rw [visitPathBy, pathStep]
  refine bind_congr fun _ => ?_
  conv_rhs => rw [← List.attach_map_subtype_val e.dataInputs, allM_map]

theorem visitPathBy_visit (e : Expr) : c.visitPathBy c.visit path parent e = c.visitPath path parent e := by
  rw [visitPath, visitPathBy]
  refine bind_congr fun _ => ?_
  congr 1
  funext x
  obtain ⟨input, hinput⟩ := x
  simp only [visitPathBy_visit input]
termination_by e.treeSize
decreasing_by exact Expr.treeSize_lt_of_mem_dataInputs hinput

/-- **A visit is one layer around visits.** -/
theorem visit_eq_visitBy (p : Pattern) (e : Expr) : c.visit p e = c.visitBy c.visit p e := by
  rw [visit.eq_def, visitBy]
  congr 1
  cases p with
  | dominator _ child path parent =>
    simp only [ruleBy, visitPathBy_visit]
    rfl
  | constant | external | tuple | anyTuple | item | function | anyFunction | cond | call | anyCall | dims =>
    refine bind_congr fun _ => ?_
    cases c.follow e <;> simp only [formBy, visitAllBy_visit, reassociatedBy_eq]
  | _ => rfl

end MatchContext
end Dataflow
