import Dataflow.Proofs.Match.Ensures
import Dataflow.Proofs.Match.Layer
import Dataflow.Proofs.Pattern.Rename
/-!
# What the rules of a pattern preserve

The rule of a pattern is put together from visits of its parts in a few ways only.  A relation between steps that all
of these ways preserve (`Congruence`) holds of the rules of a pattern and of the pattern with other identities, if it
holds of the visits of their parts (`Congruence.ruleBy`).  Re-association, which takes identities from the supply, and
dominator patterns, which do not hold bound patterns to their nodes on the way, are left to the relation.  Only they
depend on the dependency graph, so the two sides may have different ones.
-/
namespace Dataflow
namespace MatchContext

open MatchM

/-- The same context with another dependency graph, or without one. -/
def withGraph (c : MatchContext) (g : Option DependencyGraph) : MatchContext := { c with graph := g }

section
variable (c : MatchContext) (g : Option DependencyGraph) (e : Expr)

@[simp] theorem follow_withGraph : (c.withGraph g).follow e = c.follow e := rfl

@[simp] theorem checkFollow_withGraph : MatchM.checkFollow (c.withGraph g) e = MatchM.checkFollow c e := rfl

@[simp] theorem config_withGraph : (c.withGraph g).config = c.config := rfl

@[simp] theorem oracle_withGraph : (c.withGraph g).oracle = c.oracle := rfl

@[simp] theorem registry_withGraph : (c.withGraph g).registry = c.registry := rfl

end

/-- What a visit of an expression passes on to the visits of parts of the pattern. -/
def PassesOn (c : MatchContext) (e f : Expr) : Prop := f = e ∨ f ∈ (c.follow e).children

/-- The re-associations of a pattern, tried one after the other. -/
def visitReassociated (c : MatchContext) (p : Pattern) (e : Expr) : MatchM Bool := do
  let fresh ← takeFresh Pattern.reassociationIds
  (Pattern.reassociations fresh p e).attach.anyM fun ⟨q, _⟩ => c.visit q e

theorem reassociatedBy_visit (c : MatchContext) (p : Pattern) (e : Expr) :
    reassociatedBy c.visit p e = c.visitReassociated p e := reassociatedBy_eq p e

/-- Whether the parent of a dominator pattern matches something that an expression strictly dominates. -/
def dominatesParent (c : MatchContext) (parent : Pattern) (e : Expr) : MatchM Bool := do
  let (g, i) ← locate c e
  (g.dominatedBy i).anyM fun j =>
    match g.node? j with
    | some node => c.visit parent node.expr
    | none => return false

/-- What a dominator pattern asks for, whatever becomes of whether bound patterns are held to their nodes. -/
def walkDominator (c : MatchContext) (child path parent : Pattern) (e : Expr) : MatchM Bool := do
  if ← c.visit child e then
    let reached ← c.visitPath path parent e
    setMemoize true
    if reached then c.dominatesParent parent e else return false
  else return false

theorem ruleBy_dominator (c : MatchContext) (i : PatternId) (child path parent : Pattern) (e : Expr) :
    c.ruleBy c.visit (.dominator i child path parent) e = restoringMemoize (c.walkDominator child path parent e) := by
  simp only [ruleBy, visitPathBy_visit]
  rfl

theorem visit_dominator (c : MatchContext) (i : PatternId) (child path parent : Pattern) (e : Expr) :
    c.visit (.dominator i child path parent) e = attempt (.dominator i child path parent) e
      (restoringMemoize (c.walkDominator child path parent e)) := by
  rw [visit_eq_visitBy, visitBy, ruleBy_dominator]

end MatchContext

namespace MatchM

open MatchContext

/-- A relation between steps that is preserved by the ways in which rules are put together. -/
structure Congruence (c : MatchContext) (S : {α : Type} → MatchM α → MatchM α → Prop) : Prop where
  pure : ∀ {α : Type} (a : α), S (Pure.pure a) (Pure.pure a)
  bind : ∀ {α β : Type} {m m' : MatchM α} {f f' : α → MatchM β}, S m m' → (∀ a, S (f a) (f' a)) →
    S (m >>= f) (m' >>= f')
  orUndo : ∀ {m m' : MatchM Bool}, S m m' → S (orUndo m) (orUndo m')
  checkFollow : ∀ e : Expr, S (checkFollow c e) (checkFollow c e)

namespace Congruence

variable {S : {α : Type} → MatchM α → MatchM α → Prop} {c c' : MatchContext} {σ : PatternId → PatternId}

theorem ite (_ : Congruence c S) {α : Type} {b : Prop} [Decidable b] {m₁ m₁' m₂ m₂' : MatchM α} (h₁ : S m₁ m₁')
    (h₂ : S m₂ m₂') : S (if b then m₁ else m₂) (if b then m₁' else m₂') := by
  split
  · exact h₁
  · exact h₂

theorem anyM (h : Congruence c S) {α β : Type} {f : α → MatchM Bool} {g : β → MatchM Bool} {as : List α} {bs : List β}
    (hfg : List.Forall₂ (fun a b => S (f a) (g b)) as bs) : S (as.anyM f) (bs.anyM g) := by
  induction hfg with
  | nil => exact h.pure false
  | cons hab _ ih =>
    rw [List.anyM_cons, List.anyM_cons]
    refine h.bind hab fun matched => ?_
    cases matched with
    | true => exact h.pure true
    | false => exact ih

theorem allM (h : Congruence c S) {α : Type} {f g : α → MatchM Bool} :
    ∀ {as : List α}, (∀ a ∈ as, S (f a) (g a)) → S (as.allM f) (as.allM g)
  | [], _ => h.pure true
  | a :: as, hfg => by
    rw [List.allM_cons, List.allM_cons]
    refine h.bind (hfg a (by simp)) fun matched => ?_
    cases matched with
    | true => exact h.allM fun b hb => hfg b (by simp [hb])
    | false => exact h.pure false

theorem visitAll (h : Congruence c S) : ∀ {ps : List Pattern} {es : List Expr},
    (∀ p ∈ ps, ∀ e ∈ es, S (c.visit p e) (c'.visit (p.rename σ) e)) →
      S (c.visitAll ps es) (c'.visitAll (ps.map (.rename σ)) es)
  | [], [], _ => by
    rw [List.map_nil, MatchContext.visitAll, MatchContext.visitAll]
    exact h.pure true
  | [], _ :: _, _ => by
    rw [List.map_nil, MatchContext.visitAll, MatchContext.visitAll] <;> first | exact h.pure false | simp
  | _ :: _, [], _ => by
    rw [List.map_cons, MatchContext.visitAll, MatchContext.visitAll] <;> first | exact h.pure false | simp
  | p :: ps, e :: es, hps => by
    rw [List.map_cons, MatchContext.visitAll, MatchContext.visitAll, List.length_map]
    refine h.ite (h.bind (hps p (by simp) e (by simp)) fun _ => h.ite ?_ (h.pure false)) (h.pure false)
    exact h.visitAll fun q hq f hf => hps q (by simp [hq]) f (by simp [hf])

section
variable {m₁ m₁' m₂ m₂' : MatchM Bool}

theorem and (h : Congruence c S) (h₁ : S m₁ m₁') (h₂ : S m₂ m₂') :
    S (m₁ >>= fun matched => if matched then m₂ else Pure.pure false)
      (m₁' >>= fun matched => if matched then m₂' else Pure.pure false) :=
  h.bind h₁ fun _ => h.ite h₂ (h.pure false)

theorem or (h : Congruence c S) (h₁ : S m₁ m₁') (h₂ : S m₂ m₂') :
    S (m₁ >>= fun matched => if matched then Pure.pure true else m₂)
      (m₁' >>= fun matched => if matched then Pure.pure true else m₂') :=
  h.bind h₁ fun _ => h.ite (h.pure true) h₂

end

/-- **A relation that holds of the visits of the parts of a pattern at the inputs of an expression holds of what the
pattern asks of the form.** -/
theorem formBy (h : Congruence c S) (g : Option DependencyGraph) (p : Pattern) (e : Expr)
    (hinput : ∀ q ∈ p.children, ∀ f ∈ e.children, S (c.visit q f) ((c.withGraph g).visit (q.rename σ) f))
    (hagain : S (c.visitReassociated p e) ((c.withGraph g).visitReassociated (p.rename σ) e)) :
    S (c.formBy c.visit p e) ((c.withGraph g).formBy (c.withGraph g).visit (p.rename σ) e) := by
  have hfails : S (Pure.pure false) (Pure.pure false) := h.pure false
  have hall : ∀ {qs : List Pattern} {fs : List Expr}, (∀ q ∈ qs, q ∈ p.children) → (∀ f ∈ fs, f ∈ e.children) →
      S (visitAllBy c.visit qs fs) (visitAllBy (c.withGraph g).visit (qs.map (.rename σ)) fs) := fun hqs hfs => by
    rw [visitAllBy_visit, visitAllBy_visit]
    exact h.visitAll fun q hq f hf => hinput q (hqs q hq) f (hfs f hf)
  cases p <;> simp only [Pattern.rename, Pattern.renameAll_eq_map] <;> cases e <;>
    simp only [MatchContext.formBy, oracle_withGraph] <;> try exact h.pure _
  case tuple.tuple => exact hall (fun _ hq => hq) fun _ hf => hf
  case item.item q _ _ t _ => exact h.ite (hinput q (by simp [Pattern.children]) t (by simp [Expr.children])) hfails
  case function.function q _ _ body _ =>
    exact h.and (hall (fun r hr => by simp [Pattern.children, hr]) fun f hf => by simp [Expr.children, hf])
      (hinput q (by simp [Pattern.children]) body (by simp [Expr.children]))
  case anyFunction.function q _ _ body _ => exact hinput q (by simp [Pattern.children]) body (by simp [Expr.children])
  case cond.cond q₁ q₂ q₃ _ e₁ e₂ e₃ =>
    exact h.and (hinput q₁ (by simp [Pattern.children]) e₁ (by simp [Expr.children]))
      (h.and (hinput q₂ (by simp [Pattern.children]) e₂ (by simp [Expr.children]))
        (hinput q₃ (by simp [Pattern.children]) e₃ (by simp [Expr.children])))
  case anyCall.call callee _ f _ _ => exact hinput callee (by simp [Pattern.children]) f (by simp [Expr.children])
  case call.call callee ps _ f args _ =>
    simp only [Pattern.operator?_rename, ← List.map_reverse, config_withGraph, reassociatedBy_visit]
    simp only [Pattern.rename, Pattern.renameAll_eq_map] at hagain
    have hargs : ∀ {qs : List Pattern}, (∀ q ∈ qs, q ∈ ps) →
        S (MatchM.orUndo (visitAllBy c.visit qs args))
          (MatchM.orUndo (visitAllBy (c.withGraph g).visit (qs.map (.rename σ)) args)) := fun hqs =>
      h.orUndo (hall (fun q hq => by simp [Pattern.children, hqs q hq]) fun f hf => by simp [Expr.children, hf])
    refine h.bind (hinput callee (by simp [Pattern.children]) f (by simp [Expr.children])) fun _ =>
      h.ite ?_ (h.ite hagain hfails)
    exact h.or (hargs fun _ hq => hq) (h.ite (hargs fun _ => List.mem_reverse.1) hfails)

/-- **A relation that holds of the visits of the parts of a pattern holds of its rule.** -/
theorem ruleBy (h : Congruence c S) (c' : MatchContext) (hc : c' = c.withGraph c'.graph) (p : Pattern) (e : Expr)
    (hpart : ∀ q ∈ p.children, ∀ f, c.PassesOn e f → S (c.visit q f) (c'.visit (q.rename σ) f))
    (hagain : S (c.visitReassociated p (c.follow e)) (c'.visitReassociated (p.rename σ) (c.follow e)))
    (hattrs : ∀ i q attrs, p = .hasAttrs i q attrs →
      S (liftM (attrs.heldBy c.registry (c.follow e)) : MatchM Bool) (liftM (attrs.heldBy c.registry (c.follow e))))
    (hdominator : ∀ i child path parent, p = .dominator i child path parent →
      S (restoringMemoize (c.walkDominator child path parent e))
        (restoringMemoize (c'.walkDominator (child.rename σ) (path.rename σ) (parent.rename σ) e))) :
    S (c.ruleBy c.visit p e) (c'.ruleBy c'.visit (p.rename σ) e) := by
  have hcheck : ∀ {m m' : MatchM Bool}, S m m' →
      S (MatchM.checkFollow c e >>= fun _ => m) (MatchM.checkFollow c e >>= fun _ => m') := fun hm =>
    h.bind (h.checkFollow e) fun _ => hm
  have hself : ∀ q ∈ p.children, S (c.visit q e) (c'.visit (q.rename σ) e) := fun q hq => hpart q hq e (.inl rfl)
  obtain ⟨g, rfl⟩ : ∃ g, c' = c.withGraph g := ⟨_, hc⟩
  have hform := hcheck (h.formBy g p (c.follow e) (fun q hq f hf => hpart q hq f (.inr hf)) hagain)
  cases p with
  | wildcard | var | runtimeShape => exact h.pure _
  | expr => exact h.ite (h.pure true) (hcheck (h.pure _))
  | either _ l r => exact h.or (hself l (by simp [Pattern.children])) (hself r (by simp [Pattern.children]))
  | both _ l r => exact h.and (hself l (by simp [Pattern.children])) (hself r (by simp [Pattern.children]))
  | negation _ q => exact h.bind (hself q (by simp [Pattern.children])) fun _ => h.pure _
  | hasAttrs i q attrs => exact h.and (hself q (by simp [Pattern.children])) (hcheck (hattrs i q attrs rfl))
  | hasType _ q | hasShape _ q | hasDType _ q => exact h.ite (hself q (by simp [Pattern.children])) (h.pure false)
  | dominator i child path parent =>
    simp only [Pattern.rename, ruleBy_dominator]
    exact hdominator i child path parent rfl
  | _ => exact hform

/-! ## Dominator patterns -/

section
variable {child path parent : Pattern}

theorem visitPath (h : Congruence c S) (hlocate : ∀ e, S (locate c e) (locate c e))
    (hmemoize : ∀ memoize, S (setMemoize memoize) (setMemoize memoize))
    (hpath : ∀ e, S (c.visit path e) (c.visit (path.rename σ) e))
    (hparent : ∀ e, S (c.visit parent e) (c.visit (parent.rename σ) e)) :
    ∀ e, S (c.visitPath path parent e) (c.visitPath (path.rename σ) (parent.rename σ) e) := fun e => by
  rw [MatchContext.visitPath, MatchContext.visitPath]
  refine h.bind (hlocate e) fun _ => h.allM fun input _ => ?_
  obtain ⟨input, hinput⟩ := input
  refine h.bind (hmemoize true) fun _ => h.bind (hparent input) fun _ => h.ite (h.pure true) ?_
  refine h.bind (hmemoize false) fun _ => h.bind (hpath input) fun _ => h.ite ?_ (h.pure false)
  exact h.visitPath hlocate hmemoize hpath hparent input
termination_by e => e.treeSize
decreasing_by exact Expr.treeSize_lt_of_mem_dataInputs hinput

theorem dominatesParent (h : Congruence c S) (hlocate : ∀ e, S (locate c e) (locate c e))
    (hparent : ∀ e, S (c.visit parent e) (c.visit (parent.rename σ) e)) (e : Expr) :
    S (c.dominatesParent parent e) (c.dominatesParent (parent.rename σ) e) := by
  refine h.bind (hlocate e) fun ⟨g, i⟩ => h.anyM (List.forall₂_same.2 fun j _ => ?_)
  split
  · exact hparent _
  · exact h.pure false

theorem walkDominator (h : Congruence c S) (hlocate : ∀ e, S (locate c e) (locate c e))
    (hmemoize : ∀ memoize, S (setMemoize memoize) (setMemoize memoize))
    (hchild : ∀ e, S (c.visit child e) (c.visit (child.rename σ) e))
    (hpath : ∀ e, S (c.visit path e) (c.visit (path.rename σ) e))
    (hparent : ∀ e, S (c.visit parent e) (c.visit (parent.rename σ) e)) (e : Expr) :
    S (c.walkDominator child path parent e)
      (c.walkDominator (child.rename σ) (path.rename σ) (parent.rename σ) e) := by
  refine h.bind (hchild e) fun _ => h.ite ?_ (h.pure false)
  refine h.bind (h.visitPath hlocate hmemoize hpath hparent e) fun _ => h.bind (hmemoize true) fun _ => ?_
  exact h.ite (h.dominatesParent hlocate hparent e) (h.pure false)

end
end Congruence
end MatchM
end Dataflow
