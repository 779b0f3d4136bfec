import Dataflow.Proofs.Graph.Dominated
import Dataflow.Proofs.Match.Dominator
import Dataflow.Proofs.Match.Supply
/-!
# The parent of a dominator pattern is dominated

In a dependency graph that starts at a given root, what the parent of a dominator pattern is bound to after a match has
the matched expression on all its ways to the root, so a node with a way that avoids the expression is never accepted.
The candidates of the search do not get in each other's way: it succeeds if and only if one of them matches from the
session in which it starts (`dominatesParent_iff`).
-/
namespace Dataflow

/-! ## Matchers with a root of their own -/

namespace Matcher

/-- Dependency graphs start at `root`, whatever is to be matched. -/
structure RootedAt (m : Matcher) (root : Expr) : Prop where
  root_eq : m.root = some root
  graph_eq : ∀ g, m.graph = some g → g = .ofExpr root

variable {m : Matcher} {root : Expr}

theorem rootedAt_withRoot (m : Matcher) (root : Expr) : (m.withRoot root).RootedAt root :=
  ⟨rfl, fun _ h => by cases h⟩

theorem RootedAt.prepareGraph (h : m.RootedAt root) (e : Expr) :
    (m.prepareGraph e).RootedAt root ∧ (m.prepareGraph e).graph = some (.ofExpr root) := by
  have hroot : m.root.getD e = root := by rw [h.root_eq, Option.getD_some]
  rcases m.prepareGraph_cases e with ⟨hkept, g, hg, -⟩ | hnew
  · rw [hkept]
    exact ⟨h, h.graph_eq g hg ▸ hg⟩
  · rw [hnew, hroot]
    exact ⟨⟨h.root_eq, fun g hg => (Option.some.inj hg).symm⟩, rfl⟩

/-- Matches leave the root where it is. -/
theorem RootedAt.run (h : m.RootedAt root) (registry : Registry) (p : Pattern) (e : Expr) :
    (m.run registry p e).2.RootedAt root := by
  rw [Matcher.run]
  split
  · exact h
  · have hprepared : (if p.containsDominator then m.prepareGraph e else m).RootedAt root := by
      split
      · exact (h.prepareGraph e).1
      · exact h
    exact ⟨hprepared.root_eq, hprepared.graph_eq⟩

end Matcher

namespace MatchContext

open MatchM

variable {c : MatchContext} {child path parent : Pattern} {root e : Expr} {s s' : Session} {matched : Bool} {t : Trail}

/-- What satisfies the parent has the expression on all its ways to the root. -/
theorem FoundParent.exists_bound (h : c.FoundParent parent e t) (hgraph : c.graph = some (.ofExpr root))
    (hroot : root.Coherent) (he : root.Reaches e) (hnegation : parent.isNegation = false) :
    ∃ bound j, t.get? parent.id = some bound ∧ (DependencyGraph.ofExpr root).position? bound = some j ∧
      (DependencyGraph.ofExpr root).PostDominatedBy root e j := by
  obtain ⟨g, k, j, node, hg, hk, hj, hnode, hneg | ⟨bound, hbound, hid⟩⟩ := h
  · rw [hnegation] at hneg
    cases hneg
  · cases hgraph.symm.trans hg
    obtain ⟨d, hd, rfl⟩ := DependencyGraph.node?_eq_some_iff.1 hnode
    have hreaches := Expr.reaches_of_mem_toposort hroot (List.mem_of_getElem? hd)
    have hposition := (DependencyGraph.position?_eq_some_iff hroot hreaches).2 hd
    exact ⟨bound, j, hbound, (DependencyGraph.position?_congr hid).trans hposition,
      ((DependencyGraph.mem_dominatedBy_position_iff hroot he hk).1 hj).2⟩

/-- **The search succeeds if and only if something that the expression strictly dominates matches the parent**, from the
session in which it starts. -/
theorem dominatesParent_iff (hgraph : c.graph = some (.ofExpr root)) (hroot : root.Coherent) (he : root.Reaches e)
    (hparent : parent.Numbered) (hs : s.Supplied) (h : (c.dominatesParent parent e).run s = (.ok matched, s')) :
    matched = true ↔ ∃ j node, (DependencyGraph.ofExpr root).node? j = some node ∧
      (DependencyGraph.ofExpr root).PostDominatedBy root e j ∧
      ((c.visit parent node.expr).run s).1 = .ok true := by
  obtain ⟨k, hkl, hek⟩ := List.mem_iff_getElem.1 ((Expr.mem_toposort_iff hroot).2 he)
  have hk := (DependencyGraph.position?_eq_some_iff hroot he).2 (List.getElem?_eq_some_iff.2 ⟨hkl, hek⟩)
  have hlocate : locate c e = pure (.ofExpr root, k) := by
    rw [locate, hgraph]
    dsimp only
    rw [hk]
  have hbelow : ∀ k, parent.Uses (.derived k) → k < s.fresh := fun k hk => absurd hk (hparent.not_uses_derived k)
  rw [dominatesParent, hlocate, pure_bind] at h
  rw [anyM_iff_of_later ?_ ?_ ⟨rfl, rfl, Nat.le_refl _⟩ h]
  · constructor
    · rintro ⟨j, hj, hmatched⟩
      obtain ⟨⟨node, hnode⟩, hdominated⟩ := (DependencyGraph.mem_dominatedBy_position_iff hroot he hk).1 hj
      rw [hnode] at hmatched
      exact ⟨j, node, hnode, hdominated, hmatched⟩
    · rintro ⟨j, node, hnode, hdominated, hmatched⟩
      refine ⟨j, (DependencyGraph.mem_dominatedBy_position_iff hroot he hk).2 ⟨⟨node, hnode⟩, hdominated⟩, ?_⟩
      rw [hnode]
      exact hmatched
  · intro j _
    split
    · exact c.visit_atomic parent _
    · exact fun s => ensures_pure.2 ⟨.refl s, fun _ => rfl⟩
  · intro j _ t hlater
    split
    · exact run_visit_of_later c _ hs hbelow hlater
    · rfl

/-- Nothing that the supply still has is bound where the search starts, if that was so before the match. -/
theorem supplied_of_visitPath {s₁ s₂ : Session} {found reached : Bool} (hchild : child.Numbered) (hpath : path.Numbered)
    (hparent : parent.Numbered) (hs : s.Supplied) (h₁ : (c.visit child e).run s = (.ok found, s₁))
    (h₂ : (c.visitPath path parent e).run s₁ = (.ok reached, s₂)) : Session.Supplied { s₂ with memoize := true } := by
  have hmemoize : ∀ memoize, Keeps (Session.BindsOnly fun i => ∃ n, i = .given n) (setMemoize memoize) := fun _ s =>
    ensures_setMemoize.2 ((Session.BindsOnly.refl s).setMemoize _)
  have hgiven : ∀ {p : Pattern}, p.Numbered → ∀ e, Keeps (Session.BindsOnly fun i => ∃ n, i = .given n) (c.visit p e) :=
    fun hp e s => ((c.keeps_bindsOnly _ e) s).imp fun _ _ hs' => hs'.mono fun i hi => by
      cases i with
      | given n => exact ⟨n, rfl⟩
      | derived k => exact absurd hi (hp.not_uses_derived k)
  have hpath := (Keeps.congruence c).visitPath (σ := id) (fun _ => keeps_locate) hmemoize (hgiven hpath)
    (hgiven hparent) e
  have hwalked := ((hgiven hchild e s).of_run h₁).trans ((hpath s₁).of_run h₂)
  exact (hwalked.setMemoize true).supplied (fun k ⟨n, hn⟩ => by cases hn) hs

/-- **The parent of a dominator pattern is bound to something that the matched expression strictly dominates**: in the
dependency graph that the matcher was given, every way along consumers from it to the root comes by the expression.
The search for it succeeds if and only if something that the expression strictly dominates matches the parent from the
session in which the search starts; nothing is bound there that the supply still has. -/
theorem parent_postDominated (root e : Expr) (hroot : root.Coherent) (he : root.Reaches e) (i : PatternId)
    (child path parent : Pattern) (hp : (Pattern.dominator i child path parent).Numbered) :
    (∀ (m m' : Matcher) (registry : Registry), m.RootedAt root → parent.isNegation = false →
      m.run registry (.dominator i child path parent) e = (.ok true, m') →
        ∃ bound j, m'.trail.get? parent.id = some bound ∧ (DependencyGraph.ofExpr root).position? bound = some j ∧
          (DependencyGraph.ofExpr root).PostDominatedBy root e j) ∧
    (∀ (c : MatchContext) (s s' : Session) (matched : Bool), c.graph = some (.ofExpr root) → s.Supplied →
      (c.dominatesParent parent e).run s = (.ok matched, s') →
        (matched = true ↔ ∃ j node, (DependencyGraph.ofExpr root).node? j = some node ∧
          (DependencyGraph.ofExpr root).PostDominatedBy root e j ∧
          ((c.visit parent node.expr).run s).1 = .ok true)) ∧
    (∀ (c : MatchContext) (s s₁ s₂ : Session) (found reached : Bool), s.Supplied →
      (c.visit child e).run s = (.ok found, s₁) → (c.visitPath path parent e).run s₁ = (.ok reached, s₂) →
        Session.Supplied { s₂ with memoize := true }) := by
  have hpart : ∀ q ∈ [child, path, parent], q.Numbered := fun q hq => hp.reaches (Pattern.Reaches.refl.child hq)
  have hparent := hpart parent (by simp)
  refine ⟨fun m m' registry hm hnegation h => ?_, fun c s s' matched hgraph hs h => ?_, fun c s s₁ s₂ _ _ hs h₁ h₂ => ?_⟩
  · exact (found_of_run_dominator hparent h).1.exists_bound (hm.prepareGraph e).2 hroot he hnegation
  · exact dominatesParent_iff hgraph hroot he hparent hs h
  · exact supplied_of_visitPath (hpart child (by simp)) (hpart path (by simp)) hparent hs h₁ h₂

/-- In a program around a pair of two boxes with one `x`, the search from the pair finds `x`. -/
theorem parent_postDominated_of_boxed_pair :
    let x := Expr.var ⟨0, none, none⟩ ⟨0, "x"⟩
    let left := Expr.tuple ⟨1, none, none⟩ [x]
    let right := Expr.tuple ⟨2, none, none⟩ [x]
    let pair := Expr.tuple ⟨3, none, none⟩ [left, right]
    let root := Expr.item ⟨4, none, none⟩ pair 0
    let any := Pattern.wildcard (.given 0)
    let isBox := Pattern.anyTuple (.given 1)
    let isX := Pattern.var (.given 2) "x"
    let p := Pattern.dominator (.given 3) any isBox isX
    let m := Matcher.initial.withRoot root
    let m' := (m.run .empty p pair).2
    let c := m'.context .empty
    let s' := ((c.dominatesParent isX pair).run .initial).2
    root.Coherent ∧ root.Reaches pair ∧ p.Numbered ∧ m.RootedAt root ∧ m.run .empty p pair = (.ok true, m') ∧
      (c.dominatesParent isX pair).run .initial = (.ok true, s') ∧
      (∃ bound j, m'.trail.get? isX.id = some bound ∧ (DependencyGraph.ofExpr root).position? bound = some j ∧
        (DependencyGraph.ofExpr root).PostDominatedBy root pair j) ∧
      ∃ j node, (DependencyGraph.ofExpr root).node? j = some node ∧
        (DependencyGraph.ofExpr root).PostDominatedBy root pair j ∧
        ((c.visit isX node.expr).run .initial).1 = .ok true := by
  intro x left right pair root any isBox isX p m m' c s'
  have hroot : root.Coherent := by
    have hmem : root ∈ [x, left, right, pair, root] := by simp
    refine Expr.coherent_of_closed hmem ?_ (by decide)
    simp [root, pair, right, left, x, Expr.children]
  have hpair : root.Reaches pair := .child .refl (List.mem_singleton.2 rfl)
  have hp : p.Numbered := by
    have hmem : p ∈ [any, isBox, isX, p] := by simp
    refine Pattern.numbered_of_closed hmem ?_ ?_ (by decide)
    · simp [p, isX, isBox, any, Pattern.children]
    · simp [p, isX, isBox, any, Pattern.id]
  have hm : m.RootedAt root := Matcher.rootedAt_withRoot _ root
  have hanswer : (m.run .empty p pair).1 = .ok true := by cbv
  have hrun : m.run .empty p pair = (.ok true, m') := Prod.ext hanswer rfl
  have hfound : ((c.dominatesParent isX pair).run .initial).1 = .ok true := by cbv
  have hsearch : (c.dominatesParent isX pair).run .initial = (.ok true, s') := Prod.ext hfound rfl
  have hgraph : c.graph = some (.ofExpr root) := by rfl
  obtain ⟨hbound, hiff, -⟩ := parent_postDominated root pair hroot hpair (.given 3) any isBox isX hp
  exact ⟨hroot, hpair, hp, hm, hrun, hsearch, hbound m m' .empty hm rfl hrun,
    (hiff c .initial s' true hgraph (fun _ _ => rfl) hsearch).1 rfl⟩

end MatchContext
end Dataflow
