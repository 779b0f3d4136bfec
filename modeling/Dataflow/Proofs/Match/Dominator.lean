import Dataflow.Proofs.Match.Footprint
/-!
# What a dominator pattern finds

A match of a dominator pattern walks from the expression along data inputs: every node on the way is what the parent is
bound to, where the way ends, or is accepted by the path while bound patterns are not held to their nodes (`Covers`).
After the walk the parent is looked for among the nodes that the expression strictly dominates (`FoundParent`).  What
one step finds the later ones leave, so all of it is there when the match ends (`found_of_run_dominator`).
-/
namespace Dataflow

/-- Nodes of which the first is a data input of an expression and each of the others of the one before it. -/
def Expr.InputChain (e : Expr) (chain : List Expr) : Prop := (e :: chain).IsChain fun d input => input ∈ d.dataInputs

namespace MatchContext

open MatchM

/-- A path pattern matches a node from some session in which bound patterns are not held to their nodes. -/
def Accepts (c : MatchContext) (path : Pattern) (e : Expr) : Prop :=
  ∃ s s', s.memoize = false ∧ (c.visit path e).run s = (.ok true, s')

/-- The path accepts the nodes of a chain up to the first that satisfies the parent, or else all of them. -/
def Covers (c : MatchContext) (path parent : Pattern) (t : Trail) : List Expr → Prop
  | [] => True
  | e :: chain => t.Satisfied parent e ∨ c.Accepts path e ∧ Covers c path parent t chain

/-- The parent is satisfied at something that the expression strictly dominates. -/
def FoundParent (c : MatchContext) (parent : Pattern) (e : Expr) (t : Trail) : Prop :=
  ∃ g k j node, c.graph = some g ∧ g.position? e = some k ∧ j ∈ g.dominatedBy k ∧ g.node? j = some node ∧
    t.Satisfied parent node.expr

variable {c : MatchContext} {child path parent : Pattern} {e : Expr} {s : Session} {t t' : Trail}

theorem covers_grows (h : t.Grows t') : ∀ {chain : List Expr}, c.Covers path parent t chain → c.Covers path parent t' chain
  | [], _ => trivial
  | _ :: _, hc => hc.imp (satisfied_grows h) (And.imp_right (covers_grows h))

theorem foundParent_grows (h : t.Grows t') : c.FoundParent parent e t → c.FoundParent parent e t' :=
  fun ⟨g, k, j, node, hg, hk, hj, hnode, hs⟩ => ⟨g, k, j, node, hg, hk, hj, hnode, satisfied_grows h hs⟩

/-! ## The walk along the path -/

theorem ensures_visitPath (hparent : parent.Numbered) (e : Expr) (s : Session) :
    Ensures (c.visitPath path parent e) s (fun reached s' => s.Grows s' ∧ (reached = true →
      ∀ chain, e.InputChain chain → c.Covers path parent s'.trail chain)) Fault.Foreseen := by
  have hgrows : ∀ q f, Keeps Session.Grows (c.visit q f) := fun q f => (c.visit_atomic q f).keeps.grows
  rw [visitPath, ensures_bind]
  refine (keeps_locate (R := Session.Grows) s).imp fun _ s₀ hs₀ => ?_
  refine Ensures.imp (.allM (R := Session.Grows) (P := fun input s => ∀ chain, input.1.InputChain chain →
    c.Covers path parent s.trail (input.1 :: chain)) ?_ _ ?_) ?_
  · exact fun _ _ _ h hc chain hchain => covers_grows h.trail (hc chain hchain)
  · rintro ⟨input, hinput⟩ _ s₁ _
    refine ensures_bind.2 (ensures_setMemoize.2 (ensures_bind.2 ?_))
    have hsatisfied := ensures_satisfied (c := c) (e := input) (s := { s₁ with memoize := true }) hparent.not_usesWithin
      (hparent.given parent .refl) rfl
    refine ((hgrows parent input _).and hsatisfied).imp ?_
    rintro matched s₂ ⟨hs₂, hfound⟩
    have hs₁₂ : s₁.Grows s₂ := ⟨hs₂.trail, hs₂.fresh⟩
    cases matched with
    | true => exact ensures_pure.2 ⟨hs₁₂, fun _ _ _ => .inl (hfound rfl)⟩
    | false =>
      refine ensures_bind.2 (ensures_setMemoize.2 (ensures_bind.2 ?_))
      refine ((hgrows path input _).and (ensures_run _ _)).imp ?_
      rintro matched s₃ ⟨hs₃, hrun⟩
      have hs₁₃ : s₁.Grows s₃ := hs₁₂.trans ⟨hs₃.trail, hs₃.fresh⟩
      cases matched with
      | false => exact ensures_pure.2 ⟨hs₁₃, fun ht => absurd ht Bool.false_ne_true⟩
      | true =>
        refine (ensures_visitPath hparent input s₃).imp ?_
        rintro reached s₄ ⟨hs₄, hcovers⟩
        refine ⟨hs₁₃.trans hs₄, fun ht chain hchain => .inr ⟨⟨_, s₃, rfl, hrun⟩, hcovers ht chain hchain⟩⟩
  · rintro reached s' ⟨hs', hall⟩
    refine ⟨hs₀.trans hs', fun ht chain hchain => ?_⟩
    cases chain with
    | nil => trivial
    | cons input chain =>
      obtain ⟨hinput, hrest⟩ := List.isChain_cons_cons.1 hchain
      exact hall ht ⟨input, hinput⟩ (List.mem_attach _ _) chain hrest
termination_by e.treeSize
decreasing_by exact Expr.treeSize_lt_of_mem_dataInputs hinput

/-! ## The search for the parent -/

theorem ensures_dominatesParent (hparent : parent.Numbered) (hs : s.memoize = true) :
    Ensures (c.dominatesParent parent e) s (fun found s' => s.Grows s' ∧ (found = true →
      c.FoundParent parent e s'.trail)) Fault.Foreseen := by
  rw [dominatesParent, locate]
  cases hgraph : c.graph with
  | none => trivial
  | some g =>
    dsimp only
    cases hk : g.position? e with
    | none => trivial
    | some k =>
      dsimp only
      rw [pure_bind]
      refine Ensures.imp (.anyM (R := Session.Extends) (P := fun j s => ∃ node, g.node? j = some node ∧
        s.trail.Satisfied parent node.expr) _ fun j _ s₁ hs₁ => ?_) ?_
      · split
        · rename_i node hnode
          have hsatisfied := ensures_satisfied (c := c) (e := node.expr) hparent.not_usesWithin
            (hparent.given parent .refl) (hs₁.memoize.trans hs)
          exact ((c.visit_atomic parent node.expr s₁).and hsatisfied).imp fun _ _ h =>
            ⟨h.1.1, fun ht => ⟨node, hnode, h.2 ht⟩⟩
        · exact ensures_pure.2 ⟨.refl s₁, fun ht => absurd ht Bool.false_ne_true⟩
      · rintro found s' ⟨hs', hfound⟩
        refine ⟨hs'.toGrows, fun ht => ?_⟩
        obtain ⟨j, hj, node, hnode, hsatisfied⟩ := hfound ht
        exact ⟨g, k, j, node, hgraph, hk, hj, hnode, hsatisfied⟩

/-! ## The whole match -/

/-- What the walk has found stays found during the search. -/
theorem ensures_walkDominator (hparent : parent.Numbered) (s : Session) :
    Ensures (c.walkDominator child path parent e) s (fun matched s' => s.Grows s' ∧ (matched = true →
      c.FoundParent parent e s'.trail ∧ ∀ chain, e.InputChain chain → c.Covers path parent s'.trail chain))
      Fault.Foreseen := by
  rw [walkDominator, ensures_bind]
  refine ((c.visit_atomic child e).keeps.grows s).imp fun matched s₁ hs₁ => ?_
  cases matched with
  | false => exact ensures_pure.2 ⟨hs₁, fun ht => absurd ht Bool.false_ne_true⟩
  | true =>
    refine ensures_bind.2 ((ensures_visitPath hparent e s₁).imp fun reached s₂ ⟨hs₂, hcovers⟩ => ?_)
    have hs₂' : s.Grows { s₂ with memoize := true } := hs₁.trans ⟨hs₂.trail, hs₂.fresh⟩
    refine ensures_bind.2 (ensures_setMemoize.2 ?_)
    cases reached with
    | false => exact ensures_pure.2 ⟨hs₂', fun ht => absurd ht Bool.false_ne_true⟩
    | true =>
      refine (ensures_dominatesParent hparent rfl).imp fun found s₃ ⟨hs₃, hfound⟩ => ⟨hs₂'.trans hs₃, fun ht => ?_⟩
      exact ⟨hfound ht, fun chain hchain => covers_grows hs₃.trail (hcovers rfl chain hchain)⟩

theorem ensures_dominator {i : PatternId} (hparent : parent.Numbered) (hfree : s.trail.get? i = none) :
    Ensures (c.visit (.dominator i child path parent) e) s (fun matched s' => matched = true →
      c.FoundParent parent e s'.trail ∧ ∀ chain, e.InputChain chain → c.Covers path parent s'.trail chain)
      Fault.Foreseen := by
  rw [visit_dominator]
  refine .attempt (fun bound _ hbound => ?_) fun _ => ?_
  · rw [Pattern.id, hfree] at hbound
    cases hbound
  · rw [restoringMemoize]
    simp only [ensures_bind]
    refine (ensures_walkDominator hparent s).imp ?_
    rintro matched s' ⟨hs', hfound⟩
    refine ⟨hs'.trail, ?_⟩
    rintro rfl
    obtain ⟨hparent, hcovers⟩ := hfound rfl
    have hbind := (Session.extends_bind { s' with memoize := s.memoize } (.dominator i child path parent) e).trail
    exact ⟨foundParent_grows hbind hparent, fun chain hchain => covers_grows hbind (hcovers chain hchain)⟩

/-- **What a dominator pattern asks for is there when a match of it ends.** -/
theorem found_of_run_dominator {m m' : Matcher} {registry : Registry} {i : PatternId} (hparent : parent.Numbered)
    (h : m.run registry (.dominator i child path parent) e = (.ok true, m')) :
    ((m.prepareGraph e).context registry).FoundParent parent e m'.trail ∧
      ∀ chain, e.InputChain chain → ((m.prepareGraph e).context registry).Covers path parent m'.trail chain := by
  obtain ⟨s', hrun, htrail⟩ := visit_of_run h
  rw [if_pos (by rw [Pattern.containsDominator])] at hrun
  rw [htrail]
  exact (ensures_dominator hparent rfl).of_run hrun rfl

end MatchContext
end Dataflow
