import Dataflow.Proofs.Match.Rollback
/-!
# What a visit can bind

Whether bound patterns are held to their nodes or not, a visit binds only what its pattern is made of and patterns that
it makes itself (`keeps_bindsOnly`).  So the rule of a pattern does not bind the pattern, and after a visit that
succeeds a pattern from outside, other than a negation, is bound to the node (`ensures_satisfied`); and no identity
that the supply still has is bound (`BindsOnly.supplied`).
-/
namespace Dataflow

/-- A part of a pattern is bound to a node, or is a negation, which binds nothing. -/
def Trail.Satisfied (t : Trail) (p : Pattern) (e : Expr) : Prop :=
  p.isNegation = true ∨ ∃ bound, t.get? p.id = some bound ∧ bound.id = e.id

namespace Session

/-- What a step binds that was not bound has one of some identities, or one that was taken from the supply. -/
structure BindsOnly (ids : PatternId → Prop) (s s' : Session) : Prop extends s.Grows s' where
  unbound : ∀ i, ¬ids i → (∀ k, i = .derived k → k < s.fresh ∨ s'.fresh ≤ k) → s.trail.get? i = none →
    s'.trail.get? i = none

namespace BindsOnly

variable {ids ids' : PatternId → Prop} {s s' s'' : Session}

theorem refl (s : Session) : s.BindsOnly ids s := ⟨.refl s, fun _ _ _ h => h⟩

theorem trans (h : s.BindsOnly ids s') (h' : s'.BindsOnly ids s'') : s.BindsOnly ids s'' := by
  refine ⟨h.toGrows.trans h'.toGrows, fun i hi hk hs => h'.unbound i hi ?_ (h.unbound i hi ?_ hs)⟩
  all_goals
    intro k hik
    have := hk k hik
    have := h.fresh
    have := h'.fresh
    omega

instance : Std.Refl (BindsOnly ids) := ⟨refl⟩

instance : IsTrans Session (BindsOnly ids) := ⟨fun _ _ _ => trans⟩

instance : MatchM.Searchable (fun _ => True) (BindsOnly ids) where
  ready _ _ _ _ := trivial
  grows _ _ hs' := hs'.trail
  withTrail _ _ hs' := ⟨⟨.refl _, hs'.fresh⟩, fun _ _ _ hs => hs⟩

theorem mono (h : s.BindsOnly ids s') (hids : ∀ i, ids i → ids' i) : s.BindsOnly ids' s' :=
  ⟨h.toGrows, fun i hi => h.unbound i fun hi' => hi (hids i hi')⟩

theorem bind (s : Session) {p : Pattern} (hp : ids p.id) (e : Expr) : s.BindsOnly ids (s.bind p e) := by
  rw [Session.bind]
  split
  · exact .refl s
  · refine ⟨⟨s.trail.grows_commit p e, Nat.le_refl _⟩, fun i hi _ hs => ?_⟩
    rw [Trail.get?_commit, if_neg (fun hid : i = p.id => hi (hid ▸ hp)), hs]

theorem setMemoize (h : s.BindsOnly ids s') (memoize : Bool) : s.BindsOnly ids { s' with memoize } :=
  ⟨⟨h.trail, h.fresh⟩, h.unbound⟩

/-- Nothing is bound that the supply still has. -/
theorem supplied (h : s.BindsOnly ids s') (hids : ∀ k, ids (.derived k) → k < s'.fresh) (hs : s.Supplied) :
    s'.Supplied := by
  refine fun k hk => h.unbound _ (fun hik => ?_) ?_ (hs k (Nat.le_trans h.fresh hk))
  · exact absurd (hids k hik) (Nat.not_lt_of_le hk)
  · rintro _ ⟨⟩
    exact .inr hk

end BindsOnly
end Session

namespace MatchContext

open MatchM

variable {c : MatchContext} {t t' : Trail} {p : Pattern} {e : Expr} {s : Session}

theorem satisfied_grows (h : t.Grows t') (hp : t.Satisfied p e) : t'.Satisfied p e :=
  hp.imp_right fun ⟨bound, hbound, hid⟩ => ⟨bound, h.get? hbound, hid⟩

/-- The rule of a pattern binds only what the pattern is made of. -/
def HasFootprint (c : MatchContext) (p : Pattern) (e : Expr) : Prop :=
  ∃ rule, c.visit p e = attempt p e rule ∧ Keeps (Session.BindsOnly p.UsesWithin) rule

theorem HasFootprint.keeps (h : c.HasFootprint p e) : Keeps (Session.BindsOnly p.Uses) (c.visit p e) := by
  obtain ⟨rule, hvisit, hrule⟩ := h
  have hwithin : Relates (Session.BindsOnly p.Uses) Fault.Foreseen rule :=
    Relates.imp hrule fun _ _ hs' => hs'.mono fun i hi => Pattern.uses_iff.2 (.inr hi)
  rw [hvisit]
  exact hwithin.attempt fun s => .bind s (Pattern.uses_iff.2 (.inl rfl)) e

/-- The identities that re-association takes from the supply are new. -/
theorem keeps_visitReassociated
    (h : ∀ n, ∀ q ∈ Pattern.reassociations n p e, Keeps (Session.BindsOnly q.Uses) (c.visit q e)) :
    Keeps (Session.BindsOnly p.UsesWithin) (c.visitReassociated p e) := fun s => by
  have hsearch : Keeps (Session.BindsOnly fun i => p.UsesWithin i ∨
        ∃ j, i = .derived j ∧ s.fresh ≤ j ∧ j < s.fresh + Pattern.reassociationIds)
      ((Pattern.reassociations s.fresh p e).attach.anyM fun ⟨q, _⟩ => c.visit q e) :=
    .anyM fun q _ s' => (h s.fresh q.1 q.2 s').imp fun _ _ hs' => hs'.mono (Pattern.uses_of_mem_reassociations q.2)
  rw [visitReassociated, ensures_bind, ensures_takeFresh]
  refine (hsearch _).imp fun _ s' hs' => ?_
  have hfresh : s.fresh + Pattern.reassociationIds ≤ s'.fresh := hs'.fresh
  refine ⟨⟨hs'.trail, Nat.le_trans (Nat.le_add_right ..) hfresh⟩, fun i hi hk => hs'.unbound i ?_ fun k hik => ?_⟩
  · rintro (hi' | ⟨j, rfl, hj, hj'⟩)
    · exact hi hi'
    · have := hk j rfl
      omega
  · exact (hk k hik).imp_left fun hlt => Nat.lt_of_lt_of_le hlt (Nat.le_add_right ..)

theorem keeps_restoringMemoize_walkDominator {ids : PatternId → Prop} {child path parent : Pattern}
    (h : ∀ q ∈ [child, path, parent], ∀ f, Keeps (Session.BindsOnly ids) (c.visit q f)) :
    Keeps (Session.BindsOnly ids) (restoringMemoize (c.walkDominator child path parent e)) := fun s => by
  have hmemoize : ∀ memoize, Keeps (Session.BindsOnly ids) (setMemoize memoize) := fun memoize s =>
    ensures_setMemoize.2 ((Session.BindsOnly.refl s).setMemoize memoize)
  have hwalk := (Keeps.congruence c).walkDominator (σ := id) (fun _ => keeps_locate) hmemoize (h child (by simp))
    (h path (by simp)) (h parent (by simp)) e
  rw [restoringMemoize]
  simp only [ensures_bind]
  exact (hwalk s).imp fun _ s' hs' => hs'.setMemoize s.memoize

theorem hasFootprint (c : MatchContext) (p : Pattern) (e : Expr) : c.HasFootprint p e := by
  induction p, e using c.visit_induction with
  | step p e parts again =>
    have hpart : ∀ q ∈ p.children, ∀ f, Keeps (Session.BindsOnly p.UsesWithin) (c.visit q f) := fun q hq f s =>
      ((parts q hq f).keeps s).imp fun _ _ hs' => hs'.mono fun i hi => ⟨q, hq, hi⟩
    have hagain := keeps_visitReassociated fun n q hq => (again n q hq).keeps
    refine ⟨_, visit_eq_visitBy p e, keeps_ruleBy hpart hagain fun i child path parent hp => ?_⟩
    subst hp
    exact keeps_restoringMemoize_walkDominator fun q hq => hpart q hq

/-- **A visit binds what its pattern is made of.** -/
theorem keeps_bindsOnly (c : MatchContext) (p : Pattern) (e : Expr) :
    Keeps (Session.BindsOnly p.Uses) (c.visit p e) := (c.hasFootprint p e).keeps

/-- While bound patterns are held to their nodes, a pattern that was made from outside and is not made of itself is
bound to the node after a visit that succeeds, unless it is a negation. -/
theorem ensures_satisfied (hp : ¬p.UsesWithin p.id) (hgiven : ∃ n, p.id = .given n) (hs : s.memoize = true) :
    Ensures (c.visit p e) s (fun matched s' => matched = true → s'.trail.Satisfied p e) Fault.Foreseen := by
  obtain ⟨rule, hvisit, hrule⟩ := c.hasFootprint p e
  rw [hvisit]
  refine .attempt (fun bound _ hbound hid => .inr ⟨bound, hbound, by simpa using hid⟩) fun hfree =>
    (hrule s).imp fun matched s' hs' => ⟨hs'.trail, ?_⟩
  rintro rfl
  rw [if_pos rfl, Session.bind]
  split
  · exact .inl ‹_›
  · obtain ⟨n, hn⟩ := hgiven
    have hnone : s'.trail.get? p.id = none := hs'.unbound _ hp (fun k hk => by rw [hn] at hk; cases hk) (hfree hs)
    exact .inr ⟨e, by rw [Trail.get?_commit, if_pos rfl, hnone, Option.getD_none], rfl⟩

end MatchContext
end Dataflow
