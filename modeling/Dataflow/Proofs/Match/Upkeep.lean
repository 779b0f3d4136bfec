import Dataflow.Proofs.Match.Rollback
/-!
# What a match upholds of its bindings

An `Upkeep` says what has to hold of a pattern and of what it is bound to, and what follows for the trail.  A step
upholds it for some patterns, which may share parts, if it binds nothing else that was there before (`Upholds`); from a
session in which nothing speaks against it (`Ready`), what one step upholds the next one can go on with.

Re-association makes patterns with identities from the supply.  Nothing is bound to these when they are tried, each from
the trail that there was, so one that matches is bound to the expression itself (`searches_reassociations`).
-/
namespace Dataflow

open MatchM Pattern

/-- What has to hold of a pattern and of what it is bound to, which stays while the trail grows, and what holds of the
trail if all that is bound is as it has to be. -/
structure Upkeep where
  entry : Trail → Pattern → Expr → Prop
  whole : Trail → Prop
  entry_grows : ∀ {t t' : Trail} {p : Pattern} {e : Expr}, t.Grows t' → entry t p e → entry t' p e
  whole_commit : ∀ {t : Trail} {p : Pattern} {e : Expr}, whole t → t.get? p.id = none → entry (t.commit p e) p e →
    whole (t.commit p e)

namespace Upkeep

variable (U : Upkeep)

def Sound (t : Trail) (p : Pattern) : Prop := ∀ e, t.get? p.id = some e → U.entry t p e

/-- The patterns have identities of their own, of which the supply has none, and all that they are bound to is as it has
to be. -/
structure Ready (parts : Pattern → Prop) (s : Session) : Prop where
  memoize : s.memoize = true
  supplied : s.Supplied
  whole : U.whole s.trail
  sound : ∀ d, parts d → U.Sound s.trail d
  below : ∀ d k, parts d → d.id = .derived k → k < s.fresh
  coherent : ∀ d d', parts d → parts d' → d.id = d'.id → d = d'

/-- Of what there was before, or is still to be made, only the patterns are newly bound, and that as it has to be. -/
structure Upholds (parts : Pattern → Prop) (s s' : Session) : Prop extends s.Extends s' where
  whole : U.whole s.trail → U.whole s'.trail
  bound : ∀ i, (∀ k, i = .derived k → k < s.fresh ∨ s'.fresh ≤ k) →
    s'.trail.get? i = s.trail.get? i ∨ ∃ q e, parts q ∧ q.id = i ∧ s'.trail.get? i = some e ∧ U.entry s'.trail q e

/-- A visit of a pattern upholds what has to hold.  If it succeeds, the pattern is a negation or bound to the node, and
to the expression itself if it was not bound before. -/
def Visits (p : Pattern) (e : Expr) (visit : MatchM Bool) : Prop :=
  ∀ s, U.Ready p.Reaches s → Ensures visit s (fun matched s' => U.Upholds p.Reaches s s' ∧
    (matched = true → p.isNegation = false → ∃ bound, s'.trail.get? p.id = some bound ∧ bound.id = e.id ∧
      U.entry s'.trail p bound ∧ (s.trail.get? p.id = none → bound = e))) fun _ => True

variable {U} {parts parts' : Pattern → Prop} {p q : Pattern} {e : Expr} {s s₁ s' s'' : Session}

theorem Ready.mono (h : U.Ready parts s) (hparts : ∀ d, parts' d → parts d) : U.Ready parts' s :=
  ⟨h.memoize, h.supplied, h.whole, fun d hd => h.sound d (hparts d hd), fun d k hd => h.below d k (hparts d hd),
    fun d d' hd hd' => h.coherent d d' (hparts d hd) (hparts d' hd')⟩

/-- A match begins with nothing bound. -/
theorem Ready.initial (hp : p.Numbered) (hwhole : U.whole .empty) : U.Ready p.Reaches .initial := by
  have hempty : ∀ i, Session.initial.trail.get? i = none := fun _ => rfl
  refine ⟨rfl, fun k _ => hempty _, hwhole, fun d _ e he => ?_, fun d k hd hid => ?_, hp.coherent⟩
  · rw [hempty] at he
    cases he
  · exact absurd ⟨d, hd, hid⟩ (hp.not_uses_derived k)

theorem Upholds.refl (s : Session) : U.Upholds parts s s := ⟨.refl s, id, fun _ _ => .inl rfl⟩

theorem Upholds.trans (h : U.Upholds parts s s') (h' : U.Upholds parts s' s'') : U.Upholds parts s s'' := by
  refine ⟨h.toExtends.trans h'.toExtends, h'.whole ∘ h.whole, fun i hi => ?_⟩
  have hfresh := h.fresh
  have hfresh' := h'.fresh
  rcases h'.bound i fun k hk => by have := hi k hk; omega with hsame | hnew
  · rw [hsame]
    refine (h.bound i fun k hk => by have := hi k hk; omega).imp_right ?_
    rintro ⟨q, e, hq, hid, hbound, hentry⟩
    exact ⟨q, e, hq, hid, hbound, U.entry_grows h'.trail hentry⟩
  · exact .inr hnew

instance : Std.Refl (U.Upholds parts) := ⟨Upholds.refl⟩

instance : IsTrans Session (U.Upholds parts) := ⟨fun _ _ _ => Upholds.trans⟩

theorem Upholds.mono (h : U.Upholds parts' s s') (hparts : ∀ d, parts' d → parts d) : U.Upholds parts s s' :=
  ⟨h.toExtends, h.whole, fun i hi => (h.bound i hi).imp_right fun ⟨q, e, hq, hnew⟩ => ⟨q, e, hparts q hq, hnew⟩⟩

theorem Upholds.withTrail (h : U.Upholds parts s s') : U.Upholds parts s (s'.withTrail s.trail) :=
  ⟨h.toExtends.withTrail, id, fun _ _ => .inl rfl⟩

theorem upholds_of_later (h : s.Later s') : U.Upholds parts s s' :=
  ⟨⟨⟨h.trail ▸ .refl s.trail, h.fresh⟩, h.memoize⟩, fun hs => h.trail ▸ hs, fun _ _ => .inl (by rw [h.trail])⟩

/-- What is upheld, later steps can go on with. -/
theorem Ready.step (h : U.Ready parts s) (hs' : U.Upholds parts s s') : U.Ready parts s' := by
  have hfresh := hs'.fresh
  refine ⟨hs'.memoize.trans h.memoize, fun k hk => ?_, hs'.whole h.whole, fun d hd e he => ?_,
    fun d k hd hk => Nat.lt_of_lt_of_le (h.below d k hd hk) hfresh, h.coherent⟩
  · rcases hs'.bound (.derived k) (by rintro _ ⟨⟩; exact .inr hk) with hsame | ⟨q, -, hq, hid, -⟩
    · exact hsame.trans (h.supplied k (Nat.le_trans hfresh hk))
    · have := h.below q k hq hid
      omega
  · rcases hs'.bound d.id fun k hk => .inl (h.below d k hd hk) with hsame | ⟨q, f, hq, hid, hbound, hentry⟩
    · exact U.entry_grows hs'.trail (h.sound d hd e (hsame.symm.trans he))
    · obtain rfl := h.coherent q d hq hd hid
      obtain rfl := Option.some.inj (hbound.symm.trans he)
      exact hentry

instance : Searchable (U.Ready parts) (U.Upholds parts) where
  ready _ _ hs hs' := hs.step hs'
  grows _ _ hs' := hs'.trail
  withTrail _ _ hs' := hs'.withTrail

theorem Upholds.commit (hp : parts p) (hnone : s.trail.get? p.id = none) (hentry : U.entry (s.trail.commit p e) p e) :
    U.Upholds parts s { s with trail := s.trail.commit p e } := by
  refine ⟨⟨⟨s.trail.grows_commit p e, Nat.le_refl _⟩, rfl⟩, fun ht => U.whole_commit ht hnone hentry, fun i _ => ?_⟩
  rw [Trail.get?_commit]
  split
  · rename_i hid
    subst hid
    exact .inr ⟨p, e, hp, rfl, by rw [hnone, Option.getD_none], hentry⟩
  · exact .inl rfl

/-! ## Visits -/

/-- The rule of a pattern finds what has to hold of the pattern once that is bound. -/
theorem Visits.attempt {rule : MatchM Bool} (hrule : ∀ s, U.Ready p.Within s → s.trail.get? p.id = none →
    Ensures rule s (fun matched s' => U.Upholds p.Within s s' ∧
      (matched = true → p.isNegation = false → U.entry (s'.trail.commit p e) p e)) fun _ => True) :
    U.Visits p e (MatchM.attempt p e rule) := by
  intro s hs
  have hwithin : ∀ d, p.Within d → p.Reaches d := fun _ => Within.reaches
  refine .attempt (fun bound _ hbound => ⟨.refl s, fun hid _ => ?_⟩) fun hfree =>
    (hrule s (hs.mono hwithin) (hfree hs.memoize)).imp ?_
  · refine ⟨bound, hbound, by simpa using hid, hs.sound p .refl bound hbound, fun hnone => ?_⟩
    rw [hbound] at hnone
    cases hnone
  · rintro matched s' ⟨hs', hentry⟩
    have hupholds := hs'.mono hwithin
    cases matched with
    | false => exact ⟨hs'.trail, hupholds.withTrail, fun ht => absurd ht Bool.false_ne_true⟩
    | true =>
      refine ⟨hs'.trail, ?_⟩
      rw [if_pos rfl, Session.bind]
      split
      · exact ⟨hupholds, fun _ hneg => absurd hneg (by simp [*])⟩
      · -- the rule has not bound the pattern itself, which is not part of itself
        have hnone : s'.trail.get? p.id = none := by
          rcases hs'.bound p.id fun k hk => .inl (hs.below p k .refl hk) with hsame | ⟨q, -, hq, hid, -⟩
          · exact hsame.trans (hfree hs.memoize)
          · exact absurd (hs.coherent q p (hwithin q hq) .refl hid ▸ hq) p.not_within_self
        have hentry' := hentry rfl (by simpa using ‹¬p.isNegation = true›)
        refine ⟨hupholds.trans (.commit .refl hnone hentry'), fun _ _ => ⟨e, ?_, rfl, hentry', fun _ => rfl⟩⟩
        rw [Trail.get?_commit, if_pos rfl, hnone, Option.getD_none]

theorem Visits.attempt_of_searches {rule : MatchM Bool} {found : Trail → Prop}
    (hrule : Searches (U.Ready p.Within) (U.Upholds p.Within) rule found)
    (hentry : ∀ t, found t → p.isNegation = false → U.entry (t.commit p e) p e) :
    U.Visits p e (MatchM.attempt p e rule) :=
  .attempt fun s hs _ => (hrule s hs).imp fun _ s' hs' => ⟨hs'.1, fun ht => hentry s'.trail (hs'.2 ht)⟩

/-- What the visit of a part of a pattern finds. -/
theorem Visits.searches {visit : MatchM Bool} {found : Trail → Prop} (h : U.Visits q e visit) (hq : q ∈ p.children)
    (hnegation : q.isNegation = true → ∀ t, found t)
    (hfound : ∀ t bound, bound.id = e.id → U.entry t q bound → found t) :
    Searches (U.Ready p.Within) (U.Upholds p.Within) visit found := by
  have hpart : ∀ d, q.Reaches d → p.Within d := fun d hd => ⟨q, hq, hd⟩
  refine fun s hs => (h s (hs.mono hpart)).imp fun _ s' ⟨hs', hbound⟩ => ⟨hs'.mono hpart, fun ht => ?_⟩
  cases hneg : q.isNegation with
  | true => exact hnegation hneg s'.trail
  | false =>
    obtain ⟨bound, -, hid, hentry, -⟩ := hbound ht hneg
    exact hfound s'.trail bound hid hentry

/-! ## Re-association -/

variable {c : MatchContext}

/-- What re-association makes has identities that nothing is bound to, and is made of what is ready besides. -/
theorem Ready.reassociated (hs : U.Ready p.Within s) (hlater : { s with fresh := s.fresh + reassociationIds }.Later s₁)
    (hq : q ∈ reassociations s.fresh p e) : U.Ready q.Reaches s₁ := by
  obtain ⟨k, f, a, b, g, x, y, hnk, hk, rfl, hreach⟩ := reaches_of_mem_reassociations hq
  have htrail : s₁.trail = s.trail := hlater.trail
  have hfresh : s.fresh + reassociationIds ≤ s₁.fresh := hlater.fresh
  have hfree : ∀ j, s.fresh ≤ j → ∀ d, d.id = .derived j → U.Sound s.trail d := fun j hj d hd g hg => by
    rw [hd, hs.supplied j hj] at hg
    cases hg
  refine ⟨hlater.memoize.trans hs.memoize, fun j hj => ?_, htrail ▸ hs.whole, fun d hd => ?_, fun d j hd hid => ?_,
    fun d d' hd hd' hid => ?_⟩
  · rw [htrail, hs.supplied j (by omega)]
  · rw [htrail]
    rcases hreach d hd with rfl | rfl | hd
    · exact hfree (k + 1) (by omega) _ rfl
    · exact hfree k hnk _ rfl
    · exact hs.sound d hd
  · rcases hreach d hd with rfl | rfl | hd
    · cases hid
      omega
    · cases hid
      omega
    · have := hs.below d j hd hid
      omega
  · have hnew : ∀ j, s.fresh ≤ j → ∀ d, p.Within d → d.id ≠ .derived j := fun j hj d hd hid => by
      have := hs.below d j hd hid
      omega
    rcases hreach d hd with rfl | rfl | hd <;> rcases hreach d' hd' with rfl | rfl | hd'
    · rfl
    · cases hid
    · exact absurd hid.symm (hnew (k + 1) (by omega) d' hd')
    · cases hid
    · rfl
    · exact absurd hid.symm (hnew k hnk d' hd')
    · exact absurd hid (hnew (k + 1) (by omega) d hd)
    · exact absurd hid (hnew k hnk d hd)
    · exact hs.coherent d d' hd hd' hid

/-- The new identities of a re-association mean nothing to what there was before. -/
theorem Upholds.reassociated (hlater : { s with fresh := s.fresh + reassociationIds }.Later s₁)
    (hq : q ∈ reassociations s.fresh p e) (h : U.Upholds q.Reaches s₁ s') : U.Upholds p.Within s s' := by
  obtain ⟨k, f, a, b, g, x, y, hnk, hk, rfl, hreach⟩ := reaches_of_mem_reassociations hq
  have htrail : s₁.trail = s.trail := hlater.trail
  have hfresh : s.fresh + reassociationIds ≤ s₁.fresh := hlater.fresh
  have hfresh' := h.fresh
  refine ⟨⟨⟨htrail ▸ h.trail, by omega⟩, h.memoize.trans hlater.memoize⟩, htrail ▸ h.whole, fun i hi => ?_⟩
  rcases h.bound i fun j hj => by have := hi j hj; omega with hsame | ⟨r, d, hr, hid, hnew⟩
  · exact .inl (by rw [hsame, htrail])
  · rcases hreach r hr with rfl | rfl | hr
    · have := hi (k + 1) hid.symm
      omega
    · have := hi k hid.symm
      omega
    · exact .inr ⟨r, d, hr, hid, hnew⟩

/-- **Of the re-associations of a pattern, one that matches is bound to the expression.** -/
theorem searches_reassociations {found : Trail → Prop}
    (hagain : ∀ n, ∀ q ∈ reassociations n p e, U.Visits q e (c.visit q e))
    (hfound : ∀ n, ∀ q ∈ reassociations n p e, ∀ t, U.entry t q e → found t) :
    Searches (U.Ready p.Within) (U.Upholds p.Within) (c.visitReassociated p e) found := by
  intro s hs
  rw [MatchContext.visitReassociated, ensures_bind, ensures_takeFresh]
  have hcandidate : ∀ q ∈ (reassociations s.fresh p e).attach, ∀ s₁,
      { s with fresh := s.fresh + reassociationIds }.Later s₁ → Ensures (c.visit q.1 e) s₁
        (fun matched s' => matched = true → U.Upholds p.Within s s' ∧ found s'.trail) fun _ => True := by
    rintro ⟨q, hq⟩ - s₁ hs₁
    refine (hagain _ q hq s₁ (hs.reassociated hs₁ hq)).imp fun _ s' ⟨hs', hbound⟩ ht => ⟨hs'.reassociated hs₁ hq, ?_⟩
    obtain ⟨k, f, a, b, -, -, -, hnk, -, rfl, -⟩ := reaches_of_mem_reassociations hq
    have hfree : s₁.trail.get? (.derived (k + 1)) = none := hs₁.trail ▸ hs.supplied _ (by omega)
    obtain ⟨bound, -, -, hentry, hself⟩ := hbound ht rfl
    exact hfound _ _ hq _ (hself hfree ▸ hentry)
  have hlater : s.Later { s with fresh := s.fresh + reassociationIds } := ⟨rfl, rfl, Nat.le_add_right ..⟩
  refine (Atomic.ensures_anyM _ (.refl _) (fun q _ => c.visit_atomic q.1 e) hcandidate).imp ?_
  rintro (_ | _) s' hs'
  · exact ⟨upholds_of_later (hlater.trans hs'), fun ht => absurd ht Bool.false_ne_true⟩
  · exact ⟨hs'.1, fun _ => hs'.2⟩

end Upkeep
end Dataflow
