import Dataflow.Proofs.Match.Demands
import Dataflow.Proofs.Match.Footprint
/-!
# What a visit depends on

A visit looks up and binds what its pattern is made of, besides patterns that it makes itself.  So it answers the same
from two sessions that have bound the same of that, whatever else they have bound and however far their supplies went,
and they agree when it is over (`Session.AgreesOn.agree`, `Succeeds.frame`).  For this the two visits are run side by
side (`simulates_visit_aligned`).  Everything else stays as it was (`Succeeds.get?_eq`).

A call of a commutative operator has its callee bound before it chooses an order of its arguments, and it goes on from
there as if the callee had been bound when it began (`Succeeds.exists_leadingCallee`).
-/
namespace Dataflow

open MatchM

/-- Two sessions that have bound the same of some identities. -/
structure Session.AgreesOn (uses : PatternId → Prop) (s t : Session) : Prop where
  memoize : t.memoize = s.memoize
  supplied : s.Supplied
  supplied' : t.Supplied
  same : ∀ i, uses i → t.trail.get? i = s.trail.get? i

/-- The second session has bound what the first one has, of some identities, with those from `start` on being `d`
further on. -/
structure Session.Aligned (start d : Nat) (uses : PatternId → Prop) (s t : Session) : Prop where
  start_le : start ≤ s.fresh
  fresh : t.fresh = s.fresh + d
  memoize : t.memoize = s.memoize
  same : ∀ i, uses i → t.trail.get? (i.shift start d) = s.trail.get? i

/-- What was made from outside keeps its identity. -/
theorem Pattern.Numbered.rename_shift {p : Pattern} (h : p.Numbered) (start d : Nat) : p.rename (.shift start d) = p :=
  rename_eq_self fun i hi => by
    obtain ⟨q, hq, rfl⟩ := hi
    obtain ⟨n, hn⟩ := h.given q hq
    rw [hn]
    rfl

theorem Pattern.Numbered.given_of_uses {p : Pattern} (h : p.Numbered) {i : PatternId} (hi : p.Uses i) :
    ∃ n, i = .given n := by
  obtain ⟨q, hq, rfl⟩ := hi
  exact h.given q hq

namespace Session

variable {uses : PatternId → Prop} {start d : Nat} {s s' t t' u : Session}

instance : Lockstep start d (Aligned start d uses) where
  start_le h := h.start_le
  fresh h := h.fresh
  takeFresh n h := ⟨Nat.le_trans h.start_le (Nat.le_add_right ..), by simp only [h.fresh]; omega, h.memoize, h.same⟩
  withTrail h h' := ⟨h'.start_le, h'.fresh, h'.memoize, h.same⟩

theorem get?_bind_of_ne {p : Pattern} {i : PatternId} (h : i ≠ p.id) (e : Expr) :
    (s.bind p e).trail.get? i = s.trail.get? i := by
  rw [Session.bind]
  split
  · rfl
  · rw [Trail.get?_commit, if_neg h]

theorem get?_bind_self {p : Pattern} (h : p.isNegation = false) (e : Expr) :
    (s.bind p e).trail.get? p.id = some ((s.trail.get? p.id).getD e) := by
  rw [Session.bind, if_neg (by simp [h]), Trail.get?_commit, if_pos rfl]

theorem Aligned.bind (h : s.Aligned start d uses t) (p : Pattern) (e : Expr) :
    (s.bind p e).Aligned start d uses (t.bind (p.rename (.shift start d)) e) := by
  rw [Session.bind, Session.bind, Pattern.isNegation_rename]
  split
  · exact h
  · refine ⟨h.start_le, h.fresh, h.memoize, fun i hi => ?_⟩
    rw [Trail.get?_commit, Trail.get?_commit, Pattern.id_rename, h.same i hi]
    simp only [PatternId.shift_inj]

namespace AgreesOn

theorem refl (hs : s.Supplied) : s.AgreesOn uses s := ⟨rfl, hs, hs, fun _ _ => rfl⟩

theorem symm (h : s.AgreesOn uses t) : t.AgreesOn uses s :=
  ⟨h.memoize.symm, h.supplied', h.supplied, fun i hi => (h.same i hi).symm⟩

theorem trans (h : s.AgreesOn uses t) (h' : t.AgreesOn uses u) : s.AgreesOn uses u :=
  ⟨h'.memoize.trans h.memoize, h.supplied, h'.supplied', fun i hi => (h'.same i hi).trans (h.same i hi)⟩

/-- A session still agrees after it bound something else. -/
theorem grow (h : s.AgreesOn uses t) (ht : t.Extends t') (hsupplied : t'.Supplied)
    (hsame : ∀ i, uses i → t'.trail.get? i = t.trail.get? i) : s.AgreesOn uses t' :=
  ⟨ht.memoize.trans h.memoize, h.supplied, hsupplied, fun i hi => (hsame i hi).trans (h.same i hi)⟩

/-- Nothing that a supply still has is bound, so only how far it went has to be made up for. -/
theorem aligned (h : s.AgreesOn uses t) (huses : ∀ i, uses i → ∃ n, i = .given n) (hle : s.fresh ≤ t.fresh) :
    s.Aligned s.fresh (t.fresh - s.fresh) (fun i => uses i ∨ ∃ k, i = .derived k ∧ s.fresh ≤ k) t := by
  refine ⟨Nat.le_refl _, by omega, h.memoize, fun i hi => ?_⟩
  rcases hi with hi | ⟨k, rfl, hk⟩
  · obtain ⟨n, rfl⟩ := huses i hi
    exact h.same _ hi
  · rw [PatternId.shift, if_neg (by omega), h.supplied k hk, h.supplied' _ (by omega)]

/-- **A step that depends on nothing but what is used answers the same from sessions that agree on it.** -/
theorem agree {m : MatchM Bool} (h : s.AgreesOn uses t) (huses : ∀ i, uses i → ∃ n, i = .given n)
    (hm : ∀ start d, Simulates (Aligned start d fun i => uses i ∨ ∃ k, i = .derived k ∧ start ≤ k) m m) :
    Agree (fun s' t' => ∀ i, uses i → t'.trail.get? i = s'.trail.get? i) (m.run s) (m.run t) := by
  have hgiven : ∀ {start d s t}, Aligned start d (fun i => uses i ∨ ∃ k, i = .derived k ∧ start ≤ k) s t →
      ∀ i, uses i → t.trail.get? i = s.trail.get? i := fun haligned i hi => by
    obtain ⟨n, rfl⟩ := huses i hi
    exact haligned.same _ (.inl hi)
  rcases Nat.le_total s.fresh t.fresh with hle | hle
  · have hagree := (hm _ _).agree s t (h.aligned huses hle)
    generalize m.run s = y, m.run t = z at hagree
    cases hagree with
    | ok haligned => exact .ok (hgiven haligned)
    | error => exact .error
  · have hagree := (hm _ _).agree t s (h.symm.aligned huses hle)
    generalize m.run t = z, m.run s = y at hagree
    cases hagree with
    | ok haligned => exact .ok fun i hi => (hgiven haligned i hi).symm
    | error => exact .error

end AgreesOn
end Session

namespace MatchContext

variable {c : MatchContext} {p : Pattern} {e : Expr} {uses : PatternId → Prop} {start d : Nat} {s s' t : Session}

/-- **A visit depends on nothing but what its pattern is made of.** -/
theorem simulates_visit_aligned (hsupply : ∀ k, start ≤ k → uses (.derived k)) (p : Pattern) (e : Expr)
    (hdominator : p.containsDominator = false) (hp : ∀ i, p.Uses i → uses i) :
    Simulates (Session.Aligned start d uses) (c.visit p e) (c.visit (p.rename (.shift start d)) e) := by
  induction p, e using c.visit_induction with
  | step p e parts again =>
    have hpart : ∀ q ∈ p.children, ∀ f, c.PassesOn e f → Simulates (Session.Aligned start d uses) (c.visit q f)
        (c.visit (q.rename (.shift start d)) f) := fun q hq f _ =>
      parts q hq f (Pattern.containsDominator_eq_false_of_mem_children hq hdominator) fun i hi =>
        hp i (Pattern.uses_iff.2 (.inr ⟨q, hq, hi⟩))
    have hagain : Simulates (Session.Aligned start d uses) (c.visitReassociated p (c.follow e))
        (c.visitReassociated (p.rename (.shift start d)) (c.follow e)) := .visitReassociated fun n hn q hq => by
      refine again n q hq (Pattern.containsDominator_eq_false_of_mem_reassociations hq hdominator) fun i hi => ?_
      rcases Pattern.uses_of_mem_reassociations hq i hi with hi | ⟨j, rfl, hj, -⟩
      · exact hp i (Pattern.uses_iff.2 (.inr hi))
      · exact hsupply j (Nat.le_trans hn hj)
    have hrule := (Simulates.congruence (Session.Aligned start d uses) c).ruleBy c rfl p e hpart hagain
      (fun _ _ _ _ => .heldBy) fun i child path parent h => by
        rw [h, Pattern.containsDominator] at hdominator
        cases hdominator
    rw [visit_eq_visitBy, visit_eq_visitBy]
    refine hrule.attempt (fun s t hst => ?_) fun s t hst => hst.bind p e
    rw [Pattern.id_rename, hst.memoize, hst.same _ (hp p.id (Pattern.uses_iff.2 (.inl rfl)))]

/-- The same for a pattern that was made from outside. -/
theorem simulates_visit_numbered (hp : p.Numbered) (hdominator : p.containsDominator = false)
    (huses : ∀ i, p.Uses i → uses i) (start d : Nat) :
    Simulates (Session.Aligned start d fun i => uses i ∨ ∃ k, i = .derived k ∧ start ≤ k) (c.visit p e)
      (c.visit p e) := by
  have hsimulates : Simulates (Session.Aligned start d fun i => uses i ∨ ∃ k, i = .derived k ∧ start ≤ k)
      (c.visit p e) (c.visit (p.rename (.shift start d)) e) :=
    simulates_visit_aligned (fun k hk => .inr ⟨k, rfl, hk⟩) p e hdominator fun i hi => .inl (huses i hi)
  rwa [hp.rename_shift] at hsimulates

/-- What a list of visits answers depends on nothing but what the patterns are made of. -/
theorem run_visitAll_eq {ps : List Pattern} {es : List Expr} (h : s.AgreesOn uses t)
    (huses : ∀ i, uses i → ∃ n, i = .given n)
    (hps : ∀ p ∈ ps, p.Numbered ∧ p.containsDominator = false ∧ ∀ i, p.Uses i → uses i) :
    ((c.visitAll ps es).run s).1 = ((c.visitAll ps es).run t).1 := by
  have hagree := h.agree (m := c.visitAll ps es) huses fun start d => by
    have hsame : ps.map (.rename (.shift start d)) = ps := by
      rw [List.map_congr_left fun p hp => (hps p hp).1.rename_shift start d, List.map_id']
    have hsimulates : Simulates (Session.Aligned start d fun i => uses i ∨ ∃ k, i = .derived k ∧ start ≤ k)
        (c.visitAll ps es) (c.visitAll (ps.map (.rename (.shift start d))) es) :=
      (Simulates.congruence _ c).visitAll fun p hp e _ => by
        rw [(hps p hp).1.rename_shift]
        exact simulates_visit_numbered (hps p hp).1 (hps p hp).2.1 (hps p hp).2.2 start d
    rwa [hsame] at hsimulates
  generalize (c.visitAll ps es).run s = y, (c.visitAll ps es).run t = z at hagree
  cases hagree <;> rfl

end MatchContext

/-! ## Visits that succeed -/

namespace MatchM.Succeeds

open MatchContext

variable {c : MatchContext} {p : Pattern} {e f : Expr} {s s' t : Session}

theorem bindsOnly (h : Succeeds (c.visit p e) s s') : s.BindsOnly p.Uses s' := (c.keeps_bindsOnly p e s).of_run h

theorem extended (h : Succeeds (c.visit p e) s s') : s.Extends s' := ((c.visit_atomic p e).keeps s).of_run h

theorem supplied (h : Succeeds (c.visit p e) s s') (hp : p.Numbered) (hs : s.Supplied) : s'.Supplied :=
  h.bindsOnly.supplied (fun k hk => absurd hk (hp.not_uses_derived k)) hs

/-- A visit leaves everything else as it was. -/
theorem get?_eq (h : Succeeds (c.visit p e) s s') {n : Nat} (hn : ¬p.Uses (.given n)) :
    s'.trail.get? (.given n) = s.trail.get? (.given n) := by
  cases hget : s.trail.get? (.given n) with
  | none => exact h.bindsOnly.unbound _ hn (fun k hk => by cases hk) hget
  | some f => exact h.extended.trail.get? hget

/-- **A visit that succeeds succeeds from every session that agrees on what the pattern is made of.** -/
theorem frame (h : Succeeds (c.visit p e) s s') (hp : p.Numbered) (hdominator : p.containsDominator = false)
    (hst : s.AgreesOn p.Uses t) : ∃ t', Succeeds (c.visit p e) t t' ∧ s'.AgreesOn p.Uses t' := by
  have hagree := hst.agree (fun _ => hp.given_of_uses)
    (simulates_visit_numbered (c := c) (e := e) hp hdominator fun _ => id)
  rw [show (c.visit p e).run s = (.ok true, s') from h] at hagree
  generalize hrun : (c.visit p e).run t = z at hagree
  cases hagree with
  | @ok _ _ t' hsame =>
    have h' : Succeeds (c.visit p e) t t' := hrun
    exact ⟨t', h', h'.extended.memoize.trans (hst.memoize.trans h.extended.memoize.symm), h.supplied hp hst.supplied,
      h'.supplied hp hst.supplied', hsame⟩

/-- A bound pattern matches what it is bound to, and nothing changes. -/
theorem of_bound (hs : s.memoize = true) (hbound : s.trail.get? p.id = some f) (hid : f.id = e.id) :
    Succeeds (c.visit p e) s s := (succeeds_visit_iff hs).2 (.inl ⟨f, hbound, hid, rfl⟩)

theorem eq_of_bound (h : Succeeds (c.visit p e) s s') (hs : s.memoize = true) (hbound : s.trail.get? p.id = some f) :
    f.id = e.id ∧ s' = s := by
  rcases (succeeds_visit_iff hs).1 h with ⟨bound, hget, hid, rfl⟩ | ⟨hnone, -⟩
  · rw [hbound] at hget
    cases hget
    exact ⟨hid, rfl⟩
  · rw [hbound] at hnone
    cases hnone

/-- A pattern that was not bound is bound to the node. -/
theorem get?_self (h : Succeeds (c.visit p e) s s') (hp : p.Numbered) (hnegation : p.isNegation = false)
    (hs : s.memoize = true) (hnone : s.trail.get? p.id = none) : s'.trail.get? p.id = some e := by
  obtain ⟨rule, hvisit, hrule⟩ := c.hasFootprint p e
  rw [hvisit, succeeds_attempt (Relates.imp hrule fun _ _ => Session.BindsOnly.toGrows) hs] at h
  rcases h with ⟨bound, hbound, -⟩ | ⟨-, t, ht, rfl⟩
  · rw [hnone] at hbound
    cases hbound
  · obtain ⟨n, hn⟩ := hp.given p .refl
    have hfree : t.trail.get? p.id = none :=
      ((hrule s).of_run ht).unbound p.id hp.not_usesWithin (fun k hk => by rw [hn] at hk; cases hk) hnone
    rw [Session.get?_bind_self hnegation, hfree, Option.getD_none]

/-- A negation binds nothing: it matches if what it negates does not, and that is taken back. -/
theorem trail_eq (h : Succeeds (c.visit p e) s s') (hnegation : p.isNegation = true) (hs : s.memoize = true) :
    s'.trail = s.trail := by
  rcases (succeeds_visit_iff hs).1 h with ⟨-, -, -, rfl⟩ | ⟨-, t, ht, rfl⟩
  · rfl
  · rw [Session.bind, if_pos hnegation]
    cases p with
    | negation i q =>
      obtain ⟨matched, u, hu, hnot⟩ := succeeds_bind.1 ht
      obtain ⟨hmatched, rfl⟩ := succeeds_pure.1 hnot
      exact ((c.visit_atomic q e s).of_run hu).2 (by simpa using hmatched)
    | _ => cases hnegation

/-- A pattern that is not made of others is compared with the node that it is bound to, or bound. -/
theorem leaf (h : Succeeds (c.visit p e) s s') (hleaf : p.children = []) (hbranches : p.branches = false)
    (hs : s.memoize = true) :
    (∃ bound, s.trail.get? p.id = some bound ∧ bound.id = e.id ∧ s' = s) ∨
      s.trail.get? p.id = none ∧ s' = s.bind p e := by
  refine ((succeeds_visit hbranches hs).1 h).imp_right fun ⟨hnone, l, hl, t, ht, hs'⟩ => ⟨hnone, ?_⟩
  cases l with
  | nil => exact (show t = s from ht) ▸ hs'
  | cons r l =>
    have hr := (mem_demands hl List.mem_cons_self).1
    rw [hleaf] at hr
    cases hr

/-- The callee of a commutative call is visited at the callee of the expression, and the call then goes on as if that
had been done before. -/
theorem exists_leadingCallee {callee : Pattern} (hcallee : p.leadingCallee? = some callee) (hp : p.Numbered)
    (hs : s.memoize = true) (hnone : s.trail.get? p.id = none) (h : Succeeds (c.visit p e) s s') :
    ∃ g, c.PassesOn e g ∧ (∃ u, Succeeds (c.visit callee g) s u) ∧ ∀ t u, t.memoize = true →
      t.trail.get? p.id = none → Succeeds (c.visit callee g) t u →
        (∃ f, u.trail.get? callee.id = some f) ∧ ∀ t', Succeeds (c.visit p e) t t' ↔ Succeeds (c.visit p e) u t' := by
  obtain ⟨hchild, hleaf, hbranches⟩ := Pattern.leaf_of_leadingCallee? hcallee
  have hreassociations := Pattern.reassociations_eq_nil_of_leadingCallee? hcallee
  obtain ⟨i, ps, rfl, -, -⟩ := Pattern.leadingCallee?_eq_some_iff.1 hcallee
  have hne : i ≠ callee.id := fun hid => hp.not_usesWithin ⟨callee, hchild, callee, .refl, hid.symm⟩
  obtain ⟨-, info, g, es, attrs, hfollow, w, -, hw, -⟩ := (succeeds_visit_call hreassociations hs hnone).1 h
  refine ⟨g, .inr (by rw [hfollow]; exact List.mem_cons_self), ⟨w, hw⟩, fun t u ht hfree hu => ?_⟩
  -- the callee, once bound, is found again, and nothing else is asked of it
  obtain ⟨⟨f, hbound, hid⟩, hfree'⟩ : (∃ f, u.trail.get? callee.id = some f ∧ f.id = g.id) ∧
      u.trail.get? i = none := by
    rcases hu.leaf hleaf hbranches ht with ⟨f, hget, hid, rfl⟩ | ⟨hget, rfl⟩
    · exact ⟨⟨f, hget, hid⟩, hfree⟩
    · have hbound := Session.get?_bind_self (s := t) (Pattern.isNegation_eq_false hbranches) g
      rw [hget] at hbound
      exact ⟨⟨g, hbound, rfl⟩, (Session.get?_bind_of_ne hne g).trans hfree⟩
  have hu' : u.memoize = true := hu.extended.memoize.trans ht
  have hagain : Succeeds (c.visit callee g) u u := .of_bound hu' hbound hid
  have hsame : ∀ v, Succeeds (c.visit callee g) t v ↔ Succeeds (c.visit callee g) u v := fun v =>
    ⟨fun hv => hu.unique hv ▸ hagain, fun hv => hagain.unique hv ▸ hu⟩
  refine ⟨⟨f, hbound⟩, fun t' => ?_⟩
  rw [succeeds_visit_call hreassociations ht hfree, succeeds_visit_call hreassociations hu' hfree', hfollow]
  refine and_congr_right fun _ => exists_congr fun info' => exists_congr fun g' => exists_congr fun es' =>
    exists_congr fun attrs' => and_congr_right fun hcall => ?_
  obtain ⟨rfl, rfl, rfl, rfl⟩ := Expr.call.inj hcall
  simp only [hsame]

end MatchM.Succeeds
end Dataflow
