import Dataflow.Proofs.Match.Rollback
/-!
# The supply of identities does not matter

A visit from a session whose supply has gone on by `d` does the same as one from the session itself, with every pattern
that it makes having an identity that is `d` further on (`Session.Shifted`).  For this the two visits are run side by
side: what they look up agrees, since neither has bound anything that the supply still has, so they take the same
branches and commit the same, and each step keeps them alike (`Simulates`).  In particular the answer is the same
(`run_visit_of_later`).
-/
namespace Dataflow

/-- Identities made from `start` on, made `d` later. -/
def PatternId.shift (start d : Nat) : PatternId → PatternId
  | given n => given n
  | derived k => derived (if k < start then k else k + d)

theorem PatternId.shift_inj {start d : Nat} {i j : PatternId} : i.shift start d = j.shift start d ↔ i = j := by
  refine ⟨fun h => ?_, fun h => by rw [h]⟩
  cases i with
  | given =>
    cases j with
    | given => exact h
    | derived => cases h
  | derived k =>
    cases j with
    | given => cases h
    | derived l =>
      have := PatternId.derived.inj h
      congr 1
      split at this <;> split at this <;> omega

def Binding.rename (σ : PatternId → PatternId) (b : Binding) : Binding := ⟨b.pattern.rename σ, b.expr⟩

/-- Two sessions that committed the same to the trails `old` and `old'`, with every identity from `start` on being `d`
further on. -/
structure Session.Shifted (start d : Nat) (old old' : Trail) (s t : Session) : Prop where
  start_le : start ≤ s.fresh
  fresh : t.fresh = s.fresh + d
  memoize : t.memoize = s.memoize
  bound : ∀ i, t.trail.get? (i.shift start d) = s.trail.get? i
  committed : ∃ new, s.trail = old.commitAll new ∧ t.trail = old'.commitAll (new.map (.rename (.shift start d)))

section
variable {start d : Nat} {old old' : Trail} {s s' t t' : Session}

/-- Sessions stay alike when both take back what they bound. -/
theorem Session.Shifted.withTrail (h : s.Shifted start d old old' t) (h' : s'.Shifted start d old old' t') :
    (s'.withTrail s.trail).Shifted start d old old' (t'.withTrail t.trail) :=
  ⟨h'.start_le, h'.fresh, h'.memoize, h.bound, h.committed⟩

theorem Session.Shifted.bind (h : s.Shifted start d old old' t) (p : Pattern) (e : Expr) :
    (s.bind p e).Shifted start d old old' (t.bind (p.rename (.shift start d)) e) := by
  rw [Session.bind, Session.bind, Pattern.isNegation_rename]
  split
  · exact h
  · obtain ⟨new, hs, ht⟩ := h.committed
    refine ⟨h.start_le, h.fresh, h.memoize, fun i => ?_, new ++ [⟨p, e⟩], ?_, ?_⟩
    · rw [Trail.get?_commit, Trail.get?_commit, Pattern.id_rename, h.bound i]
      simp only [PatternId.shift_inj]
    · rw [Trail.commitAll_concat, ← hs]
    · rw [List.map_append, List.map_singleton, Trail.commitAll_concat, ← ht]
      rfl

end

/-- What related sessions take from the supply differs by `d` from `start` on, and they stay related when both take
back what they committed. -/
class Session.Lockstep (start d : outParam Nat) (R : Session → Session → Prop) : Prop where
  start_le : ∀ {s t}, R s t → start ≤ s.fresh
  fresh : ∀ {s t}, R s t → t.fresh = s.fresh + d
  takeFresh : ∀ {s t} (n : Nat), R s t → R { s with fresh := s.fresh + n } { t with fresh := t.fresh + n }
  withTrail : ∀ {s s' t t'}, R s t → R s' t' → R (s'.withTrail s.trail) (t'.withTrail t.trail)

instance {start d : Nat} {old old' : Trail} : Session.Lockstep start d (Session.Shifted start d old old') where
  start_le h := h.start_le
  fresh h := h.fresh
  takeFresh n h := ⟨Nat.le_trans h.start_le (Nat.le_add_right ..), by simp only [h.fresh]; omega, h.memoize, h.bound,
    h.committed⟩
  withTrail := Session.Shifted.withTrail

namespace MatchM

variable {α β : Type}

theorem run_orUndo {search : MatchM Bool} (h : Keeps Session.Grows search) (s : Session) : (orUndo search).run s =
    match search.run s with
    | (.ok true, s') => (.ok true, s')
    | (.ok false, s') => (.ok false, s'.withTrail s.trail)
    | (.error fault, s') => (.error fault, s') := by
  have hmark : mark.run s = (.ok s.trail.mark, s) := rfl
  rw [orUndo, run_bind, hmark]
  dsimp only
  rw [run_bind]
  rcases hrun : search.run s with ⟨_ | matched, s'⟩
  · rfl
  · cases matched with
    | true => rfl
    | false =>
      dsimp only
      rw [if_neg Bool.false_ne_true, run_bind, run_rollback ((h s).of_run hrun).trail]
      rfl

theorem run_attempt {p : Pattern} {e : Expr} {rule : MatchM Bool} (h : Keeps Session.Grows rule) (s : Session) :
    (attempt p e rule).run s =
      match if s.memoize then s.trail.get? p.id else none with
      | some bound => (.ok (bound.id == e.id), s)
      | none =>
        match rule.run s with
        | (.ok true, s') => (.ok true, s'.bind p e)
        | (.ok false, s') => (.ok false, s'.withTrail s.trail)
        | (.error fault, s') => (.error fault, s') := by
  have hheld : (held? p).run s = (.ok (if s.memoize then s.trail.get? p.id else none), s) := rfl
  have hmark : mark.run s = (.ok s.trail.mark, s) := rfl
  rw [attempt, run_bind, hheld]
  dsimp only
  cases if s.memoize then s.trail.get? p.id else none with
  | some bound => rfl
  | none =>
    rw [run_bind, hmark]
    dsimp only
    rw [run_bind]
    rcases hrun : rule.run s with ⟨_ | matched, s'⟩
    · rfl
    · cases matched with
      | true =>
        dsimp only
        rw [if_pos rfl, Session.bind]
        cases p.isNegation <;> rfl
      | false =>
        dsimp only
        rw [if_neg Bool.false_ne_true, run_bind, run_rollback ((h s).of_run hrun).trail]
        rfl

/-- Two steps end in the same fault, or with the same answer in related sessions. -/
inductive Agree (R : Session → Session → Prop) : Except Fault α × Session → Except Fault α × Session → Prop
  | ok {a : α} {s t : Session} : R s t → Agree R (.ok a, s) (.ok a, t)
  | error {fault : Fault} {s t : Session} : Agree R (.error fault, s) (.error fault, t)

/-- Two steps that grow the session agree if they start from related sessions. -/
structure Simulates (R : Session → Session → Prop) (m m' : MatchM α) : Prop where
  left : Keeps Session.Grows m
  right : Keeps Session.Grows m'
  agree : ∀ s t, R s t → Agree R (m.run s) (m'.run t)

namespace Simulates

/-- A step that only looks, and at nothing of the session. -/
theorem constant {R : Session → Session → Prop} {m : MatchM α} (answer : Except Fault α) (hm : Keeps Session.Grows m)
    (h : ∀ s, m.run s = (answer, s)) : Simulates R m m := by
  refine ⟨hm, hm, fun s t hst => ?_⟩
  rw [h, h]
  cases answer with
  | error => exact .error
  | ok => exact .ok hst

theorem bind {R : Session → Session → Prop} {m m' : MatchM α} {f f' : α → MatchM β} (hm : Simulates R m m')
    (hf : ∀ a, Simulates R (f a) (f' a)) : Simulates R (m >>= f) (m' >>= f') := by
  refine ⟨Relates.bind hm.left fun a => (hf a).left, Relates.bind hm.right fun a => (hf a).right, fun s t hst => ?_⟩
  have hagree := hm.agree s t hst
  rw [run_bind, run_bind]
  generalize m.run s = x, m'.run t = y at hagree
  cases hagree with
  | ok hst' => exact (hf _).agree _ _ hst'
  | error => exact .error

variable {start d : Nat} {old old' : Trail} {c : MatchContext} {m m' : MatchM Bool}

theorem orUndo {R : Session → Session → Prop} [Session.Lockstep start d R] (hm : Simulates R m m') :
    Simulates R (orUndo m) (orUndo m') := by
  refine ⟨Relates.orUndo hm.left, Relates.orUndo hm.right, fun s t hst => ?_⟩
  have hagree := hm.agree s t hst
  rw [run_orUndo hm.left, run_orUndo hm.right]
  generalize m.run s = x, m'.run t = y at hagree
  cases hagree with
  | @ok matched _ _ hst' =>
    cases matched with
    | true => exact .ok hst'
    | false => exact .ok (Session.Lockstep.withTrail hst hst')
  | error => exact .error

theorem congruence (R : Session → Session → Prop) [Session.Lockstep start d R] (c : MatchContext) :
    Congruence c fun m m' => Simulates R m m' where
  pure a := .constant (.ok a) Relates.pure fun _ => rfl
  bind := bind
  orUndo := orUndo
  checkFollow e := .constant (if c.isStuck e then .error .noBindings else .ok ()) keeps_checkFollow fun s => by
    rw [MatchM.checkFollow]
    split <;> rfl

/-- Two visits go side by side if they find the same of what is bound and commit alike. -/
theorem attempt {R : Session → Session → Prop} [Session.Lockstep start d R] {p p' : Pattern} {e e' : Expr}
    (hm : Simulates R m m')
    (hheld : ∀ s t, R s t → (if s.memoize then s.trail.get? p.id else none).map (·.id == e.id) =
      (if t.memoize then t.trail.get? p'.id else none).map (·.id == e'.id))
    (hbind : ∀ s t, R s t → R (s.bind p e) (t.bind p' e')) :
    Simulates R (attempt p e m) (attempt p' e' m') := by
  have hgrows : ∀ {p : Pattern} {e : Expr} {m : MatchM Bool}, Keeps Session.Grows m →
      Keeps Session.Grows (MatchM.attempt p e m) := fun {p e _} h =>
    Relates.attempt h fun s => (s.extends_bind p e).toGrows
  refine ⟨hgrows hm.left, hgrows hm.right, fun s t hst => ?_⟩
  have hagree := hm.agree s t hst
  have hsame := hheld s t hst
  rw [run_attempt hm.left, run_attempt hm.right]
  generalize (if s.memoize then s.trail.get? p.id else none) = held,
    (if t.memoize then t.trail.get? p'.id else none) = held' at hsame
  cases held with
  | some bound =>
    obtain ⟨bound', rfl, hid⟩ := Option.map_eq_some_iff.1 hsame.symm
    dsimp only
    rw [hid]
    exact .ok hst
  | none =>
    obtain rfl := Option.map_eq_none_iff.1 hsame.symm
    dsimp only
    generalize m.run s = x, m'.run t = y at hagree
    cases hagree with
    | @ok matched _ _ hst' =>
      cases matched with
      | true => exact .ok (hbind _ _ hst')
      | false => exact .ok (Session.Lockstep.withTrail hst hst')
    | error => exact .error

/-- What two runs make by re-association has the identities that each takes. -/
theorem visitReassociated {R : Session → Session → Prop} [Session.Lockstep start d R] {p : Pattern} {e : Expr}
    (h : ∀ n, start ≤ n → ∀ q ∈ Pattern.reassociations n p e,
      Simulates R (c.visit q e) (c.visit (q.rename (.shift start d)) e)) :
    Simulates R (c.visitReassociated p e) (c.visitReassociated (p.rename (.shift start d)) e) := by
  have hgrows : ∀ p, Keeps Session.Grows (c.visitReassociated p e) := fun p =>
    (Keeps.takeFresh fun n => .anyM fun q _ => (c.visit_atomic q.1 e).keeps).grows
  refine ⟨hgrows _, hgrows _, fun s t hst => ?_⟩
  have hfresh := Session.Lockstep.fresh hst
  have hmade : Pattern.reassociations t.fresh (p.rename (.shift start d)) e =
      (Pattern.reassociations s.fresh p e).map (.rename (.shift start d)) := by
    refine Pattern.reassociations_rename fun k _ => ?_
    have := Session.Lockstep.start_le hst
    rw [PatternId.shift, if_neg (by omega), hfresh]
    congr 1
    omega
  have hsearch : Simulates R ((Pattern.reassociations s.fresh p e).attach.anyM fun q => c.visit q.1 e)
      ((Pattern.reassociations t.fresh (p.rename (.shift start d)) e).attach.anyM fun q => c.visit q.1 e) := by
    have hall : List.Forall₂ (fun q r => Simulates R (c.visit q e) (c.visit r e))
        (Pattern.reassociations s.fresh p e) (Pattern.reassociations t.fresh (p.rename (.shift start d)) e) := by
      rw [hmade, List.forall₂_map_right_iff, List.forall₂_same]
      exact h s.fresh (Session.Lockstep.start_le hst)
    rw [← List.attach_map_subtype_val (Pattern.reassociations s.fresh p e),
      ← List.attach_map_subtype_val (Pattern.reassociations t.fresh _ e), List.forall₂_map_left_iff,
      List.forall₂_map_right_iff] at hall
    exact (congruence R c).anyM hall
  exact hsearch.agree _ _ (Session.Lockstep.takeFresh _ hst)

variable {R : Session → Session → Prop}

theorem locate (e : Expr) : Simulates R (locate c e) (locate c e) := by
  refine .constant ((MatchM.locate c e).run .initial).1 keeps_locate fun s => ?_
  unfold MatchM.locate
  split
  · rfl
  · split <;> rfl

theorem heldBy {attrs : LiteralDict} {registry : Registry} {e : Expr} :
    Simulates R (liftM (attrs.heldBy registry e) : MatchM Bool) (liftM (attrs.heldBy registry e)) :=
  .constant (attrs.heldBy registry e) keeps_heldBy fun s => by cases attrs.heldBy registry e <;> rfl

theorem attempt_shifted {p : Pattern} {e : Expr} (hm : Simulates (Session.Shifted start d old old') m m') :
    Simulates (Session.Shifted start d old old') (MatchM.attempt p e m)
      (MatchM.attempt (p.rename (.shift start d)) e m') := by
  refine hm.attempt (fun s t hst => ?_) fun s t hst => hst.bind p e
  rw [Pattern.id_rename, hst.memoize, hst.bound]

theorem setMemoize (memoize : Bool) :
    Simulates (Session.Shifted start d old old') (setMemoize memoize) (setMemoize memoize) :=
  ⟨keeps_setMemoize memoize, keeps_setMemoize memoize, fun _ _ h =>
    .ok ⟨h.start_le, h.fresh, rfl, h.bound, h.committed⟩⟩

theorem restoringMemoize (hm : Simulates (Session.Shifted start d old old') m m') :
    Simulates (Session.Shifted start d old old') (restoringMemoize m) (restoringMemoize m') := by
  refine ⟨(keeps_restoringMemoize hm.left).grows, (keeps_restoringMemoize hm.right).grows, fun s t hst => ?_⟩
  have hrun : ∀ (m : MatchM Bool) (s : Session), (MatchM.restoringMemoize m).run s =
      (m >>= fun matched => MatchM.setMemoize s.memoize >>= fun _ => pure matched).run s := fun _ _ => rfl
  rw [hrun, hrun, hst.memoize]
  exact (hm.bind fun matched => (setMemoize s.memoize).bind fun _ =>
    .constant (.ok matched) Relates.pure fun _ => rfl).agree s t hst

end Simulates
end MatchM

namespace MatchContext

open MatchM

/-- **Two visits that differ in the supply only go side by side.** -/
theorem simulates_visit (c : MatchContext) (start d : Nat) (old old' : Trail) (p : Pattern) (e : Expr) :
    Simulates (Session.Shifted start d old old') (c.visit p e) (c.visit (p.rename (.shift start d)) e) := by
  induction p, e using c.visit_induction with
  | step p e parts again =>
    have hrule := (Simulates.congruence (Session.Shifted start d old old') c).ruleBy c rfl p e
      (fun q hq f _ => parts q hq f) (.visitReassociated fun n _ => again n) (fun _ _ _ _ => .heldBy)
      fun i child path parent hp => by
        subst hp
        exact .restoringMemoize ((Simulates.congruence _ c).walkDominator .locate .setMemoize
          (parts child (by simp [Pattern.children])) (parts path (by simp [Pattern.children]))
          (parts parent (by simp [Pattern.children])) e)
    rw [visit_eq_visitBy, visit_eq_visitBy]
    exact hrule.attempt_shifted

/-- **The supply does not decide an answer.**  From a session in which nothing is bound that the supply still has, and
from one that differs only in that its supply went on, a visit of a pattern that the supply did not make answers the
same. -/
theorem run_visit_of_later (c : MatchContext) {p : Pattern} (e : Expr) {s t : Session} (hs : s.Supplied)
    (hp : ∀ k, p.Uses (.derived k) → k < s.fresh) (hlater : s.Later t) :
    ((c.visit p e).run t).1 = ((c.visit p e).run s).1 := by
  have hfresh := hlater.fresh
  have hshifted : s.Shifted s.fresh (t.fresh - s.fresh) s.trail t.trail t := by
    refine ⟨Nat.le_refl _, by omega, hlater.memoize, fun i => ?_, [], rfl, rfl⟩
    rw [hlater.trail]
    cases i with
    | given => rfl
    | derived k =>
      rw [PatternId.shift]
      split
      · rfl
      · rw [hs k (by omega), hs _ (by omega)]
  have hself : p.rename (.shift s.fresh (t.fresh - s.fresh)) = p := by
    refine Pattern.rename_eq_self fun i hi => ?_
    cases i with
    | given => rfl
    | derived k => rw [PatternId.shift, if_pos (hp k hi)]
  have hagree := (simulates_visit c _ _ _ _ p e).agree s t hshifted
  rw [hself] at hagree
  generalize (c.visit p e).run s = x, (c.visit p e).run t = y at hagree ⊢
  cases hagree <;> rfl

/-- **A search asks each of its candidates the same question.**  If what fails is taken back and the supply does not
decide, the search succeeds if and only if some candidate does from the session in which the search starts. -/
theorem anyM_iff_of_later {α : Type} {f : α → MatchM Bool} {s : Session} {matched : Bool} :
    ∀ {l : List α} {t t' : Session}, (∀ a ∈ l, Atomic (f a)) →
      (∀ a ∈ l, ∀ t, s.Later t → ((f a).run t).1 = ((f a).run s).1) → s.Later t →
        (l.anyM f).run t = (.ok matched, t') → (matched = true ↔ ∃ a ∈ l, ((f a).run s).1 = .ok true)
  | [], _, _, _, _, _, h => by
    cases h
    simp
  | a :: l, t, t', hatomic, hsame, hlater, h => by
    have ha := hsame a (by simp) t hlater
    rw [List.anyM_cons, run_bind] at h
    rcases hrun : (f a).run t with ⟨fault | found, t₁⟩ <;> rw [hrun] at h ha
    · cases h
    · cases found with
      | true =>
        cases h
        exact iff_of_true rfl ⟨a, by simp, ha.symm⟩
      | false =>
        have hlater' : s.Later t₁ := hlater.trans (((hatomic a (by simp)).later t).of_run hrun rfl)
        have hrest := anyM_iff_of_later (fun b hb => hatomic b (by simp [hb])) (fun b hb => hsame b (by simp [hb]))
          hlater' h
        have hfails : ¬((f a).run s).1 = .ok true := fun htrue => by
          rw [htrue] at ha
          cases ha
        simp [hrest, hfails]

end MatchContext
end Dataflow
