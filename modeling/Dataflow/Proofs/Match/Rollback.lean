import Dataflow.Proofs.Match.Congruence
import Dataflow.Proofs.Match.Induction
import Mathlib
/-!
# A visit commits everything or nothing

Every step of a match only commits to the trail, and it takes identities from the supply without giving any back
(`Keeps`, and `Relates` where other faults are asked for).  A visit that fails leaves the trail as it was, and any visit
with an answer holds bound patterns to their nodes, or not, as before it (`Atomic`).  The log and the table of a trail
never come to disagree on the way.

All of Mathlib is imported for the equations of strings and look-ups with which `cbv` evaluates concrete matches, here
and in the modules that build on this one.
-/
namespace Dataflow

namespace Fault

/-- Any fault but that a logged binding is missing in the table. -/
def Foreseen : Fault → Prop
  | missingBinding _ => False
  | _ => True

/-- A fault of comparing an attribute with what a pattern asks for. -/
def OfAttribute : Fault → Prop
  | incomparable .. | unsupportedKind _ => True
  | _ => False

theorem OfAttribute.foreseen {fault : Fault} (h : fault.OfAttribute) : fault.Foreseen := by
  cases fault with
  | missingBinding => exact h
  | _ => trivial

end Fault

section
variable {fault : Fault} {registry : Registry}

theorem ofAttribute_of_agrees {l : Literal} {v : AttrValue} (h : l.agrees v = .error fault) : fault.OfAttribute := by
  unfold Literal.agrees at h
  split at h
  case h_4 => split at h <;> cases h; trivial
  case h_5 => split at h <;> cases h
  case h_6 | h_7 => cases h; trivial
  all_goals cases h

theorem ofAttribute_of_allM {α : Type} {f : α → Except Fault Bool} (hf : ∀ a, f a = .error fault → fault.OfAttribute) :
    ∀ l : List α, l.allM f = .error fault → fault.OfAttribute
  | [], h => by cases h
  | a :: l, h => by
    rw [List.allM_cons] at h
    cases ha : f a with
    | error fault' =>
      rw [ha] at h
      cases h
      exact hf a ha
    | ok held =>
      rw [ha] at h
      cases held with
      | false => cases h
      | true => exact ofAttribute_of_allM hf l h

theorem ofAttribute_of_agreesWith {d : LiteralDict} {value? : String → Option AttrValue}
    (h : d.agreesWith value? = .error fault) : fault.OfAttribute := by
  refine ofAttribute_of_allM (fun ⟨name, l⟩ hl => ?_) d.entries h
  dsimp only at hl
  split at hl
  · exact ofAttribute_of_agrees hl
  · cases hl

theorem ofAttribute_of_heldBy {d : LiteralDict} {e : Expr} (h : d.heldBy registry e = .error fault) :
    fault.OfAttribute := by
  cases e with
  | op | call =>
    rw [Dict.heldBy] at h
    exact ofAttribute_of_agreesWith h
  | _ => cases h

end

namespace MatchM

variable {α β : Type} {R : Session → Session → Prop} {faults : Fault → Prop}

/-- The sessions before and after a step are related, whatever it answers, and it ends in no other faults. -/
def Relates (R : Session → Session → Prop) (faults : Fault → Prop) (m : MatchM α) : Prop :=
  ∀ s, Ensures m s (fun _ s' => R s s') faults

/-- The sessions before and after a step are related, whatever it answers. -/
def Keeps (R : Session → Session → Prop) (m : MatchM α) : Prop :=
  ∀ s, Ensures m s (fun _ s' => R s s') Fault.Foreseen

/-- A step that extends the session, and leaves the trail as it was if it fails. -/
def Atomic (m : MatchM Bool) : Prop :=
  ∀ s, Ensures m s (fun matched s' => s.Extends s' ∧ (matched = false → s'.trail = s.trail)) Fault.Foreseen

/-! ## How steps are put together -/

namespace Relates

variable {m : MatchM α} {f : α → MatchM β}

theorem imp {R' : Session → Session → Prop} (h : Relates R faults m) (himp : ∀ s s', R s s' → R' s s') :
    Relates R' faults m := fun s => (h s).imp fun _ s' hs' => himp s s' hs'

theorem grows (h : Relates Session.Extends faults m) : Relates Session.Grows faults m :=
  h.imp fun _ _ hs' => hs'.toGrows

theorem pure [Std.Refl R] {a : α} : Relates R faults (Pure.pure a : MatchM α) := fun s => refl_of R s

theorem bind [IsTrans Session R] (hm : Relates R faults m) (hf : ∀ a, Relates R faults (f a)) :
    Relates R faults (m >>= f) := fun s =>
  ensures_bind.2 ((hm s).imp fun a s' hs' => (hf a s').imp fun _ _ hs'' => trans_of R hs' hs'')

theorem ite {b : Prop} [Decidable b] {m₁ m₂ : MatchM α} (h₁ : Relates R faults m₁) (h₂ : Relates R faults m₂) :
    Relates R faults (if b then m₁ else m₂) := by
  split
  · exact h₁
  · exact h₂

section
variable [Std.Refl R] [IsTrans Session R] {f : α → MatchM Bool}

theorem anyM : ∀ {l : List α}, (∀ a ∈ l, Relates R faults (f a)) → Relates R faults (l.anyM f)
  | [], _ => pure
  | a :: l, h => by
    rw [List.anyM_cons]
    refine (h a (by simp)).bind fun matched => ?_
    cases matched with
    | true => exact pure
    | false => exact anyM fun b hb => h b (by simp [hb])

theorem allM : ∀ {l : List α}, (∀ a ∈ l, Relates R faults (f a)) → Relates R faults (l.allM f)
  | [], _ => pure
  | a :: l, h => by
    rw [List.allM_cons]
    refine (h a (by simp)).bind fun matched => ?_
    cases matched with
    | true => exact allM fun b hb => h b (by simp [hb])
    | false => exact pure

end

theorem checkFollow [Std.Refl R] {c : MatchContext} {e : Expr} (h : c.isStuck e = true → faults .noBindings) :
    Relates R faults (MatchM.checkFollow c e) := fun s => by
  rw [ensures_checkFollow]
  split
  · exact h ‹_›
  · exact refl_of R s

theorem heldBy [Std.Refl R] {d : LiteralDict} {registry : Registry} {e : Expr}
    (h : ∀ fault : Fault, fault.OfAttribute → faults fault) :
    Relates R faults (liftM (d.heldBy registry e) : MatchM Bool) := fun s => by
  cases hheld : d.heldBy registry e with
  | error fault => exact h fault (ofAttribute_of_heldBy hheld)
  | ok held => exact refl_of R s

theorem takeFresh {f : Nat → MatchM α} (hf : ∀ n, Relates Session.Extends faults (f n)) {n : Nat} :
    Relates Session.Extends faults (MatchM.takeFresh n >>= f) := fun s => by
  rw [ensures_bind, ensures_takeFresh]
  have hextends : s.Extends { s with fresh := s.fresh + n } := ⟨⟨.refl _, Nat.le_add_right ..⟩, rfl⟩
  exact (hf _ _).imp fun _ s' hs' => hextends.trans hs'

theorem setMemoize (memoize : Bool) : Relates Session.Grows faults (MatchM.setMemoize memoize) := fun _ =>
  ensures_setMemoize.2 ⟨.refl _, Nat.le_refl _⟩

theorem restoringMemoize {search : MatchM Bool} (h : Relates Session.Grows faults search) :
    Relates Session.Extends faults (MatchM.restoringMemoize search) := fun s => by
  rw [MatchM.restoringMemoize]
  simp only [ensures_bind]
  exact (h s).imp fun _ s' hs' => ⟨⟨hs'.trail, hs'.fresh⟩, rfl⟩

end Relates

theorem Keeps.anyM [Std.Refl R] [IsTrans Session R] {f : α → MatchM Bool} {l : List α}
    (h : ∀ a ∈ l, Keeps R (f a)) : Keeps R (l.anyM f) := Relates.anyM h

theorem keeps_checkFollow [Std.Refl R] {c : MatchContext} {e : Expr} : Keeps R (checkFollow c e) :=
  Relates.checkFollow fun _ => trivial

theorem Keeps.takeFresh {f : Nat → MatchM α} (hf : ∀ n, Keeps Session.Extends (f n)) {n : Nat} :
    Keeps Session.Extends (MatchM.takeFresh n >>= f) := Relates.takeFresh hf

theorem keeps_locate [Std.Refl R] {c : MatchContext} {e : Expr} : Keeps R (locate c e) := fun s => by
  rw [locate]
  split
  · trivial
  · split
    · exact ensures_pure.2 (refl_of R s)
    · trivial

theorem keeps_setMemoize (memoize : Bool) : Keeps Session.Grows (setMemoize memoize) := Relates.setMemoize memoize

theorem keeps_heldBy [Std.Refl R] {d : LiteralDict} {registry : Registry} {e : Expr} :
    Keeps R (liftM (d.heldBy registry e) : MatchM Bool) := Relates.heldBy fun _ h => h.foreseen

/-! ## Steps that take back what they did -/

theorem Keeps.grows {m : MatchM α} (h : Keeps Session.Extends m) : Keeps Session.Grows m := Relates.grows h

theorem Atomic.keeps {m : MatchM Bool} (h : Atomic m) : Keeps Session.Extends m := fun s =>
  (h s).imp fun _ _ hs' => hs'.1

/-- A visit takes back what its rule committed, if the rule fails. -/
theorem atomic_attempt {p : Pattern} {e : Expr} {rule : MatchM Bool} (h : Keeps Session.Extends rule) :
    Atomic (attempt p e rule) := fun s => by
  refine .attempt (fun _ _ _ => ⟨.refl s, fun _ => rfl⟩) fun _ => (h s).imp fun matched s' hs' => ?_
  cases matched with
  | true => exact ⟨hs'.trail, hs'.trans (s'.extends_bind p e), fun ht => absurd ht.symm Bool.false_ne_true⟩
  | false => exact ⟨hs'.trail, hs'.withTrail, fun _ => rfl⟩

theorem atomic_orUndo {search : MatchM Bool} (h : Keeps Session.Extends search) : Atomic (orUndo search) := fun s => by
  refine .orUndo ((h s).imp fun matched s' hs' => ?_)
  cases matched with
  | true => exact ⟨hs'.trail, hs', fun ht => absurd ht.symm Bool.false_ne_true⟩
  | false => exact ⟨hs'.trail, hs'.withTrail, fun _ => rfl⟩

theorem Atomic.later {m : MatchM Bool} (h : Atomic m) (s : Session) :
    Ensures m s (fun matched s' => matched = false → s.Later s') Fault.Foreseen :=
  (h s).imp fun _ _ ⟨hextends, hrestored⟩ hfails => ⟨hrestored hfails, hextends.memoize, hextends.fresh⟩

/-- Steps that take back what they did are tried one after another, each from the trail that there was. -/
theorem Atomic.ensures_anyM {f : α → MatchM Bool} {P : Session → Prop} {s : Session} : ∀ (l : List α) {s₁ : Session},
    s.Later s₁ → (∀ a ∈ l, Atomic (f a)) →
      (∀ a ∈ l, ∀ s₁, s.Later s₁ → Ensures (f a) s₁ (fun matched s' => matched = true → P s') fun _ => True) →
        Ensures (l.anyM f) s₁ (fun matched s' => if matched then P s' else s.Later s') fun _ => True
  | [], _, hs₁, _, _ => ensures_pure.2 hs₁
  | a :: l, s₁, hs₁, hatomic, h => by
    rw [List.anyM_cons, ensures_bind]
    refine ((h a (by simp) s₁ hs₁).and ((hatomic a (by simp)).later s₁)).imp ?_
    rintro (_ | _) s₂ ⟨hfound, hfails⟩
    · exact ensures_anyM l (hs₁.trans (hfails rfl)) (fun b hb => hatomic b (by simp [hb])) fun b hb => h b (by simp [hb])
    · exact ensures_pure.2 (hfound rfl)

theorem keeps_restoringMemoize {search : MatchM Bool} (h : Keeps Session.Grows search) :
    Keeps Session.Extends (restoringMemoize search) := Relates.restoringMemoize h

/-! ## Visits -/

instance : Searchable (fun _ => True) Session.Grows where
  ready _ _ _ _ := trivial
  grows _ _ hs' := hs'.trail
  withTrail _ _ hs' := ⟨.refl _, hs'.fresh⟩

instance : Searchable (fun _ => True) Session.Extends where
  ready _ _ _ _ := trivial
  grows _ _ hs' := hs'.trail
  withTrail _ _ hs' := hs'.withTrail

theorem Relates.orUndo [Searchable (fun _ => True) R] {search : MatchM Bool} (h : Relates R faults search) :
    Relates R faults (orUndo search) := fun s => by
  refine .orUndo ((h s).imp fun matched s' hs' => ⟨Searchable.grows (fun _ => True) s s' hs', ?_⟩)
  cases matched with
  | true => exact hs'
  | false => exact Searchable.withTrail (fun _ => True) s s' hs'

section
variable [Std.Refl R] [IsTrans Session R] [Searchable (fun _ => True) R]

theorem Relates.attempt {p : Pattern} {e : Expr} {rule : MatchM Bool} (h : Relates R faults rule)
    (hbind : ∀ s : Session, R s (s.bind p e)) : Relates R faults (attempt p e rule) := fun s => by
  refine .attempt (fun _ _ _ => refl_of R s) fun _ => (h s).imp fun matched s' hs' =>
    ⟨Searchable.grows (fun _ => True) s s' hs', ?_⟩
  cases matched with
  | true => exact trans_of R hs' (hbind s')
  | false => exact Searchable.withTrail (fun _ => True) s s' hs'

theorem Relates.congruence {c : MatchContext} (h : ∀ e, c.isStuck e = true → faults .noBindings) :
    Congruence c fun m _ => Relates R faults m where
  pure _ := .pure
  bind := .bind
  orUndo := .orUndo
  checkFollow e := .checkFollow (h e)

theorem Keeps.congruence (c : MatchContext) : Congruence c fun m _ => Keeps R m :=
  Relates.congruence fun _ _ => trivial

theorem Keeps.visitAll {c : MatchContext} {ps : List Pattern} {es : List Expr}
    (h : ∀ p ∈ ps, ∀ e, Keeps R (c.visit p e)) : Keeps R (c.visitAll ps es) :=
  @Congruence.visitAll (fun {_} m _ => Keeps R m) c c id (Keeps.congruence c) ps es fun p hp e _ => h p hp e

end

end MatchM

namespace MatchContext

open MatchM Pattern

/-- What the visits of its parts keep, the rule of a pattern keeps. -/
theorem keeps_ruleBy {c : MatchContext} {p : Pattern} {e : Expr} {R : Session → Session → Prop} [Std.Refl R]
    [IsTrans Session R] [Searchable (fun _ => True) R] (hpart : ∀ q ∈ p.children, ∀ f, Keeps R (c.visit q f))
    (hagain : Keeps R (c.visitReassociated p (c.follow e)))
    (hdominator : ∀ i child path parent, p = .dominator i child path parent →
      Keeps R (restoringMemoize (c.walkDominator child path parent e))) :
    Keeps R (c.ruleBy c.visit p e) :=
  (Keeps.congruence c).ruleBy (σ := id) c rfl p e (fun q hq f _ => hpart q hq f) hagain (fun _ _ _ _ => keeps_heldBy)
    hdominator

/-- A rule only extends the session, if the visits in it do. -/
theorem keeps_extends_ruleBy {c : MatchContext} {p : Pattern} {e : Expr}
    (hpart : ∀ q ∈ p.children, ∀ f, Keeps Session.Extends (c.visit q f))
    (hagain : ∀ n, ∀ q ∈ Pattern.reassociations n p (c.follow e), Keeps Session.Extends (c.visit q (c.follow e))) :
    Keeps Session.Extends (c.ruleBy c.visit p e) := by
  refine keeps_ruleBy hpart (.takeFresh fun n => .anyM fun q _ => hagain n q.1 q.2) fun i child path parent hp => ?_
  subst hp
  have hgrows : ∀ q ∈ [child, path, parent], ∀ f, Keeps Session.Grows (c.visit q f) := fun q hq f => (hpart q hq f).grows
  have hwalk := (Keeps.congruence c).walkDominator (σ := id) (fun _ => keeps_locate) keeps_setMemoize
    (hgrows child (by simp)) (hgrows path (by simp)) (hgrows parent (by simp)) e
  exact keeps_restoringMemoize hwalk

/-- **Every visit is atomic.**  The rule of a pattern only extends the session, if the visits of its parts do. -/
theorem visit_atomic (c : MatchContext) (p : Pattern) (e : Expr) : Atomic (c.visit p e) := by
  induction p, e using c.visit_induction with
  | step p e parts again =>
    rw [visit_eq_visitBy]
    exact atomic_attempt (keeps_extends_ruleBy (fun q hq f => (parts q hq f).keeps) fun n q hq => (again n q hq).keeps)

theorem extends_ruleBy (c : MatchContext) (p : Pattern) (e : Expr) : Keeps Session.Extends (c.ruleBy c.visit p e) :=
  keeps_extends_ruleBy (fun q _ f => (c.visit_atomic q f).keeps) fun _ q _ => (c.visit_atomic q _).keeps

/-- **Matching is all or nothing.**  From any session, a visit that fails leaves the trail as it was.  One that succeeds
adds entries at the end of the log and applies them in order to the table.  In both cases bound patterns are held to
their nodes, or not, as before.  A match that fails as a whole leaves nothing. -/
theorem commits_or_restores :
    (∀ (c : MatchContext) (p : Pattern) (e : Expr) (s s' : Session) (matched : Bool),
      (c.visit p e).run s = (.ok matched, s') → s'.memoize = s.memoize ∧ (matched = false → s'.trail = s.trail) ∧
        (matched = true → ∃ new : List Binding, s'.trail.bindings = s.trail.bindings ++ new ∧
          s'.trail.table = new.foldl (fun table b => Trail.addTo b.pattern.id b.expr table) s.trail.table)) ∧
    (∀ (m m' : Matcher) (registry : Registry) (p : Pattern) (e : Expr),
      m.run registry p e = (.ok false, m') → m'.trail = .empty) := by
  refine ⟨fun c p e s s' matched h => ?_, fun m m' registry p e h => ?_⟩
  · obtain ⟨hextends, hrestored⟩ := (visit_atomic c p e s).of_run h
    refine ⟨hextends.memoize, hrestored, fun _ => ?_⟩
    obtain ⟨new, hnew⟩ := hextends.trail
    exact ⟨new, hnew ▸ s.trail.bindings_commitAll new, hnew ▸ s.trail.table_commitAll new⟩
  · obtain ⟨s', hrun, htrail⟩ := visit_of_run h
    rw [htrail, ((visit_atomic _ p e .initial).of_run hrun).2 rfl]
    rfl

/-- A variable is anything and anything, and not anything and a constant. -/
theorem commits_or_restores_of_conjunction :
    let c := Matcher.initial.context .empty
    let x := Expr.var ⟨0, none, none⟩ ⟨0, "x"⟩
    let any := Pattern.wildcard (.given 0)
    let twice := Pattern.both (.given 2) any (.wildcard (.given 1))
    let s' : Session := ⟨.commitAll .empty [⟨any, x⟩, ⟨.wildcard (.given 1), x⟩, ⟨twice, x⟩], true, 0⟩
    let constant := Pattern.both (.given 4) any (.constant (.given 3))
    ((c.visit twice x).run .initial = (.ok true, s') ∧ ∃ new : List Binding, s'.trail.bindings = [] ++ new ∧
      s'.trail.table = new.foldl (fun table b => Trail.addTo b.pattern.id b.expr table) []) ∧
    Matcher.initial.run .empty constant x = (.ok false, Matcher.initial) ∧ Matcher.initial.trail = .empty := by
  intro c x any twice s' constant
  have hrun : (c.visit twice x).run .initial = (.ok true, s') := by cbv
  have hfailed : Matcher.initial.run .empty constant x = (.ok false, Matcher.initial) := by cbv
  exact ⟨⟨hrun, (commits_or_restores.1 c twice x .initial s' true hrun).2.2 rfl⟩,
    hfailed, commits_or_restores.2 _ _ _ _ _ hfailed⟩

end MatchContext
end Dataflow
