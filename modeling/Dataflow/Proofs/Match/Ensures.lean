import Dataflow.Match.Visit
import Dataflow.Proofs.Match.Trail
import Mathlib.Order.Defs.Unbundled
/-!
# What the steps of a match ensure

`Ensures` says what holds of the answer of a step and of the session after it, and which faults it may end in.  The
laws follow the way in which steps are put together; a search over a list keeps whatever every one of its steps
keeps (`Ensures.anyM`, `Ensures.allM`).  A search that can be taken back, for something that growing bindings do not
change, is put together from such searches (`Searches`).
-/
namespace Dataflow
namespace MatchM

variable {α β : Type} {s : Session} {faults : Fault → Prop}

/-- What holds of the answer and of the session after it, and of a fault. -/
def Ensures (m : MatchM α) (s : Session) (answers : α → Session → Prop) (faults : Fault → Prop) : Prop :=
  match m.run s with
  | (.ok a, s') => answers a s'
  | (.error fault, _) => faults fault

section
variable {answers answers' : α → Session → Prop} {results : β → Session → Prop}

theorem Ensures.of_run {m : MatchM α} {a : α} {s' : Session} (h : Ensures m s answers faults)
    (hrun : m.run s = (.ok a, s')) : answers a s' := by
  rw [Ensures, hrun] at h
  exact h

theorem Ensures.of_error {m : MatchM α} {fault : Fault} {s' : Session} (h : Ensures m s answers faults)
    (hrun : m.run s = (.error fault, s')) : faults fault := by
  rw [Ensures, hrun] at h
  exact h

theorem ensures_run (m : MatchM α) (s : Session) : Ensures m s (fun a s' => m.run s = (.ok a, s')) fun _ => True := by
  unfold Ensures
  split
  · assumption
  · trivial

theorem Ensures.imp {m : MatchM α} (h : Ensures m s answers faults) (himp : ∀ a s', answers a s' → answers' a s') :
    Ensures m s answers' faults := by
  unfold Ensures at h ⊢
  split at h
  · exact himp _ _ h
  · exact h

/-- What holds of every answer for two reasons. -/
theorem Ensures.and {m : MatchM α} {faults' : Fault → Prop} (h : Ensures m s answers faults)
    (h' : Ensures m s answers' faults') : Ensures m s (fun a s' => answers a s' ∧ answers' a s') faults := by
  unfold Ensures at h h' ⊢
  split at h
  · rename_i hrun
    rw [hrun] at h'
    exact ⟨h, h'⟩
  · exact h

theorem ensures_pure {a : α} : Ensures (pure a) s answers faults ↔ answers a s := Iff.rfl

theorem run_bind (m : MatchM α) (f : α → MatchM β) (s : Session) : (m >>= f).run s =
    match m.run s with
    | (.ok a, s') => (f a).run s'
    | (.error fault, s') => (.error fault, s') := by
  show (ExceptT.bindCont f (m.run s).1).run (m.run s).2 = _
  rcases m.run s with ⟨_ | _, _⟩ <;> rfl

theorem ensures_bind {m : MatchM α} {f : α → MatchM β} :
    Ensures (m >>= f) s results faults ↔ Ensures m s (fun a s' => Ensures (f a) s' results faults) faults := by
  unfold Ensures
  rw [run_bind]
  rcases m.run s with ⟨_ | _, _⟩ <;> exact Iff.rfl

end

section
variable {answers : Unit → Session → Prop}

theorem ensures_setMemoize {memoize : Bool} :
    Ensures (setMemoize memoize) s answers faults ↔ answers () { s with memoize } := Iff.rfl

theorem ensures_checkFollow {c : MatchContext} {e : Expr} :
    Ensures (checkFollow c e) s answers faults ↔ if c.isStuck e then faults .noBindings else answers () s := by
  rw [checkFollow]
  split <;> exact Iff.rfl

end

theorem ensures_takeFresh {n : Nat} {answers : Nat → Session → Prop} :
    Ensures (takeFresh n) s answers faults ↔ answers s.fresh { s with fresh := s.fresh + n } := Iff.rfl

end MatchM

/-! ## Sessions that grew -/

namespace Session

/-- Nothing was taken from the trail or given back to the supply of identities. -/
structure Grows (s s' : Session) : Prop where
  trail : s.trail.Grows s'.trail
  fresh : s.fresh ≤ s'.fresh

/-- Bound patterns are held to their nodes, or not, as before. -/
structure Extends (s s' : Session) : Prop extends Grows s s' where
  memoize : s'.memoize = s.memoize

/-- A session that differs at most in that its supply went on. -/
structure Later (s s' : Session) : Prop where
  trail : s'.trail = s.trail
  memoize : s'.memoize = s.memoize
  fresh : s.fresh ≤ s'.fresh

/-- No pattern with an identity from the supply is bound yet. -/
def Supplied (s : Session) : Prop := ∀ k, s.fresh ≤ k → s.trail.get? (.derived k) = none

def bind (s : Session) (p : Pattern) (e : Expr) : Session :=
  if p.isNegation then s else { s with trail := s.trail.commit p e }

def withTrail (s : Session) (t : Trail) : Session := { s with trail := t }

variable {s s' s'' : Session}

theorem Grows.refl (s : Session) : s.Grows s := ⟨.refl _, Nat.le_refl _⟩

theorem Grows.trans (h : s.Grows s') (h' : s'.Grows s'') : s.Grows s'' :=
  ⟨h.trail.trans h'.trail, Nat.le_trans h.fresh h'.fresh⟩

theorem Extends.refl (s : Session) : s.Extends s := ⟨.refl s, rfl⟩

theorem Extends.trans (h : s.Extends s') (h' : s'.Extends s'') : s.Extends s'' :=
  ⟨h.toGrows.trans h'.toGrows, h'.memoize.trans h.memoize⟩

instance : Std.Refl Grows := ⟨Grows.refl⟩

instance : IsTrans Session Grows := ⟨fun _ _ _ => Grows.trans⟩

instance : Std.Refl Extends := ⟨Extends.refl⟩

instance : IsTrans Session Extends := ⟨fun _ _ _ => Extends.trans⟩

theorem Later.refl (s : Session) : s.Later s := ⟨rfl, rfl, Nat.le_refl _⟩

theorem Later.trans (h : s.Later s') (h' : s'.Later s'') : s.Later s'' :=
  ⟨h'.trail.trans h.trail, h'.memoize.trans h.memoize, Nat.le_trans h.fresh h'.fresh⟩

theorem extends_bind (s : Session) (p : Pattern) (e : Expr) : s.Extends (s.bind p e) := by
  rw [bind]
  split
  · exact .refl s
  · exact ⟨⟨s.trail.grows_commit p e, Nat.le_refl _⟩, rfl⟩

theorem Extends.withTrail (h : s.Extends s') : s.Extends (s'.withTrail s.trail) := ⟨⟨.refl _, h.fresh⟩, h.memoize⟩

end Session

namespace MatchM

variable {s : Session} {faults : Fault → Prop} {answers : Bool → Session → Prop}

theorem run_rollback {s' : Session} (h : s.trail.Grows s'.trail) :
    (rollback s.trail.mark).run s' = (.ok (), s'.withTrail s.trail) := by
  obtain ⟨t', memoize, fresh⟩ := s'
  unfold rollback
  rw [ExceptT.run_mk]
  dsimp only
  rw [h.rollback]
  rfl

theorem ensures_rollback {s' : Session} {answers : Unit → Session → Prop} (h : s.trail.Grows s'.trail) :
    Ensures (rollback s.trail.mark) s' answers faults ↔ answers () (s'.withTrail s.trail) := by
  rw [Ensures, run_rollback h]

/-- A visit of a pattern that is held to a node compares the nodes.  Any other binds the pattern if its rule
succeeds, and otherwise leaves the trail as it was. -/
theorem Ensures.attempt {p : Pattern} {e : Expr} {rule : MatchM Bool}
    (hheld : ∀ bound, s.memoize = true → s.trail.get? p.id = some bound → answers (bound.id == e.id) s)
    (hrule : (s.memoize = true → s.trail.get? p.id = none) →
      Ensures rule s (fun matched s' => s.trail.Grows s'.trail ∧
        answers matched (if matched then s'.bind p e else s'.withTrail s.trail)) faults) :
    Ensures (attempt p e rule) s answers faults := by
  have hlookup : Ensures (held? p) s
      (fun held s' => s' = s ∧ held = if s.memoize then s.trail.get? p.id else none) faults := ⟨rfl, rfl⟩
  rw [MatchM.attempt, ensures_bind]
  refine hlookup.imp ?_
  rintro held s' ⟨rfl, hheld'⟩
  cases held with
  | some bound =>
    cases hm : s'.memoize with
    | false => simp [hm] at hheld'
    | true => exact hheld bound hm (by simpa [hm] using hheld'.symm)
  | none =>
    have hfree : s'.memoize = true → s'.trail.get? p.id = none := fun hm => by simpa [hm] using hheld'.symm
    simp only [ensures_bind]
    refine (hrule hfree).imp ?_
    rintro (_ | _) s' ⟨hgrows, hanswers⟩
    · exact ensures_bind.2 ((ensures_rollback hgrows).2 hanswers)
    · rw [if_pos rfl, Session.bind] at hanswers
      rw [if_pos rfl]
      by_cases hp : p.isNegation = true
      · rw [if_pos hp] at hanswers ⊢
        exact hanswers
      · rw [if_neg hp] at hanswers ⊢
        exact ensures_bind.2 hanswers

theorem Ensures.orUndo {search : MatchM Bool}
    (h : Ensures search s (fun matched s' => s.trail.Grows s'.trail ∧
      answers matched (if matched then s' else s'.withTrail s.trail)) faults) :
    Ensures (orUndo search) s answers faults := by
  rw [MatchM.orUndo]
  simp only [ensures_bind]
  refine h.imp ?_
  rintro (_ | _) s' ⟨hgrows, hanswers⟩
  · exact ensures_bind.2 ((ensures_rollback hgrows).2 hanswers)
  · exact hanswers

/-! ## Searching a list -/

section
variable {α : Type} {R : Session → Session → Prop} [Std.Refl R] [IsTrans Session R] {P : α → Session → Prop}
  {f : α → MatchM Bool}

theorem Ensures.anyM : ∀ (l : List α) {s : Session}, (∀ a ∈ l, ∀ s', R s s' →
      Ensures (f a) s' (fun matched s'' => R s' s'' ∧ (matched = true → P a s'')) faults) →
    Ensures (l.anyM f) s (fun matched s' => R s s' ∧ (matched = true → ∃ a ∈ l, P a s')) faults
  | [], s, _ => by
    rw [List.anyM_nil, ensures_pure]
    exact ⟨refl_of R s, fun ht => absurd ht Bool.false_ne_true⟩
  | a :: l, s, h => by
    rw [List.anyM_cons, ensures_bind]
    refine (h a (by simp) s (refl_of R s)).imp ?_
    rintro (_ | _) s' ⟨hs', hm⟩
    · have hl := Ensures.anyM l fun b hb s'' hs'' => h b (by simp [hb]) s'' (trans_of R hs' hs'')
      refine hl.imp ?_
      rintro matched s'' ⟨hs'', hm'⟩
      refine ⟨trans_of R hs' hs'', fun ht => ?_⟩
      obtain ⟨b, hb, hp⟩ := hm' ht
      exact ⟨b, by simp [hb], hp⟩
    · exact ensures_pure.2 ⟨hs', fun _ => ⟨a, by simp, hm rfl⟩⟩

/-- What holds after one of the steps has to stay, to hold after all of them. -/
theorem Ensures.allM (hstays : ∀ a s s', R s s' → P a s → P a s') : ∀ (l : List α) {s : Session},
    (∀ a ∈ l, ∀ s', R s s' →
      Ensures (f a) s' (fun matched s'' => R s' s'' ∧ (matched = true → P a s'')) faults) →
    Ensures (l.allM f) s (fun matched s' => R s s' ∧ (matched = true → ∀ a ∈ l, P a s')) faults
  | [], s, _ => by
    rw [List.allM_nil, ensures_pure]
    exact ⟨refl_of R s, fun _ => List.forall_mem_nil _⟩
  | a :: l, s, h => by
    rw [List.allM_cons, ensures_bind]
    refine (h a (by simp) s (refl_of R s)).imp ?_
    rintro (_ | _) s' ⟨hs', hm⟩
    · exact ensures_pure.2 ⟨hs', fun ht => absurd ht Bool.false_ne_true⟩
    · have hl := Ensures.allM hstays l fun b hb s'' hs'' =>
        h b (by simp [hb]) s'' (trans_of R hs' hs'')
      refine hl.imp ?_
      rintro matched s'' ⟨hs'', hm'⟩
      refine ⟨trans_of R hs' hs'', fun ht => ?_⟩
      exact List.forall_mem_cons.2 ⟨hstays a s' s'' hs'' (hm rfl), hm' ht⟩

end

/-! ## Searches for what holds of the trail -/

/-- From a session that is ready, a search leads to a related one, and what it is for holds there if it succeeds. -/
def Searches (ready : Session → Prop) (R : Session → Session → Prop) (m : MatchM Bool) (found : Trail → Prop) : Prop :=
  ∀ s, ready s → Ensures m s (fun matched s' => R s s' ∧ (matched = true → found s'.trail)) fun _ => True

/-- One search can follow another, and be taken back. -/
class Searchable (ready : Session → Prop) (R : Session → Session → Prop) : Prop where
  ready : ∀ s s', ready s → R s s' → ready s'
  grows : ∀ s s', R s s' → s.trail.Grows s'.trail
  withTrail : ∀ s s', R s s' → R s (s'.withTrail s.trail)

namespace Searches

variable {ready : Session → Prop} {R : Session → Session → Prop} {m m₁ m₂ : MatchM Bool}
  {found found₁ found₂ : Trail → Prop}

theorem imp (h : Searches ready R m found₁) (himp : ∀ t, found₁ t → found₂ t) : Searches ready R m found₂ :=
  fun s hs => (h s hs).imp fun _ s' hs' => ⟨hs'.1, fun hm => himp s'.trail (hs'.2 hm)⟩

theorem ite {b : Prop} [Decidable b] (h₁ : b → Searches ready R m₁ found) (h₂ : ¬b → Searches ready R m₂ found) :
    Searches ready R (if b then m₁ else m₂) found := by
  split
  · exact h₁ ‹_›
  · exact h₂ ‹_›

theorem answer [Std.Refl R] {matched : Bool} (h : matched = true → ∀ t, found t) :
    Searches ready R (pure matched) found := fun s _ => ensures_pure.2 ⟨refl_of R s, fun hm => h hm s.trail⟩

theorem fails [Std.Refl R] : Searches ready R (pure false) found := answer fun h => absurd h Bool.false_ne_true

theorem checkFollow {c : MatchContext} {e : Expr} (hm : Searches ready R m found) :
    Searches ready R (MatchM.checkFollow c e >>= fun _ => m) found := fun s hs => by
  rw [ensures_bind, ensures_checkFollow]
  split
  · trivial
  · exact hm s hs

/-- What is found stays found while the search goes on, which what its first step answers decides how. -/
theorem cases [IsTrans Session R] [Searchable ready R] (hm : Searches ready R m found)
    (hstays : ∀ t t', t.Grows t' → found t → found t') (h₁ : Searches ready R m₁ found₁)
    (h₂ : Searches ready R m₂ found₂) : Searches ready R (m >>= fun matched => if matched then m₁ else m₂)
      fun t => (found t ∧ found₁ t) ∨ found₂ t := by
  intro s hs
  refine ensures_bind.2 ((hm s hs).imp ?_)
  rintro matched s' ⟨hs', hfound⟩
  have hready : ready s' := Searchable.ready s s' hs hs'
  cases matched with
  | true =>
    refine (h₁ s' hready).imp ?_
    rintro _ s'' ⟨hs'', hfound₁⟩
    refine ⟨trans_of R hs' hs'', fun ht => .inl ⟨?_, hfound₁ ht⟩⟩
    exact hstays _ _ (Searchable.grows ready s' s'' hs'') (hfound rfl)
  | false =>
    exact (h₂ s' hready).imp fun _ _ hs'' => ⟨trans_of R hs' hs''.1, fun ht => .inr (hs''.2 ht)⟩

theorem and [Std.Refl R] [IsTrans Session R] [Searchable ready R] (hm : Searches ready R m found)
    (hstays : ∀ t t', t.Grows t' → found t → found t') (h₁ : Searches ready R m₁ found₁) :
    Searches ready R (m >>= fun matched => if matched then m₁ else pure false) fun t => found t ∧ found₁ t := by
  have hfails : Searches ready R (pure false) fun _ => False := fails
  exact (hm.cases hstays h₁ hfails).imp fun _ h => h.resolve_right id

theorem or [Std.Refl R] [IsTrans Session R] [Searchable ready R] (hm : Searches ready R m found)
    (hstays : ∀ t t', t.Grows t' → found t → found t') (h₂ : Searches ready R m₂ found₂) :
    Searches ready R (m >>= fun matched => if matched then pure true else m₂) fun t => found t ∨ found₂ t := by
  have hanswer : Searches ready R (pure true) fun _ => True := answer fun _ _ => trivial
  exact (hm.cases hstays hanswer h₂).imp fun _ h => h.imp_left (·.1)

theorem not (hm : Searches ready R m found) :
    Searches ready R (m >>= fun matched => pure !matched) fun _ => True := fun s hs =>
  ensures_bind.2 ((hm s hs).imp fun _ _ hs' => ensures_pure.2 ⟨hs'.1, fun _ => trivial⟩)

theorem lift [Std.Refl R] {answer : Except Fault Bool} :
    Searches ready R (liftM answer : MatchM Bool) fun _ => answer = .ok true := fun s _ => by
  cases answer with
  | error => trivial
  | ok matched => exact ⟨refl_of R s, fun hm => congrArg Except.ok hm⟩

theorem orUndo [Searchable ready R] (hm : Searches ready R m found) : Searches ready R (MatchM.orUndo m) found :=
  fun s hs => by
    refine .orUndo ((hm s hs).imp ?_)
    rintro (_ | _) s' ⟨hs', hfound⟩
    all_goals refine ⟨Searchable.grows ready s s' hs', ?_⟩
    · exact ⟨Searchable.withTrail ready s s' hs', fun ht => absurd ht Bool.false_ne_true⟩
    · exact ⟨hs', hfound⟩

end Searches
end MatchM
end Dataflow
