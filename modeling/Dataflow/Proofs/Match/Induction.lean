import Dataflow.Match.Matcher
import Dataflow.Proofs.Match.Ensures
import Dataflow.Proofs.Pattern.Parts
/-!
# Induction over a match

A visit of a pattern visits its parts, or a re-association of it with the same expression.  What follows from the
same for these holds of every visit (`visit_induction`).
-/
namespace Dataflow
namespace Pattern

/-- Only calls have re-associated patterns to be matched with. -/
theorem var?_of_mem_reassociations {n : Nat} {p q : Pattern} {e : Expr} (h : q ∈ reassociations n p e) :
    e.var? = none := by
  cases e with
  | var i v =>
    rw [reassociations] at h
    simp only [Expr.nests, Bool.false_eq_true, if_false] at h
    split at h <;> split at h <;> exact absurd h List.not_mem_nil
  | _ => rfl

end Pattern

namespace MatchContext

/-- **Induction over a match**: over the parts of a pattern, and over its re-associations for one expression. -/
theorem visit_induction (c : MatchContext) {motive : Pattern → Expr → Prop}
    (step : ∀ p e, (∀ q ∈ p.children, ∀ f, motive q f) →
      (∀ n, ∀ q ∈ Pattern.reassociations n p (c.follow e), motive q (c.follow e)) → motive p e) :
    ∀ p e, motive p e := fun p e =>
  step p e (fun q _ f => visit_induction c step q f) fun _ q _ => visit_induction c step q (c.follow e)
termination_by p e => (p.size, (Pattern.reassociations 0 p (c.follow e)).length)
decreasing_by
  · exact Prod.Lex.left _ _ (Pattern.size_lt_of_mem_children ‹_›)
  · have hq : q ∈ Pattern.reassociations _ p (c.follow e) := ‹_›
    rw [Pattern.size_of_mem_reassociations hq, c.follow_of_var?_eq_none (Pattern.var?_of_mem_reassociations hq),
      Pattern.reassociations_of_mem hq, Pattern.length_reassociations 0 _]
    exact Prod.Lex.right _ (List.length_pos_of_mem hq)

variable {c : MatchContext} {faults : Fault → Prop} {R : Session → Session → Prop} [Std.Refl R] [IsTrans Session R]
  {P : Pattern → Expr → Session → Prop}

open MatchM

theorem ensures_visitAll (hstays : ∀ p e s s', R s s' → P p e s → P p e s') :
    ∀ (ps : List Pattern) (es : List Expr) {s : Session},
    (∀ p ∈ ps, ∀ e ∈ es, ∀ s', R s s' →
      Ensures (c.visit p e) s' (fun matched s'' => R s' s'' ∧ (matched = true → P p e s'')) faults) →
    Ensures (c.visitAll ps es) s
      (fun matched s' => R s s' ∧ (matched = true → List.Forall₂ (fun p e => P p e s') ps es)) faults
  | [], [], s, _ => by
    rw [visitAll, ensures_pure]
    exact ⟨refl_of R s, fun _ => .nil⟩
  | [], _ :: _, s, _ | _ :: _, [], s, _ => by
    rw [visitAll, ensures_pure]
    · exact ⟨refl_of R s, fun ht => absurd ht Bool.false_ne_true⟩
    all_goals simp
  | p :: ps, e :: es, s, h => by
    rw [visitAll]
    split
    · rw [ensures_bind]
      refine (h p (by simp) e (by simp) s (refl_of R s)).imp ?_
      rintro (_ | _) s' ⟨hs', hm⟩
      · exact ensures_pure.2 ⟨hs', fun ht => absurd ht Bool.false_ne_true⟩
      · have hall := ensures_visitAll hstays ps es fun q hq f hf s'' hs'' =>
          h q (by simp [hq]) f (by simp [hf]) s'' (trans_of R hs' hs'')
        refine hall.imp ?_
        rintro matched s'' ⟨hs'', hm'⟩
        refine ⟨trans_of R hs' hs'', fun ht => ?_⟩
        exact .cons (hstays p e s' s'' hs'' (hm rfl)) (hm' ht)
    · exact ensures_pure.2 ⟨refl_of R s, fun ht => absurd ht Bool.false_ne_true⟩

/-- Patterns and expressions are searched in order, and what one search finds the others leave. -/
theorem searches_visitAll {ready : Session → Prop} [Searchable ready R] {found : Pattern → Expr → Trail → Prop}
    {ps : List Pattern} {es : List Expr} (hstays : ∀ p e t t', t.Grows t' → found p e t → found p e t')
    (h : ∀ p ∈ ps, ∀ e ∈ es, Searches ready R (c.visit p e) (found p e)) :
    Searches ready R (c.visitAll ps es) fun t => List.Forall₂ (fun p e => found p e t) ps es :=
  fun s hs => ensures_visitAll (R := R) (P := fun p e s => found p e s.trail)
    (fun p e s s' hs' => hstays p e _ _ (Searchable.grows ready s s' hs')) ps es fun p hp e he s' hs' =>
      h p hp e he s' (Searchable.ready s s' hs hs')

/-- A match that gives an answer is a visit from the initial session. -/
theorem visit_of_run {m m' : Matcher} {registry : Registry} {p : Pattern} {e : Expr} {matched : Bool}
    (h : m.run registry p e = (.ok matched, m')) : ∃ s' : Session,
      (((if p.containsDominator then m.prepareGraph e else m).context registry).visit p e).run .initial =
        (.ok matched, s') ∧ m'.trail = s'.trail := by
  unfold Matcher.run at h
  split at h
  · cases h
  · obtain ⟨hanswer, rfl⟩ := Prod.mk.inj h
    exact ⟨_, Prod.ext hanswer rfl, rfl⟩

/-- The matcher that is returned keeps the context of the match. -/
theorem context_of_run {m m' : Matcher} {registry : Registry} {p : Pattern} {e : Expr} {matched : Bool}
    (h : m.run registry p e = (.ok matched, m')) :
    m'.context registry = (if p.containsDominator then m.prepareGraph e else m).context registry := by
  unfold Matcher.run at h
  split at h
  · cases h
  · obtain ⟨-, rfl⟩ := Prod.mk.inj h
    rfl

end MatchContext
end Dataflow
