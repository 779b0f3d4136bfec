import Dataflow.Proofs.Match.Judgement
/-!
# Matching without holding patterns to their nodes

While bound patterns are not held to their nodes, as along the path of a dominator pattern, the bindings decide nothing: a
visit of a pattern without dominator patterns answers what the reading of the pattern says, sharing or not
(`answersUnheld_visit`).
-/
namespace Dataflow

open MatchM

/-- Whatever patterns it visits, a step gives a certain answer while none is held to its node. -/
def AnswersUnheld (_ : List Pattern) (m : MatchM Bool) (answer : Bool) : Prop :=
  ∀ s : Session, s.memoize = false →
    Ensures m s (fun matched s' => matched = answer ∧ s.Extends s') fun _ => True

namespace AnswersUnheld

variable {ps qs : List Pattern} {m : MatchM Bool} {answer : Bool} {c : MatchContext}

theorem pure : AnswersUnheld ps (Pure.pure answer) answer := fun s _ => ensures_pure.2 ⟨rfl, .refl s⟩

theorem bind {f : Bool → MatchM Bool} {g : Bool → Bool} (hm : AnswersUnheld ps m answer)
    (hf : ∀ matched, AnswersUnheld qs (f matched) (g matched)) : AnswersUnheld qs (m >>= f) (g answer) := by
  intro s hs
  refine ensures_bind.2 ((hm s hs).imp ?_)
  rintro _ s' ⟨rfl, hs'⟩
  exact (hf _ s' (hs'.memoize.trans hs)).imp fun _ _ hs'' => ⟨hs''.1, hs'.trans hs''.2⟩

theorem orUndo (hm : AnswersUnheld ps m answer) : AnswersUnheld ps (orUndo m) answer := fun s hs => by
  refine .orUndo ((hm s hs).imp ?_)
  rintro matched s' ⟨rfl, hs'⟩
  cases matched with
  | true => exact ⟨hs'.trail, rfl, hs'⟩
  | false => exact ⟨hs'.trail, rfl, hs'.withTrail⟩

theorem judgement : c.Judgement AnswersUnheld where
  pure := pure
  part h _ := h
  reverse := id
  not h := h.bind fun _ => pure
  and {_ _ _ _ _ answer₂} h₁ h₂ := h₁.bind (g := (· && answer₂)) fun matched => by
    cases matched with
    | true => exact h₂
    | false => exact pure
  cases {_ _ _ _ _ _ answer₁ answer₂} h _ h₁ h₂ :=
    h.bind (g := fun matched => if matched then answer₁ else answer₂) fun matched => by
      cases matched with
      | true => exact h₁
      | false => exact h₂
  orUndo := orUndo
  checkFollow e _ _ _ h s hs := by
    rw [ensures_bind, ensures_checkFollow]
    split
    · trivial
    · exact h s hs
  heldBy d e s _ := by
    cases d.heldBy c.registry e with
    | error => trivial
    | ok held => exact ⟨rfl, .refl s⟩

theorem anyM {α : Type} {f : α → MatchM Bool} {answers : α → Bool} : ∀ {l : List α},
    (∀ a ∈ l, AnswersUnheld ps (f a) (answers a)) → AnswersUnheld ps (l.anyM f) (l.any answers)
  | [], _ => pure
  | a :: l, h => by
    obtain ⟨ha, hl⟩ := List.forall_mem_cons.1 h
    rw [List.anyM_cons, List.any_cons]
    refine ha.bind (g := (· || l.any answers)) fun matched => ?_
    cases matched with
    | true => exact pure
    | false => exact anyM hl

/-- The rule decides, since no pattern is held to a node. -/
theorem attempt {p : Pattern} {e : Expr} {rule : MatchM Bool} (h : AnswersUnheld ps rule answer) :
    AnswersUnheld qs (attempt p e rule) answer := fun s hs => by
  refine .attempt (fun _ hheld _ => ?_) fun _ => (h s hs).imp ?_
  · rw [hs] at hheld
    cases hheld
  · rintro matched s' ⟨rfl, hs'⟩
    cases matched with
    | true => exact ⟨hs'.trail, rfl, hs'.trans (s'.extends_bind p e)⟩
    | false => exact ⟨hs'.trail, rfl, hs'.withTrail⟩

theorem visitReassociated {p : Pattern} {e : Expr}
    (h : ∀ n, ∀ q ∈ Pattern.reassociations n p e, AnswersUnheld ps (c.visit q e) (c.reads q e)) :
    AnswersUnheld ps (c.visitReassociated p e) ((Pattern.reassociations 0 p e).any (c.reads · e)) := fun s hs => by
  have hany : AnswersUnheld ps ((Pattern.reassociations s.fresh p e).attach.anyM fun q => c.visit q.1 e)
      ((Pattern.reassociations s.fresh p e).attach.any fun q => c.reads q.1 e) := anyM fun q _ => h s.fresh q.1 q.2
  have hread : (Pattern.reassociations s.fresh p e).attach.any (fun q => c.reads q.1 e) =
      (Pattern.reassociations s.fresh p e).any (c.reads · e) :=
    List.any_subtype (fun _ _ => rfl) |>.trans (by rw [List.unattach_attach])
  rw [hread] at hany
  rw [MatchContext.any_reads_reassociations 0 s.fresh, MatchContext.visitReassociated, ensures_bind, ensures_takeFresh]
  refine (hany { s with fresh := s.fresh + Pattern.reassociationIds } hs).imp ?_
  rintro _ s' ⟨rfl, hs'⟩
  exact ⟨rfl, ⟨hs'.trail, Nat.le_trans (Nat.le_add_right ..) hs'.fresh⟩, hs'.memoize⟩

end AnswersUnheld

namespace MatchContext

/-- **Without holding patterns to their nodes, a visit answers what the reading says.** -/
theorem answersUnheld_visit (c : MatchContext) (p : Pattern) (e : Expr) (hdominator : p.containsDominator = false)
    (ps : List Pattern) : AnswersUnheld ps (c.visit p e) (c.reads p e) := by
  induction p, e using c.visit_induction generalizing ps with
  | step p e parts again =>
    have hpart : ∀ q ∈ p.children, ∀ f, AnswersUnheld [q] (c.visit q f) (c.reads q f) := fun q hq f =>
      parts q hq f (Pattern.containsDominator_eq_false_of_mem_children hq hdominator) [q]
    obtain ⟨rule, hvisit, hrule⟩ := AnswersUnheld.judgement.rule p e hdominator hpart <| .visitReassociated fun n q hq =>
      again n q hq (Pattern.containsDominator_eq_false_of_mem_reassociations hq hdominator) p.children
    rw [hvisit]
    exact hrule.attempt

end MatchContext
end Dataflow
