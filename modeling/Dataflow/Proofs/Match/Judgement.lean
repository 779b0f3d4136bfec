import Dataflow.Proofs.Match.Reading
import Dataflow.Proofs.Match.Rollback
/-!
# What the rule of a pattern answers

A judgement says of a step that visits some patterns what it answers.  If judgements can be put together as the rules of
patterns are (`Judgement`), and the parts of a pattern answer what their readings say, then so does its rule
(`Judgement.rule`).
-/
namespace Dataflow
namespace MatchContext

open MatchM

structure Judgement (c : MatchContext) (J : List Pattern → MatchM Bool → Bool → Prop) : Prop where
  pure : ∀ {ps : List Pattern} {answer : Bool}, J ps (Pure.pure answer) answer
  part : ∀ {ps : List Pattern} {q : Pattern} {m : MatchM Bool} {answer : Bool}, J [q] m answer → q ∈ ps → J ps m answer
  reverse : ∀ {ps : List Pattern} {m : MatchM Bool} {answer : Bool}, J ps.reverse m answer → J ps m answer
  not : ∀ {ps : List Pattern} {m : MatchM Bool} {answer : Bool}, J ps m answer →
    J ps (m >>= fun matched => Pure.pure !matched) !answer
  and : ∀ {ps qs : List Pattern} {m₁ m₂ : MatchM Bool} {answer₁ answer₂ : Bool}, J ps m₁ answer₁ → J qs m₂ answer₂ →
    J (ps ++ qs) (m₁ >>= fun matched => if matched then m₂ else Pure.pure false) (answer₁ && answer₂)
  cases : ∀ {ps qs : List Pattern} {m m₁ m₂ : MatchM Bool} {answer answer₁ answer₂ : Bool}, J ps m answer → Atomic m →
    J qs m₁ answer₁ → J (ps ++ qs) m₂ answer₂ →
      J (ps ++ qs) (m >>= fun matched => if matched then m₁ else m₂) (if answer then answer₁ else answer₂)
  orUndo : ∀ {ps : List Pattern} {m : MatchM Bool} {answer : Bool}, J ps m answer → J ps (orUndo m) answer
  checkFollow : ∀ (e : Expr) {ps : List Pattern} {m : MatchM Bool} {answer : Bool}, J ps m answer →
    J ps (checkFollow c e >>= fun _ => m) answer
  heldBy : ∀ {ps : List Pattern} (d : LiteralDict) (e : Expr),
    J ps (liftM (d.heldBy c.registry e) : MatchM Bool)
      (match d.heldBy c.registry e with
        | .ok held => held
        | .error _ => false)

namespace Judgement

variable {c : MatchContext} {J : List Pattern → MatchM Bool → Bool → Prop} {ps : List Pattern} {m : MatchM Bool}
  {answer answer₂ : Bool}

theorem guard (h : c.Judgement J) {b : Bool} (hm : J ps m answer) :
    J ps (if b then m else Pure.pure false) (b && answer) := by
  cases b with
  | true => exact hm
  | false => exact h.pure

theorem otherwise (h : c.Judgement J) {b : Bool} (hm : J ps m answer) :
    J ps (if b then Pure.pure true else m) (b || answer) := by
  cases b with
  | true => exact h.pure
  | false => exact hm

theorem or (h : c.Judgement J) {m₂ : MatchM Bool} (hm : J ps m answer) (hatomic : Atomic m) (h₂ : J ps m₂ answer₂) :
    J ps (m >>= fun matched => if matched then Pure.pure true else m₂) (answer || answer₂) := by
  have hdone : J [] (Pure.pure true) true := h.pure
  have hcases := h.cases hm hatomic hdone ((List.append_nil ps).symm ▸ h₂)
  rw [List.append_nil] at hcases
  cases answer <;> exact hcases

theorem visitAll (h : c.Judgement J) : ∀ {ps : List Pattern} {es : List Expr},
    (∀ p ∈ ps, ∀ e, J [p] (c.visit p e) (c.reads p e)) → J ps (c.visitAll ps es) (c.readsAll ps es)
  | [], [], _ => by
    rw [MatchContext.visitAll, MatchContext.readsAll]
    exact h.pure
  | [], _ :: _, _ | _ :: _, [], _ => by
    rw [MatchContext.visitAll, MatchContext.readsAll] <;> first | exact h.pure | simp
  | p :: ps, e :: es, hall => by
    obtain ⟨hp, hps⟩ := List.forall_mem_cons.1 hall
    rw [MatchContext.visitAll]
    split
    · rw [MatchContext.readsAll]
      exact h.and (hp e) (h.visitAll hps)
    · rename_i hlength
      rw [MatchContext.readsAll_eq_false_of_length_ne (by simpa using hlength)]
      exact h.pure

/-- **A rule answers what the pattern says, if its parts do.** -/
theorem rule (h : c.Judgement J) (p : Pattern) (e : Expr) (hdominator : p.containsDominator = false)
    (hpart : ∀ q ∈ p.children, ∀ f, J [q] (c.visit q f) (c.reads q f))
    (hagain : J p.children (c.visitReassociated p (c.follow e))
      ((Pattern.reassociations 0 p (c.follow e)).any (c.reads · (c.follow e)))) :
    ∃ rule, c.visit p e = attempt p e rule ∧ J p.children rule (c.reads p e) := by
  refine ⟨_, visit.eq_def c p e, ?_⟩
  rw [reads.eq_def c p e]
  cases p with
  | wildcard | var | runtimeShape => exact h.pure
  | constant | anyTuple | dims | external =>
    refine h.checkFollow e ?_
    cases c.follow e <;> exact h.pure
  | expr => exact h.otherwise (h.checkFollow e h.pure)
  | either _ l r =>
    have hboth : ∀ q ∈ [l, r], J [l, r] (c.visit q e) (c.reads q e) := fun q hq => h.part (hpart q hq e) hq
    exact h.or (hboth l (by simp)) (visit_atomic c l e) (hboth r (by simp))
  | both _ l r => exact h.and (hpart l (by simp [Pattern.children]) e) (hpart r (by simp [Pattern.children]) e)
  | negation _ q => exact h.not (hpart q (by simp [Pattern.children]) e)
  | tuple _ ps =>
    refine h.checkFollow e ?_
    cases c.follow e with
    | tuple => exact h.visitAll hpart
    | _ => exact h.pure
  | item _ q index =>
    refine h.checkFollow e ?_
    cases c.follow e with
    | item _ t => exact h.guard (hpart q (by simp [Pattern.children]) t)
    | _ => exact h.pure
  | function _ ps q =>
    refine h.checkFollow e ?_
    cases c.follow e with
    | function _ params body =>
      exact h.and (h.visitAll fun r hr => hpart r (by simp [Pattern.children, hr]))
        (hpart q (by simp [Pattern.children]) body)
    | _ => exact h.pure
  | anyFunction _ q =>
    refine h.checkFollow e ?_
    cases c.follow e with
    | function _ _ body => exact hpart q (by simp [Pattern.children]) body
    | _ => exact h.pure
  | anyCall _ q =>
    refine h.checkFollow e ?_
    cases c.follow e with
    | call _ f => exact hpart q (by simp [Pattern.children]) f
    | _ => exact h.pure
  | cond _ q₁ q₂ q₃ =>
    refine h.checkFollow e ?_
    cases c.follow e with
    | cond _ e₁ e₂ e₃ =>
      exact h.and (hpart q₁ (by simp [Pattern.children]) e₁)
        (h.and (hpart q₂ (by simp [Pattern.children]) e₂) (hpart q₃ (by simp [Pattern.children]) e₃))
    | _ => exact h.pure
  | call i callee ps =>
    refine h.checkFollow e ?_
    rw [← reads.eq_def c (.call i callee ps) e]
    split
    · rename_i j f args attrs hf
      rw [hf] at hagain
      rw [reads_call hf, hf]
      have hargs : ∀ {qs}, (∀ q ∈ qs, q ∈ ps) → J qs (MatchM.orUndo (c.visitAll qs args)) (c.readsAll qs args) :=
        fun hqs => h.orUndo (h.visitAll fun q hq => hpart q (by simp [Pattern.children, hqs q hq]))
      have hatomic : Atomic (MatchM.orUndo (c.visitAll ps args)) :=
        atomic_orUndo (.visitAll fun q _ g => (visit_atomic c q g).keeps)
      have hswapped : J ps (MatchM.orUndo (c.visitAll ps.reverse args)) (c.readsAll ps.reverse args) :=
        h.reverse (hargs fun _ => List.mem_reverse.1)
      exact h.cases (hpart callee (by simp [Pattern.children]) f) (visit_atomic c callee f)
        (h.or (hargs fun _ hq => hq) hatomic (h.guard hswapped)) (h.guard hagain)
    · rename_i hf
      have hfalse : c.reads (.call i callee ps) e = false := by
        rw [reads]
        split
        · exact absurd ‹_› (hf _ _ _ _)
        · rfl
      rw [hfalse]
      exact h.pure
  | hasAttrs _ q attrs =>
    have hheld : J [] (MatchM.checkFollow c e >>= fun _ => liftM (attrs.heldBy c.registry (c.follow e))) _ :=
      h.checkFollow e (h.heldBy attrs (c.follow e))
    exact h.and (hpart q (by simp [Pattern.children]) e) hheld
  | hasType _ q | hasShape _ q | hasDType _ q => exact h.guard (hpart q (by simp [Pattern.children]) e)
  | dominator =>
    rw [Pattern.containsDominator] at hdominator
    cases hdominator

end Judgement
end MatchContext
end Dataflow
