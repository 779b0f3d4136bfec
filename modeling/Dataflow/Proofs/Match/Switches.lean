import Dataflow.Proofs.Match.Linear
/-!
# More search rules

A configuration is extended by one that has every search rule switched on that it has itself.  More rules change which
alternative is bound, but a pattern without negation and without sharing that matched matches still
(`run_of_extendedBy`).  One rule could get in the way of another: a call with a callee that matches is held to its
arguments, and re-association is tried where the callee does not match.  But only calls of an operator are
re-associated, and whether an expression is an operator is not searched for (`reads_withConfig_of_operator`).
-/
namespace Dataflow

/-- Variables are followed or not as before, and every search rule that was switched on still is. -/
structure Config.ExtendedBy (k k' : Config) : Prop where
  autoJump : k'.autoJump = k.autoJump
  commutative : k.commutative = true → k'.commutative = true
  associative : k.associative = true → k'.associative = true

/-- No negation occurs in a pattern. -/
def Pattern.Positive (p : Pattern) : Prop := ∀ i q, ¬p.Reaches (.negation i q)

namespace Pattern.Positive

variable {p q : Pattern}

theorem child (h : p.Positive) (hq : q ∈ p.children) : q.Positive := fun i r hr =>
  h i r ((Reaches.refl.child hq).trans hr)

theorem of_mem_reassociations {n : Nat} {e : Expr} (h : p.Positive) (hq : q ∈ reassociations n p e) : q.Positive :=
  fun i r hr => h i r (reaches_of_mem_reassociations_of_ne_call hq hr (by simp))

end Pattern.Positive

namespace MatchContext

/-- The same context with other switches. -/
def withConfig (c : MatchContext) (k : Config) : MatchContext := { c with config := k }

variable {c : MatchContext} {k : Config}

theorem follow_withConfig (h : c.config.ExtendedBy k) (e : Expr) : (c.withConfig k).follow e = c.follow e := by
  unfold follow
  rw [show (c.withConfig k).config.autoJump = c.config.autoJump from h.autoJump]
  rfl

/-- The search rules do not decide whether an expression is a certain operator. -/
theorem reads_withConfig_of_operator (h : c.config.ExtendedBy k) {p : Pattern} (hp : p.operator?.isSome = true)
    (e : Expr) : (c.withConfig k).reads p e = c.reads p e := by
  cases p with
  | expr i target => rw [reads, reads, follow_withConfig h]
  | _ => cases hp

/-- A call matches by more rules if its callee, its arguments in both orders and its re-associations do. -/
theorem reads_call_withConfig (h : c.config.ExtendedBy k) {i : PatternId} {callee : Pattern} {ps : List Pattern}
    {e : Expr} (hcallee : ∀ f, c.reads callee f = true → (c.withConfig k).reads callee f = true)
    (hargs : ∀ (qs : List Pattern) (es : List Expr), (∀ q ∈ qs, q ∈ ps) →
      c.readsAll qs es = true → (c.withConfig k).readsAll qs es = true)
    (hagain : (Pattern.reassociations 0 (.call i callee ps) (c.follow e)).any (c.reads · (c.follow e)) = true →
      (Pattern.reassociations 0 (.call i callee ps) (c.follow e)).any ((c.withConfig k).reads · (c.follow e)) = true) :
    c.reads (.call i callee ps) e = true → (c.withConfig k).reads (.call i callee ps) e = true := by
  cases hf : c.follow e with
  | call j f args attrs =>
    rw [reads_call hf, reads_call ((follow_withConfig h e).trans hf), follow_withConfig h]
    split
    · rename_i hmatches
      rw [if_pos (hcallee f hmatches)]
      exact comparison_imp.or (hargs ps args fun _ hq => hq)
        (comparison_imp.and (comparison_imp.and h.commutative id) (hargs ps.reverse args fun _ => List.mem_reverse.1))
    · rename_i hfails
      intro hmatched
      -- re-association was tried, so the callee is an operator, and does not match by more rules either
      obtain ⟨q, hq, -⟩ := List.any_eq_true.1 (Bool.and_eq_true_iff.1 hmatched).2
      rw [reads_withConfig_of_operator h (Pattern.operator?_of_mem_reassociations hq), if_neg hfails]
      exact comparison_imp.and h.associative hagain hmatched
  | _ =>
    rw [reads, hf]
    exact fun hfalse => absurd hfalse Bool.false_ne_true

/-- **What a pattern says by some search rules it says by more.** -/
theorem reads_withConfig (h : c.config.ExtendedBy k) (p : Pattern) (e : Expr) (hp : p.Positive) :
    c.reads p e = true → (c.withConfig k).reads p e = true := by
  induction p, e using c.visit_induction with
  | step p e parts again =>
    have hpart : ∀ q ∈ p.children, ∀ f, c.reads q f = true → (c.withConfig k).reads q f = true := fun q hq f =>
      parts q hq f (hp.child hq)
    have hall : ∀ {qs : List Pattern} {es : List Expr}, (∀ q ∈ qs, q ∈ p.children) →
        c.readsAll qs es = true → (c.withConfig k).readsAll qs es = true := fun {qs es} hqs => by
      have := readsAll_compare comparison_imp fun q hq f (_ : f ∈ es) => hpart q (hqs q hq) f
      rwa [List.map_id'] at this
    have hfollow : (c.withConfig k).follow e = c.follow e := follow_withConfig h e
    cases p with
    | wildcard | var | runtimeShape =>
      rw [reads, reads]
      exact id
    | constant | external | expr | anyTuple | dims =>
      rw [reads, reads, hfollow]
      exact id
    | either _ l r =>
      rw [reads, reads]
      exact comparison_imp.or (hpart l (by simp [Pattern.children]) e) (hpart r (by simp [Pattern.children]) e)
    | both _ l r =>
      rw [reads, reads]
      exact comparison_imp.and (hpart l (by simp [Pattern.children]) e) (hpart r (by simp [Pattern.children]) e)
    | negation i q => exact absurd .refl (hp i q)
    | tuple _ ps =>
      rw [reads, reads, hfollow]
      cases c.follow e with
      | tuple => exact hall fun _ hq => hq
      | _ => exact id
    | item _ q =>
      rw [reads, reads, hfollow]
      cases c.follow e with
      | item _ t => exact comparison_imp.and (id) (hpart q (by simp [Pattern.children]) t)
      | _ => exact id
    | function _ ps q =>
      rw [reads, reads, hfollow]
      cases c.follow e with
      | function _ params body =>
        exact comparison_imp.and (hall fun r hr => by simp [Pattern.children, hr])
          (hpart q (by simp [Pattern.children]) body)
      | _ => exact id
    | anyFunction _ q =>
      rw [reads, reads, hfollow]
      cases c.follow e with
      | function _ _ body => exact hpart q (by simp [Pattern.children]) body
      | _ => exact id
    | cond _ q₁ q₂ q₃ =>
      rw [reads, reads, hfollow]
      cases c.follow e with
      | cond _ e₁ e₂ e₃ =>
        exact comparison_imp.and (hpart q₁ (by simp [Pattern.children]) e₁)
          (comparison_imp.and (hpart q₂ (by simp [Pattern.children]) e₂) (hpart q₃ (by simp [Pattern.children]) e₃))
      | _ => exact id
    | anyCall _ callee =>
      rw [reads, reads, hfollow]
      cases c.follow e with
      | call _ f => exact hpart callee (by simp [Pattern.children]) f
      | _ => exact id
    | call i callee ps =>
      refine reads_call_withConfig h (hpart callee (by simp [Pattern.children])) (fun _ _ hqs => ?_) ?_
      · exact hall fun q hq => List.mem_cons_of_mem callee (hqs q hq)
      · exact comparison_imp.any fun q hq => again 0 q hq (hp.of_mem_reassociations hq)
    | hasAttrs _ q =>
      rw [reads, reads, hfollow]
      exact comparison_imp.and (hpart q (by simp [Pattern.children]) e) (id)
    | hasType _ q | hasShape _ q | hasDType _ q =>
      rw [reads, reads]
      exact comparison_imp.and (id) (hpart q (by simp [Pattern.children]) e)
    | dominator =>
      rw [reads]
      exact fun hfalse => absurd hfalse Bool.false_ne_true

end MatchContext

namespace Matcher

open MatchContext MatchM

/-- **More search rules never lose a match.**  If a pattern without negation, dominator patterns and sharing matches, it
matches with more search rules switched on as well, unless comparing an attribute ends that match.  What is bound can
be something else. -/
theorem run_of_extendedBy (m : Matcher) (registry : Registry) (p : Pattern) (e : Expr) (hp : p.Numbered)
    (hlinear : p.Linear) (hdominator : p.containsDominator = false) (hpositive : p.Positive) (k : Config)
    (hk : m.config.ExtendedBy k)
    (hattrs : ∀ fault, ((m.withConfig k).run registry p e).1 = .error fault → ¬fault.OfAttribute)
    (hmatched : (m.run registry p e).1 = .ok true) : ((m.withConfig k).run registry p e).1 = .ok true := by
  have hbegins : ¬(m.config.autoJump && m.bindings.isNone) = true := fun hstuck => by
    rw [run, if_pos hstuck] at hmatched
    cases hmatched
  have hbegins' : ¬((m.withConfig k).config.autoJump && (m.withConfig k).bindings.isNone) = true := by
    rw [show (m.withConfig k).config.autoJump = m.config.autoJump from hk.autoJump]
    exact hbegins
  obtain ⟨hrun, hanswer⟩ := says_run (e := e) (m := m) hp hlinear hdominator hbegins
  obtain ⟨hrun', hanswer'⟩ := says_run (e := e) (m := m.withConfig k) hp hlinear hdominator hbegins'
  rw [hrun] at hmatched
  have hreads : (m.context registry).reads p e = true := (hanswer.of_run (Prod.ext hmatched rfl)).symm
  rw [hrun'] at hattrs ⊢
  rcases hvisit : (((m.withConfig k).context registry).visit p e).run .initial with ⟨fault | matched, s'⟩
  · exact absurd (hanswer'.of_error hvisit) (hattrs fault (by rw [hvisit]))
  · rw [hanswer'.of_run hvisit]
    exact congrArg Except.ok (reads_withConfig hk p e hpositive hreads)

/-- A sum of a constant and anything, or else any sum, matches `x + 1` without search rules by the second alternative
and with all of them by the first. -/
theorem run_of_extendedBy_of_swapped_alternative :
    let plus := Expr.op ⟨0, none, none⟩ ⟨"add", some 2⟩
    let x := Expr.var ⟨1, none, none⟩ ⟨0, "x"⟩
    let one := Expr.constant ⟨2, none, none⟩ ⟨.scalar .int64, [], [.int 1]⟩
    let e := Expr.call ⟨3, none, none⟩ plus [x, one] none
    let sum := Pattern.call (.given 3) (.expr (.given 0) plus) [.constant (.given 1), .wildcard (.given 2)]
    let anySum := Pattern.anyCall (.given 5) (.expr (.given 4) plus)
    let p := Pattern.either (.given 6) sum anySum
    let m := Matcher.initial.withConfig ⟨false, false, false⟩
    let k : Config := ⟨true, true, false⟩
    p.Numbered ∧ p.Linear ∧ p.containsDominator = false ∧ p.Positive ∧ m.config.ExtendedBy k ∧
      (m.run .empty p e).1 = .ok true ∧ ((m.run .empty p e).2.trail.get? sum.id).isSome = false ∧
      ((m.withConfig k).run .empty p e).1 = .ok true ∧
      (((m.withConfig k).run .empty p e).2.trail.get? sum.id).isSome = true := by
  intro plus x one e sum anySum p m k
  let ps := [p, sum, anySum, .expr (.given 0) plus, .constant (.given 1), .wildcard (.given 2), .expr (.given 4) plus]
  have hclosed : ∀ q ∈ ps, ∀ r ∈ q.children, r ∈ ps := by simp [ps, p, sum, anySum, Pattern.children]
  have hmem : p ∈ ps := by simp [ps]
  have hp : p.Numbered := by
    refine Pattern.numbered_of_closed hmem hclosed ?_ (by decide)
    simp [ps, p, sum, anySum, Pattern.id]
  have hlinear : p.Linear := by
    simp [Pattern.Linear, p, sum, anySum, Pattern.ids_eq, Pattern.children, Pattern.id]
  have hdominator : p.containsDominator = false := by rfl
  have hpositive : p.Positive := fun i q hq => by
    have := hq.mem_of_closed hmem hclosed
    simp [ps, p, sum, anySum] at this
  have hk : m.config.ExtendedBy k := ⟨rfl, fun h => absurd h Bool.false_ne_true, fun h => absurd h Bool.false_ne_true⟩
  have hmatched : (m.run .empty p e).1 = .ok true ∧ ((m.run .empty p e).2.trail.get? sum.id).isSome = false := by
    simp only [p, sum, anySum]
    constructor <;> cbv
  have hattrs : ∀ fault, ((m.withConfig k).run .empty p e).1 = .error fault → ¬fault.OfAttribute := by
    rw [show ((m.withConfig k).run .empty p e).1 = .ok true by cbv]
    exact fun _ h => absurd h (by simp)
  exact ⟨hp, hlinear, hdominator, hpositive, hk, hmatched.1, hmatched.2,
    run_of_extendedBy m .empty p e hp hlinear hdominator hpositive k hk hattrs hmatched.1, by cbv⟩

end Matcher
end Dataflow
