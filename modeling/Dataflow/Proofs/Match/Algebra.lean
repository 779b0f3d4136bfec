import Dataflow.Proofs.Expr.Equality
import Dataflow.Proofs.Match.Upkeep
import Dataflow.Proofs.Pattern.Value
/-!
# A match keeps the value of arithmetic

A pattern for arithmetic that matches an expression has the value of the expression, when its leaves have the values of
what they are bound to (`run_keeps_value`): swapped arguments and re-association only identify what is equal in every
field.  What a match upholds is that every pattern `Fits` what it is bound to, whether or not patterns share parts.
-/
namespace Dataflow

open MatchM Pattern

/-- The nodes of an expression and of those that a pattern refers to are numbered together. -/
def Pattern.NumberedWith (p : Pattern) (root : Expr) : Prop :=
  ∀ targets : List Expr, (∀ t ∈ targets, ∃ i, p.Reaches (.expr i t)) → Expr.CoherentAll (root :: targets)

theorem Pattern.NumberedWith.mono {p q : Pattern} {root : Expr} (h : p.NumberedWith root)
    (hq : ∀ i t, q.Reaches (.expr i t) → p.Reaches (.expr i t)) : q.NumberedWith root := fun targets ht =>
  h targets fun t htt => (ht t htt).imp fun i => hq i t

theorem Pattern.NumberedWith.part {p q : Pattern} {root : Expr} (h : p.NumberedWith root) (hq : q ∈ p.children) :
    q.NumberedWith root := h.mono fun _ _ hr => reaches_iff.2 (.inr ⟨q, hq, hr⟩)

theorem Pattern.NumberedWith.of_mem_reassociations {p q : Pattern} {root e : Expr} {n : Nat}
    (h : p.NumberedWith root) (hq : q ∈ reassociations n p e) : q.NumberedWith root := h.mono fun i t hr =>
  reaches_of_mem_reassociations_of_ne_call hq hr (by simp)

/-- What is structurally equal to a reference to an operation refers to the same operation. -/
theorem Expr.arith?_eq_of_equal {root target e : Expr} (hcoherent : Expr.CoherentAll [root, target])
    (he : root.Reaches e) (hop : target.operator?.isSome = true) (h : target.equal e = true) :
    e.arith? = target.arith? := by
  cases target with
  | op i o =>
    rw [Expr.equal, Expr.equalUnder.eq_def, Proven.run_remember] at h
    split at h
    · rename_i hsame
      have hid : (Expr.op i o).id = e.id := by simpa using hsame
      have htarget : ∃ r ∈ [root, .op i o], r.Reaches (.op i o) := ⟨_, by simp, .refl⟩
      rw [hcoherent _ e htarget ⟨root, by simp, he⟩ hid]
    · cases e with
      | op j o' =>
        have hname : (o.name == o'.name) = true := h
        rw [arith?, arith?, operator?, operator?, Option.bind_some, Option.bind_some, beq_iff_eq.1 hname]
      | _ => cases h
  | _ => cases hop

namespace Valuation

variable {K : Type*} [CommRing K] (v : Valuation K) (root : Expr)

/-- The value of a pattern, when its leaves have the values of what they are bound to. -/
def value? (t : Trail) (p : Pattern) : Option K := p.value? v.inverse fun i => (t.get? i).map v.value

/-- What a match of a pattern tells of the expression: its value, or that it is equal to the one referred to. -/
def Fits (t : Trail) (p : Pattern) (e : Expr) : Prop :=
  match p with
  | .expr _ target => target.equal e = true
  | p => v.value? t p = some (v.value e)

variable {v root} {p q : Pattern} {e : Expr} {t t' : Trail}

theorem fits_iff (hp : p.Arithmetic) : v.Fits t p e ↔ v.value? t p = some (v.value e) := by
  cases hp <;> exact Iff.rfl

theorem Fits.grows (h : v.Fits t p e) (ht : t.Grows t') : v.Fits t' p e := by
  have hvalue : v.value? t p = some (v.value e) → v.value? t' p = some (v.value e) := value?_mono fun i x hx => by
    obtain ⟨d, hd, rfl⟩ := Option.map_eq_some_iff.1 hx
    rw [ht.get? hd, Option.map_some]
  cases p with
  | expr => exact h
  | _ => exact hvalue h

theorem value?_call {i : PatternId} {callee a b : Pattern} {operation : Arith} (h : callee.arith? = some operation) :
    v.value? t (.call i callee [a, b]) =
      Option.map₂ (operation.apply v.inverse) (v.value? t a) (v.value? t b) := Pattern.value?_call h

section
variable {i : PatternId} {j : NodeInfo} {callee a b : Pattern} {operation : Arith} {f : Expr} {args : List Expr}
  {attrs : Option Attrs}

theorem fits_call (hop : callee.arith? = some operation) (ha : a.Arithmetic) (hb : b.Arithmetic)
    (hf : f.arith? = some operation) (h : List.Forall₂ (v.Fits t) [a, b] args) :
    v.Fits t (.call i callee [a, b]) (.call j f args attrs) := by
  obtain _ | ⟨hx, _ | ⟨hy, _ | _⟩⟩ := h
  show v.value? t _ = some _
  rw [value?_call hop, (fits_iff ha).1 hx, (fits_iff hb).1 hy, value_call hf]
  rfl

theorem fits_call_swapped (hop : callee.arith? = some operation) (ha : a.Arithmetic) (hb : b.Arithmetic)
    (hcomm : callee.operator?.any (·.isCommutative) = true) (hf : f.arith? = some operation)
    (h : List.Forall₂ (v.Fits t) [b, a] args) : v.Fits t (.call i callee [a, b]) (.call j f args attrs) := by
  obtain _ | ⟨hx, _ | ⟨hy, _ | _⟩⟩ := h
  show v.value? t _ = some _
  rw [value?_call hop, (fits_iff ha).1 hy, (fits_iff hb).1 hx, value_call hf]
  exact congrArg some (apply_comm hop hcomm _ _)

end

theorem fits_of_reassociation {n : Nat} (hp : p.Arithmetic) (hq : q ∈ reassociations n p e) (h : v.Fits t q e) :
    v.Fits t p e := by
  rw [fits_iff (arithmetic_of_mem_reassociations hp hq)] at h
  exact (fits_iff hp).2 ((value?_of_mem_reassociations hq).symm.trans h)

/-- A leaf that was not bound before has the value of what it is bound to. -/
theorem value?_commit (hp : v.value? (t.commit p e) p = ((t.commit p e).get? p.id).map v.value)
    (hfree : t.get? p.id = none) : v.value? (t.commit p e) p = some (v.value e) := by
  rw [hp, Trail.get?_commit, if_pos rfl, hfree]
  rfl

variable (v root)

/-- While variables are not followed, a pattern is bound to what it fits. -/
def upkeep : Upkeep where
  entry t p e := root.Reaches e ∧ v.Fits t p e
  whole _ := True
  entry_grows ht h := h.imp_right fun hfits => hfits.grows ht
  whole_commit _ _ _ := trivial

/-- What a step of the rule of a pattern finds. -/
def Yields (p : Pattern) (m : MatchM Bool) (found : Trail → Prop) : Prop :=
  Searches ((v.upkeep root).Ready p.Within) ((v.upkeep root).Upholds p.Within) m found

variable {v root}

/-- A part that matches fits the expression, which is the only one with its number. -/
theorem Yields.part {visit : MatchM Bool} (hroot : Expr.CoherentAll [root]) (he : root.Reaches e) (hq : q ∈ p.children)
    (hneg : q.isNegation = false) (h : (v.upkeep root).Visits q e visit) : v.Yields root p visit (v.Fits · q e) := by
  refine h.searches hq (fun hneg' => absurd hneg' (by simp [hneg])) fun t bound hid hentry => ?_
  have hroots : ∀ {d}, root.Reaches d → ∃ r ∈ [root], r.Reaches d := fun hd => ⟨root, by simp, hd⟩
  rw [← hroot bound e (hroots hentry.1) (hroots he) hid]
  exact hentry.2

theorem Yields.visitAll {c : MatchContext} {ps : List Pattern} {es : List Expr}
    (h : ∀ q ∈ ps, ∀ f ∈ es, v.Yields root p (c.visit q f) (v.Fits · q f)) :
    v.Yields root p (c.visitAll ps es) fun t => List.Forall₂ (v.Fits t) ps es :=
  MatchContext.searches_visitAll (fun _ _ _ _ ht hfits => hfits.grows ht) h

theorem visits_of_yields {rule : MatchM Bool} (he : root.Reaches e) (hrule : v.Yields root p rule (v.Fits · p e)) :
    (v.upkeep root).Visits p e (attempt p e rule) :=
  .attempt_of_searches hrule fun t hfits _ => ⟨he, hfits.grows (t.grows_commit p e)⟩

/-- A leaf has the value of what it is newly bound to. -/
theorem visits_leaf {rule : MatchM Bool} (he : root.Reaches e)
    (hrule : ∀ s, Ensures rule s (fun _ s' => s' = s) fun _ => True)
    (hleaf : ∀ t, v.value? t p = (t.get? p.id).map v.value)
    (hfits : ∀ t, v.value? t p = some (v.value e) → v.Fits t p e) :
    (v.upkeep root).Visits p e (attempt p e rule) := by
  refine .attempt fun s _ hfree => (hrule s).imp ?_
  rintro _ _ rfl
  exact ⟨.refl _, fun _ _ => ⟨he, hfits _ (value?_commit (hleaf _) hfree)⟩⟩

end Valuation

namespace MatchContext

variable {c : MatchContext} {K : Type*} [CommRing K] {v : Valuation K} {root : Expr}

/-- A visit of the callee finds that the expression refers to the operation of the pattern. -/
theorem yields_visit_callee (hjump : c.config.autoJump = false) (hroot : Expr.CoherentAll [root]) {i : PatternId}
    {callee : Pattern} {ps : List Pattern} {operation : Arith} {f : Expr} (hop : callee.arith? = some operation)
    (hnumbered : (call i callee ps).NumberedWith root) (hf : root.Reaches f) :
    v.Yields root (.call i callee ps) (c.visit callee f) fun _ => f.arith? = some operation := by
  cases callee with
  | expr i' target =>
    obtain ⟨o, ho, -⟩ := Option.bind_eq_some_iff.1 hop
    have hpart : expr i' target ∈ children (.call i (.expr i' target) ps) := List.mem_cons_self ..
    have hcoherent : Expr.CoherentAll [root, target] := hnumbered [target] fun t ht => by
      obtain rfl := List.mem_singleton.1 ht
      exact ⟨i', Reaches.refl.child hpart⟩
    have hvisit : (v.upkeep root).Visits (.expr i' target) f (c.visit (.expr i' target) f) := by
      rw [visit.eq_def]
      refine Valuation.visits_of_yields hf (.ite (fun h => .answer fun _ _ => h) fun _ => ?_)
      refine .checkFollow (.answer fun hm => ?_)
      simp [follow, hjump] at hm
    refine (Valuation.Yields.part hroot hf hpart rfl hvisit).imp fun t h => ?_
    exact (Expr.arith?_eq_of_equal hcoherent hf (Option.isSome_iff_exists.2 ⟨o, ho⟩) h).trans hop
  | _ => cases hop

/-- The rule of an arithmetic call finds that the pattern has the value of the expression, by its arguments in one order
or the other or by re-association. -/
theorem yields_call (hjump : c.config.autoJump = false) (hroot : Expr.CoherentAll [root]) {i : PatternId}
    {callee a b : Pattern} {operation : Arith} {j : NodeInfo} {f : Expr} {args : List Expr} {attrs : Option Attrs}
    (hop : callee.arith? = some operation) (ha : a.Arithmetic) (hb : b.Arithmetic)
    (hnumbered : (call i callee [a, b]).NumberedWith root) (he : root.Reaches (.call j f args attrs))
    (hargs : ∀ q ∈ [a, b], ∀ g ∈ args, v.Yields root (.call i callee [a, b]) (c.visit q g) (v.Fits · q g))
    (hagain : v.Yields root (.call i callee [a, b])
      (c.visitReassociated (.call i callee [a, b]) (.call j f args attrs))
      (v.Fits · (.call i callee [a, b]) (.call j f args attrs))) :
    v.Yields root (.call i callee [a, b]) (c.formBy c.visit (.call i callee [a, b]) (.call j f args attrs))
      (v.Fits · (.call i callee [a, b]) (.call j f args attrs)) := by
  have hcallee : v.Yields root (.call i callee [a, b]) (c.visit callee f) fun _ => f.arith? = some operation :=
    yields_visit_callee hjump hroot hop hnumbered (he.child (List.mem_cons_self ..))
  have hall : ∀ {qs}, (∀ q ∈ qs, q ∈ [a, b]) → v.Yields root (.call i callee [a, b])
      (orUndo (visitAllBy c.visit qs args)) fun t => List.Forall₂ (v.Fits t) qs args := fun hqs => by
    rw [visitAllBy_visit]
    exact .orUndo (Valuation.Yields.visitAll fun q hq => hargs q (hqs q hq))
  have hswapped := hall fun q hq => List.mem_reverse.1 hq
  rw [formBy, reassociatedBy_visit]
  refine Searches.imp (.cases hcallee (fun _ _ _ h => h)
    (.or (hall fun _ hq => hq) (fun _ _ ht h => h.imp fun _ _ hfits => hfits.grows ht)
      (.ite (fun hon => hswapped.imp fun _ h => And.intro hon h) fun _ => .fails))
    (.ite (fun _ => hagain) fun _ => .fails)) ?_
  rintro t (⟨hf, h | ⟨hon, h⟩⟩ | h)
  · exact Valuation.fits_call hop ha hb hf h
  · rw [Bool.and_eq_true] at hon
    exact Valuation.fits_call_swapped hop ha hb hon.2 hf h
  · exact h

/-- **A visit finds that an arithmetic pattern has the value of the expression.** -/
theorem visits_visit (hjump : c.config.autoJump = false) (hroot : Expr.CoherentAll [root]) (p : Pattern) (e : Expr)
    (hp : p.Arithmetic) (hnumbered : p.NumberedWith root) (he : root.Reaches e) :
    (v.upkeep root).Visits p e (c.visit p e) := by
  have hfollow : ∀ e, c.follow e = e := fun e => by simp [follow, hjump]
  induction p, e using c.visit_induction with
  | step p e parts again =>
    rw [visit_eq_visitBy, visitBy]
    cases hp with
    | wildcard | var => exact Valuation.visits_leaf he (fun _ => rfl) (fun _ => rfl) fun _ h => h
    | @constant i =>
      refine Valuation.visits_leaf he (fun s => ?_) (fun _ => rfl) fun _ h => h
      have hform : Ensures (c.formBy c.visit (.constant i) (c.follow e)) s (fun _ s' => s' = s) fun _ => True := by
        cases c.follow e <;> exact rfl
      refine ensures_bind.2 (ensures_checkFollow.2 ?_)
      split
      · trivial
      · exact hform
    | @call i callee a b operation hop ha hb =>
      refine Valuation.visits_of_yields he (.checkFollow ?_)
      rw [hfollow] at again ⊢
      cases e with
      | call j f args attrs =>
        have hab : ∀ q ∈ [a, b], q.Arithmetic := by simp [ha, hb]
        have harith : (call i callee [a, b]).Arithmetic := .call hop ha hb
        refine yields_call hjump hroot hop ha hb hnumbered he (fun q hq g hg => ?_) ?_
        · have hpart : q ∈ children (.call i callee [a, b]) := List.mem_cons_of_mem callee hq
          have hqa : q.Arithmetic := hab q hq
          have hg : root.Reaches g := he.child (List.mem_cons_of_mem f hg)
          exact .part hroot hg hpart hqa.isNegation_eq_false (parts q hpart g hqa (hnumbered.part hpart) hg)
        · refine Upkeep.searches_reassociations (fun n q hq => ?_) fun n q hq t hfits =>
            Valuation.fits_of_reassociation harith hq hfits.2
          exact again n q hq (arithmetic_of_mem_reassociations harith hq) (hnumbered.of_mem_reassociations hq) he
      | _ => exact .fails

/-- **Matching arithmetic keeps its value.**  When a pattern for arithmetic, whose parts may be shared, matches an
expression and variables are not followed, the pattern with the values of what its leaves are bound to has the value of
the expression, in every commutative ring with any function for an inverse: in every field, whatever its inverse of
zero. -/
theorem run_keeps_value (v : Valuation K) (m m' : Matcher) (registry : Registry) (p : Pattern) (e : Expr)
    (hp : p.Numbered) (harith : p.Arithmetic) (hnumbered : p.NumberedWith e) (hjump : m.config.autoJump = false)
    (h : m.run registry p e = (.ok true, m')) : v.value? m'.trail p = some (v.value e) := by
  obtain ⟨s', hrun, htrail⟩ := visit_of_run h
  rw [if_neg (by simp [harith.containsDominator_eq_false])] at hrun
  have hvisits : (v.upkeep e).Visits p e ((m.context registry).visit p e) :=
    visits_visit hjump (hnumbered [] (by simp)) p e harith hnumbered .refl
  obtain ⟨bound, -, -, hentry, hself⟩ := ((hvisits _ (.initial hp trivial)).of_run hrun).2 rfl harith.isNegation_eq_false
  obtain rfl := hself rfl
  rw [htrail]
  exact (Valuation.fits_iff harith).1 hentry.2

/-- A product over one of its factors, `a * b / a`, matches `x * (y / x)`, at the second of two re-associations. -/
theorem run_keeps_value_of_shared_factor :
    let x := Expr.var ⟨0, none, none⟩ ⟨0, "x"⟩
    let y := Expr.var ⟨1, none, none⟩ ⟨1, "y"⟩
    let multiply := Expr.op ⟨2, none, none⟩ ⟨"multiply", some 2⟩
    let divide := Expr.op ⟨3, none, none⟩ ⟨"divide", some 2⟩
    let quotient := Expr.call ⟨4, none, none⟩ divide [y, x] none
    let e := Expr.call ⟨5, none, none⟩ multiply [x, quotient] none
    let isMultiply := Pattern.expr (.given 0) multiply
    let isDivide := Pattern.expr (.given 1) divide
    let a := Pattern.wildcard (.given 2)
    let b := Pattern.wildcard (.given 3)
    let product := Pattern.call (.given 4) isMultiply [a, b]
    let p := Pattern.call (.given 5) isDivide [product, a]
    let inner := Pattern.derive 2 isDivide b a
    let m' := { Matcher.initial with trail := .commitAll .empty [⟨isMultiply, multiply⟩, ⟨a, x⟩, ⟨isDivide, divide⟩,
      ⟨b, y⟩, ⟨inner, quotient⟩, ⟨.derive 3 isMultiply a inner, e⟩, ⟨p, e⟩] }
    let v : Valuation ℚ := ⟨fun z => z⁻¹, fun e => e.id⟩
    p.Numbered ∧ p.Arithmetic ∧ p.NumberedWith e ∧ Matcher.initial.config.autoJump = false ∧
      Matcher.initial.run .empty p e = (.ok true, m') ∧ v.value? m'.trail p = some (v.value e) := by
  intro x y multiply divide quotient e isMultiply isDivide a b product p inner m' v
  have hclosed : ∀ q ∈ [p, product, b, a, isDivide, isMultiply], ∀ r ∈ q.children,
      r ∈ [p, product, b, a, isDivide, isMultiply] := by
    simp [p, product, b, a, isDivide, isMultiply, children]
  have hp : p.Numbered := by
    refine numbered_of_closed (List.mem_cons_self ..) hclosed ?_ (by decide)
    simp [p, product, b, a, isDivide, isMultiply, Pattern.id]
  have harith : p.Arithmetic := .call (show _ = some Arith.divide from rfl)
    (.call (show _ = some Arith.multiply from rfl) .wildcard .wildcard) .wildcard
  have hnumbered : p.NumberedWith e := by
    refine fun targets ht => @Expr.coherentAll_of_closed _ [e, quotient, x, y, multiply, divide] ?_ ?_ (by decide)
    · refine List.forall_mem_cons.2 ⟨by simp, fun t htt => ?_⟩
      obtain ⟨i, hi⟩ := ht t htt
      have htarget : t = divide ∨ t = multiply := by
        have hmem := hi.mem_of_closed (List.mem_cons_self ..) hclosed
        simp only [p, product, b, a, isDivide, isMultiply, List.mem_cons, List.not_mem_nil, reduceCtorEq,
          Pattern.expr.injEq, false_or, or_false] at hmem
        exact hmem.imp And.right And.right
      rcases htarget with rfl | rfl <;> simp
    · simp [e, quotient, x, y, multiply, divide, Expr.children]
  have hrun : Matcher.initial.run .empty p e = (.ok true, m') := by cbv
  exact ⟨hp, harith, hnumbered, rfl, hrun, run_keeps_value v Matcher.initial m' .empty p e hp harith hnumbered rfl hrun⟩

end MatchContext
end Dataflow
