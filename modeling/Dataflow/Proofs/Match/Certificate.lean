import Dataflow.Proofs.Match.Upkeep
/-!
# The bindings of a match certify it

After a match without dominator patterns, every entry of the log can be checked by itself: the log holds the parts of
its pattern where the rule of the pattern wants them (`Justified`).  The log holds the patterns themselves and not just
their identities, so a call that was matched by re-association is justified by its own alternative and by no other.
What the log holds stays there, so a later step does not undo what justified an earlier one; and as long as bound
patterns are held to their nodes, a pattern has one entry (`Certified`).
-/
namespace Dataflow

/-- The log holds a part of a pattern with a node, or the part is a negation, which binds nothing. -/
def Trail.Holds (t : Trail) (p : Pattern) (e : Expr) : Prop :=
  p.isNegation = true ∨ ∃ bound, ⟨p, bound⟩ ∈ t.bindings ∧ bound.id = e.id

namespace MatchContext

/-- What the log has to hold for a pattern to match an expression by its rule. -/
def Justified (c : MatchContext) (t : Trail) (p : Pattern) (e : Expr) : Prop :=
  match p with
  | .wildcard _ => True
  | .either _ l r => t.Holds l e ∨ t.Holds r e
  | .both _ l r => t.Holds l e ∧ t.Holds r e
  | .negation .. | .dominator .. => False
  | .constant _ => ∃ i value, c.follow e = .constant i value
  | .var _ name => ∃ i v, e = .var i v ∧ (name = "" ∨ v.name = name)
  | .external _ symbol => ∃ i s, c.follow e = .external i s ∧ (symbol = "" ∨ s = symbol)
  | .expr _ target => target.equal e = true ∨ target.equal (c.follow e) = true
  | .anyTuple _ => ∃ i es, c.follow e = .tuple i es
  | .tuple _ ps => ∃ i es, c.follow e = .tuple i es ∧ List.Forall₂ t.Holds ps es
  | .item _ q index => ∃ i e' k, c.follow e = .item i e' k ∧ (∀ j ∈ index, j = k) ∧ t.Holds q e'
  | .function _ ps q => ∃ i params body attrs, c.follow e = .function i params body attrs ∧
      List.Forall₂ t.Holds ps params ∧ t.Holds q body
  | .anyFunction _ q => ∃ i params body attrs, c.follow e = .function i params body attrs ∧ t.Holds q body
  | .cond _ q₁ q₂ q₃ => ∃ i e₁ e₂ e₃, c.follow e = .cond i e₁ e₂ e₃ ∧
      t.Holds q₁ e₁ ∧ t.Holds q₂ e₂ ∧ t.Holds q₃ e₃
  | .anyCall _ callee => ∃ i f args attrs, c.follow e = .call i f args attrs ∧ t.Holds callee f
  | .call i callee ps => ∃ j f args attrs, c.follow e = .call j f args attrs ∧
      ((t.Holds callee f ∧ (List.Forall₂ t.Holds ps args ∨
          (c.config.commutative = true ∧ callee.operator?.any (·.isCommutative) = true ∧
            List.Forall₂ t.Holds ps.reverse args))) ∨
        (c.config.associative = true ∧ ∃ n, ∃ q ∈ Pattern.reassociations n (.call i callee ps) (c.follow e),
          ⟨q, c.follow e⟩ ∈ t.bindings))
  | .hasAttrs _ q attrs => t.Holds q e ∧ attrs.heldBy c.registry (c.follow e) = .ok true
  | .hasType _ q type => e.inferType? = some type ∧ t.Holds q e
  | .hasShape _ q ds => (∃ shape es, e.shape? = some shape ∧ shape.dims? = some es ∧
      c.oracle.shapesEqual ds es = true) ∧ t.Holds q e
  | .hasDType _ q dtype => e.dtype? = some dtype ∧ t.Holds q e
  | .dims _ ds => ∃ i es, c.follow e = .dims i es ∧ c.oracle.shapesEqual ds es = true
  | .runtimeShape _ => ∃ shape, e.shape? = some shape ∧ shape.isRuntime = true

/-- Every entry of the log is the only one of its pattern, what the pattern is bound to, and justified. -/
structure Certified (c : MatchContext) (t : Trail) : Prop where
  once : (t.bindings.map (·.pattern.id)).Nodup
  bound : ∀ b ∈ t.bindings, t.get? b.pattern.id = some b.expr
  justified : ∀ b ∈ t.bindings, c.Justified t b.pattern b.expr

open MatchM Pattern

variable {c : MatchContext} {t t' : Trail} {p q : Pattern} {e : Expr}

theorem holds_grows (h : t.Grows t') (hp : t.Holds p e) : t'.Holds p e :=
  hp.imp_right fun ⟨bound, hbound, hid⟩ => ⟨bound, h.mem hbound, hid⟩

/-- **What justifies an entry stays.** -/
theorem justified_grows (h : t.Grows t') (hp : c.Justified t p e) : c.Justified t' p e := by
  have hs : ∀ {q f}, t.Holds q f → t'.Holds q f := holds_grows h
  have hall : ∀ {qs fs}, List.Forall₂ t.Holds qs fs → List.Forall₂ t'.Holds qs fs := fun ha => ha.imp fun _ _ => hs
  cases p with
  | either => exact hp.imp hs hs
  | both => exact hp.imp hs hs
  | tuple =>
    obtain ⟨i, es, hf, ha⟩ := hp
    exact ⟨i, es, hf, hall ha⟩
  | item =>
    obtain ⟨i, e', k, hf, hk, hq⟩ := hp
    exact ⟨i, e', k, hf, hk, hs hq⟩
  | function =>
    obtain ⟨i, params, body, attrs, hf, ha, hq⟩ := hp
    exact ⟨i, params, body, attrs, hf, hall ha, hs hq⟩
  | anyFunction =>
    obtain ⟨i, params, body, attrs, hf, hq⟩ := hp
    exact ⟨i, params, body, attrs, hf, hs hq⟩
  | cond =>
    obtain ⟨i, e₁, e₂, e₃, hf, h₁, h₂, h₃⟩ := hp
    exact ⟨i, e₁, e₂, e₃, hf, hs h₁, hs h₂, hs h₃⟩
  | anyCall =>
    obtain ⟨i, f, args, attrs, hf, hq⟩ := hp
    exact ⟨i, f, args, attrs, hf, hs hq⟩
  | call =>
    obtain ⟨j, f, args, attrs, hf, hcall⟩ := hp
    refine ⟨j, f, args, attrs, hf, ?_⟩
    rcases hcall with ⟨hq, ha | ⟨hon, ho, ha⟩⟩ | ⟨hon, n, q, hq, hb⟩
    · exact .inl ⟨hs hq, .inl (hall ha)⟩
    · exact .inl ⟨hs hq, .inr ⟨hon, ho, hall ha⟩⟩
    · exact .inr ⟨hon, n, q, hq, h.mem hb⟩
  | hasAttrs => exact hp.imp_left hs
  | hasType | hasShape | hasDType => exact hp.imp_right hs
  | _ => exact hp

theorem certified_empty (c : MatchContext) : c.Certified .empty :=
  ⟨.nil, List.forall_mem_nil _, List.forall_mem_nil _⟩

theorem Certified.commit (ht : c.Certified t) (hnew : t.get? p.id = none) (hp : c.Justified (t.commit p e) p e) :
    c.Certified (t.commit p e) := by
  have hbound : (t.commit p e).get? p.id = some e := by rw [Trail.get?_commit, if_pos rfl, hnew, Option.getD_none]
  refine ⟨?_, fun b hb => ?_, fun b hb => ?_⟩
  · rw [Trail.bindings_commit, List.map_append, List.map_singleton, List.nodup_append]
    refine ⟨ht.once, List.pairwise_singleton _ _, fun i hi j hj => ?_⟩
    obtain ⟨b, hb, rfl⟩ := List.mem_map.1 hi
    obtain rfl := List.mem_singleton.1 hj
    intro hid
    have := ht.bound b hb
    rw [hid, hnew] at this
    cases this
  · rcases List.mem_append.1 (Trail.bindings_commit t p e ▸ hb) with hb | hb
    · exact Trail.get?_commit_of_some (ht.bound b hb) p e
    · obtain rfl := List.mem_singleton.1 hb
      exact hbound
  · rcases List.mem_append.1 (Trail.bindings_commit t p e ▸ hb) with hb | hb
    · exact justified_grows (t.grows_commit p e) (ht.justified b hb)
    · obtain rfl := List.mem_singleton.1 hb
      exact hp

/-- What a pattern is bound to, stands in the log with the pattern, and the entry is justified. -/
def upkeep (c : MatchContext) : Upkeep where
  entry t p e := ⟨p, e⟩ ∈ t.bindings ∧ c.Justified t p e
  whole := c.Certified
  entry_grows ht h := ⟨ht.mem h.1, justified_grows ht h.2⟩
  whole_commit ht hnew h := ht.commit hnew h.2

/-! ## Every rule justifies what it matches -/

/-- What a step of the rule of a pattern finds. -/
def Finds (c : MatchContext) (p : Pattern) (m : MatchM Bool) (found : Trail → Prop) : Prop :=
  Searches (c.upkeep.Ready p.Within) (c.upkeep.Upholds p.Within) m found

theorem Finds.part {visit : MatchM Bool} (h : c.upkeep.Visits q e visit) (hq : q ∈ p.children) :
    c.Finds p visit (·.Holds q e) :=
  h.searches hq (fun hneg _ => .inl hneg) fun _ bound hid hentry => .inr ⟨bound, hentry.1, hid⟩

theorem Finds.all {ps : List Pattern} {es : List Expr}
    (h : ∀ q ∈ ps, ∀ f ∈ es, c.Finds p (c.visit q f) (·.Holds q f)) :
    c.Finds p (visitAllBy c.visit ps es) fun t => List.Forall₂ t.Holds ps es := by
  rw [visitAllBy_visit]
  exact searches_visitAll (fun _ _ _ _ => holds_grows) h

/-- The arguments of a call justify it in one order or the other, and where the callee fails a re-association does. -/
theorem finds_call {i : PatternId} {callee : Pattern} {ps : List Pattern} {j : NodeInfo} {f : Expr} {args : List Expr}
    {attrs : Option Attrs} (hf : c.follow e = .call j f args attrs)
    (hpart : ∀ q ∈ callee :: ps, ∀ g, c.Finds (.call i callee ps) (c.visit q g) (·.Holds q g))
    (hagain : ∀ n, ∀ q ∈ reassociations n (.call i callee ps) (c.follow e),
      c.upkeep.Visits q (c.follow e) (c.visit q (c.follow e))) :
    c.Finds (.call i callee ps) (c.formBy c.visit (.call i callee ps) (.call j f args attrs))
      (c.Justified · (.call i callee ps) e) := by
  have hargs : ∀ {qs}, (∀ q ∈ qs, q ∈ ps) → c.Finds (.call i callee ps) (orUndo (visitAllBy c.visit qs args))
      fun t => List.Forall₂ t.Holds qs args := fun hqs =>
    .orUndo (Finds.all fun q hq g _ => hpart q (List.mem_cons_of_mem callee (hqs q hq)) g)
  have hswapped := hargs fun q hq => List.mem_reverse.1 hq
  have hothers : c.Finds (.call i callee ps) (c.visitReassociated (.call i callee ps) (.call j f args attrs))
      fun t => ∃ n, ∃ q ∈ reassociations n (.call i callee ps) (c.follow e), ⟨q, c.follow e⟩ ∈ t.bindings := by
    rw [← hf]
    exact Upkeep.searches_reassociations hagain fun n q hq t hentry => ⟨n, q, hq, hentry.1⟩
  rw [formBy, reassociatedBy_visit]
  refine Searches.imp (.cases (hpart callee (List.mem_cons_self ..) f) (fun _ _ => holds_grows)
    (.or (hargs fun _ hq => hq) (fun _ _ h ha => ha.imp fun _ _ => holds_grows h)
      (.ite (fun hon => hswapped.imp fun _ h => And.intro hon h) fun _ => .fails))
    (.ite (fun hon => hothers.imp fun _ h => And.intro hon h) fun _ => .fails)) fun t h => ⟨j, f, args, attrs, hf, ?_⟩
  rcases h with ⟨hq, ha | ⟨hon, ha⟩⟩ | hother
  · exact .inl ⟨hq, .inl ha⟩
  · rw [Bool.and_eq_true] at hon
    exact .inl ⟨hq, .inr ⟨hon.1, hon.2, ha⟩⟩
  · exact .inr hother

/-- A pattern that asks for a form is justified by what it finds in the form. -/
theorem finds_formBy (hpart : ∀ q ∈ p.children, ∀ f, c.Finds p (c.visit q f) (·.Holds q f))
    (hagain : ∀ n, ∀ q ∈ reassociations n p (c.follow e), c.upkeep.Visits q (c.follow e) (c.visit q (c.follow e))) :
    c.Finds p (c.formBy c.visit p (c.follow e)) (c.Justified · p e) := by
  have hfails : c.Finds p (pure false) (c.Justified · p e) := .fails
  cases hf : c.follow e with
  | constant =>
    cases p with
    | constant => exact .answer fun _ _ => ⟨_, _, hf⟩
    | _ => exact hfails
  | external =>
    cases p with
    | external => exact .answer fun hm _ => ⟨_, _, hf, by simpa using hm⟩
    | _ => exact hfails
  | dims =>
    cases p with
    | dims => exact .answer fun hm _ => ⟨_, _, hf, hm⟩
    | _ => exact hfails
  | tuple =>
    cases p with
    | anyTuple => exact .answer fun _ _ => ⟨_, _, hf⟩
    | tuple _ ps => exact (Finds.all fun q hq f _ => hpart q hq f).imp fun _ h => ⟨_, _, hf, h⟩
    | _ => exact hfails
  | item =>
    cases p with
    | item _ q index =>
      refine .ite (fun hk => (hpart q (by simp [children]) _).imp fun _ h => ⟨_, _, _, hf, ?_, h⟩) fun _ => hfails
      rintro j rfl
      simpa using hk
    | _ => exact hfails
  | function _ params =>
    cases p with
    | function i ps q =>
      have hparams : c.Finds (.function i ps q) (visitAllBy c.visit ps params)
          fun t => List.Forall₂ t.Holds ps params := .all fun r hr f _ => hpart r (by simp [children, hr]) f
      refine Searches.imp (hparams.and (fun _ _ h ha => ha.imp fun _ _ => holds_grows h)
        (hpart q (by simp [children]) _)) ?_
      exact fun _ h => ⟨_, _, _, _, hf, h⟩
    | anyFunction _ q => exact (hpart q (by simp [children]) _).imp fun _ h => ⟨_, _, _, _, hf, h⟩
    | _ => exact hfails
  | cond =>
    cases p with
    | cond _ q₁ q₂ q₃ =>
      refine Searches.imp ((hpart q₁ (by simp [children]) _).and (fun _ _ => holds_grows)
        ((hpart q₂ (by simp [children]) _).and (fun _ _ => holds_grows) (hpart q₃ (by simp [children]) _))) ?_
      exact fun _ h => ⟨_, _, _, _, hf, h⟩
    | _ => exact hfails
  | call =>
    cases p with
    | anyCall _ callee => exact (hpart callee (by simp [children]) _).imp fun _ h => ⟨_, _, _, _, hf, h⟩
    | call => exact finds_call hf hpart hagain
    | _ => exact hfails
  | _ => cases p <;> exact hfails

/-- **The rule of a pattern finds what justifies the pattern.** -/
theorem finds_ruleBy (hp : p.containsDominator = false)
    (hpart : ∀ q ∈ p.children, ∀ f, c.Finds p (c.visit q f) (·.Holds q f))
    (hagain : ∀ n, ∀ q ∈ reassociations n p (c.follow e), c.upkeep.Visits q (c.follow e) (c.visit q (c.follow e))) :
    c.Finds p (c.ruleBy c.visit p e) fun t => p.isNegation = false → c.Justified t p e := by
  have hform := (finds_formBy hpart hagain).imp fun t h (_ : p.isNegation = false) => h
  cases p with
  | wildcard => exact .answer fun _ _ _ => trivial
  | either _ l r =>
    exact ((hpart l (by simp [children]) e).or (fun _ _ => holds_grows) (hpart r (by simp [children]) e)).imp
      fun _ h _ => h
  | both _ l r =>
    exact ((hpart l (by simp [children]) e).and (fun _ _ => holds_grows) (hpart r (by simp [children]) e)).imp
      fun _ h _ => h
  | negation _ q =>
    refine (hpart q (by simp [children]) e).not.imp fun _ _ hneg => ?_
    cases hneg
  | var _ name =>
    refine .answer fun hm t _ => ?_
    cases e with
    | var i v => exact ⟨i, v, rfl, by simpa [Expr.var?] using hm⟩
    | _ => cases hm
  | expr _ target =>
    refine .ite (fun h => .answer fun _ _ _ => .inl h) fun _ => .checkFollow (.answer fun hm _ _ => .inr ?_)
    rw [Bool.and_eq_true] at hm
    exact hm.2
  | hasAttrs _ q attrs =>
    exact ((hpart q (by simp [children]) e).and (fun _ _ => holds_grows) (.checkFollow .lift)).imp fun _ h _ => h
  | hasType _ q | hasDType _ q =>
    refine .ite (fun h => (hpart q (by simp [children]) e).imp fun _ hq _ => ?_) fun _ => .fails
    exact ⟨by simpa using h, hq⟩
  | hasShape _ q ds =>
    refine .ite (fun h => (hpart q (by simp [children]) e).imp fun _ hq _ => ?_) fun _ => .fails
    obtain ⟨es, hes, heq⟩ := (Option.any_eq_true _ _).1 h
    obtain ⟨shape, hshape, hdims⟩ := Option.bind_eq_some_iff.1 hes
    exact ⟨⟨shape, es, hshape, hdims, heq⟩, hq⟩
  | runtimeShape =>
    refine .answer fun hm _ _ => ?_
    obtain ⟨shape, hshape, hruntime⟩ := (Option.any_eq_true _ _).1 hm
    exact ⟨shape, hshape, hruntime⟩
  | dominator =>
    rw [containsDominator] at hp
    cases hp
  | _ => exact .checkFollow hform

theorem visits_upkeep (c : MatchContext) (p : Pattern) (e : Expr) (hp : p.containsDominator = false) :
    c.upkeep.Visits p e (c.visit p e) := by
  induction p, e using c.visit_induction with
  | step p e parts again =>
    rw [visit_eq_visitBy, visitBy]
    refine .attempt_of_searches (finds_ruleBy hp (fun q hq f => ?_) fun n q hq => ?_) fun t hjustified hneg => ?_
    · exact .part (parts q hq f (containsDominator_eq_false_of_mem_children hq hp)) hq
    · exact again n q hq (containsDominator_eq_false_of_mem_reassociations hq hp)
    · exact ⟨by simp, justified_grows (t.grows_commit p e) (hjustified hneg)⟩

/-- **The bindings of a match certify it.**  After a match of a pattern without dominator patterns every pattern has one
entry in the log at most, with what it is bound to, the pattern itself is bound to the expression unless it is a
negation, and every entry is justified by what the log holds at the end. -/
theorem bindings_certify (m m' : Matcher) (registry : Registry) (p : Pattern) (e : Expr) (hp : p.Numbered)
    (hdominator : p.containsDominator = false) (h : m.run registry p e = (.ok true, m')) :
    (m.context registry).Certified m'.trail ∧ (p.isNegation = false → m'.trail.get? p.id = some e) := by
  obtain ⟨s', hrun, htrail⟩ := visit_of_run h
  rw [if_neg (by simp [hdominator])] at hrun
  have hempty := certified_empty (m.context registry)
  have hvisits := visits_upkeep (m.context registry) p e hdominator .initial (.initial hp hempty)
  obtain ⟨hupholds, hbound⟩ := hvisits.of_run hrun
  rw [htrail]
  refine ⟨hupholds.whole hempty, fun hneg => ?_⟩
  obtain ⟨bound, hget, -, -, hself⟩ := hbound rfl hneg
  rwa [← hself rfl]

/-- The sum of a product over one of its factors, `a * b / a`, and `z` matches `z + x * (y / x)`: the arguments of the
sum in the other order, and the quotient by the second of two re-associations. -/
theorem bindings_certify_of_reassociated_summand :
    let x := Expr.var ⟨0, none, none⟩ ⟨0, "x"⟩
    let y := Expr.var ⟨1, none, none⟩ ⟨1, "y"⟩
    let z := Expr.var ⟨2, none, none⟩ ⟨2, "z"⟩
    let multiply := Expr.op ⟨3, none, none⟩ ⟨"multiply", some 2⟩
    let divide := Expr.op ⟨4, none, none⟩ ⟨"divide", some 2⟩
    let add := Expr.op ⟨5, none, none⟩ ⟨"add", some 2⟩
    let inner := Expr.call ⟨6, none, none⟩ divide [y, x] none
    let outer := Expr.call ⟨7, none, none⟩ multiply [x, inner] none
    let e := Expr.call ⟨8, none, none⟩ add [z, outer] none
    let isMultiply := Pattern.expr (.given 0) multiply
    let isDivide := Pattern.expr (.given 1) divide
    let isAdd := Pattern.expr (.given 2) add
    let a := Pattern.wildcard (.given 3)
    let b := Pattern.wildcard (.given 4)
    let isZ := Pattern.var (.given 5) "z"
    let product := Pattern.call (.given 6) isMultiply [a, b]
    let quotient := Pattern.call (.given 7) isDivide [product, a]
    let p := Pattern.call (.given 8) isAdd [quotient, isZ]
    let m' := { Matcher.initial with trail := .commitAll .empty [⟨isAdd, add⟩, ⟨isZ, z⟩, ⟨isMultiply, multiply⟩, ⟨a, x⟩,
      ⟨isDivide, divide⟩, ⟨b, y⟩, ⟨.derive 2 isDivide b a, inner⟩,
      ⟨.derive 3 isMultiply a (.derive 2 isDivide b a), outer⟩, ⟨quotient, outer⟩, ⟨p, e⟩] }
    p.Numbered ∧ p.containsDominator = false ∧ Matcher.initial.run .empty p e = (.ok true, m') ∧
      (Matcher.initial.context .empty).Certified m'.trail ∧ (p.isNegation = false → m'.trail.get? p.id = some e) := by
  intro x y z multiply divide add inner outer e isMultiply isDivide isAdd a b isZ product quotient p m'
  have hp : p.Numbered := by
    have hmem : p ∈ [p, quotient, product, isZ, b, a, isAdd, isDivide, isMultiply] := List.mem_cons_self ..
    refine numbered_of_closed hmem ?_ ?_ (by decide)
    · simp [p, quotient, product, isZ, b, a, isAdd, isDivide, isMultiply, children]
    · simp [p, quotient, product, isZ, b, a, isAdd, isDivide, isMultiply, Pattern.id]
  have hdominator : p.containsDominator = false := by rfl
  have hrun : Matcher.initial.run .empty p e = (.ok true, m') := by cbv
  exact ⟨hp, hdominator, hrun, bindings_certify Matcher.initial m' .empty p e hp hdominator hrun⟩

end MatchContext
end Dataflow
