import Dataflow.Proofs.Match.Supply
/-!
# What a pattern without a choice demands

Where a match has one way only, the rule of a pattern succeeds if the expression has the right form and some visits
succeed one after the other: those of the parts of the pattern at certain inputs (`demands`, `succeeds_rule`).
The patterns left out are those that try one thing after another, or answer for a failure (`Pattern.branches`).  Of
these, a call of a commutative operator that is not re-associated asks for its callee before it tries anything
(`leadingCallee?`, `succeeds_call`).
-/
namespace Dataflow
namespace MatchM

/-- A step answers that it matched, and leads to another session. -/
def Succeeds (m : MatchM Bool) (s s' : Session) : Prop := m.run s = (.ok true, s')

variable {m m₁ m₂ : MatchM Bool} {s s' : Session} {c : MatchContext} {e : Expr}

theorem Succeeds.unique {s'' : Session} (h : Succeeds m s s') (h' : Succeeds m s s'') : s' = s'' :=
  (Prod.mk.inj (Eq.trans (Eq.symm h) h')).2

theorem succeeds_pure {b : Bool} : Succeeds (pure b) s s' ↔ b = true ∧ s' = s := by
  rw [Succeeds, show (pure b : MatchM Bool).run s = (.ok b, s) from rfl, Prod.mk.injEq, Except.ok.injEq,
    eq_comm (a := s)]

theorem succeeds_bind {f : Bool → MatchM Bool} : Succeeds (m >>= f) s s' ↔
    ∃ matched t, m.run s = (.ok matched, t) ∧ Succeeds (f matched) t s' := by
  rw [Succeeds, run_bind]
  rcases m.run s with ⟨_ | matched, t⟩
  · exact ⟨fun h => (by cases h), fun ⟨_, _, h, _⟩ => (by cases h)⟩
  · exact ⟨fun h => ⟨matched, t, rfl, h⟩, fun ⟨_, _, h, hf⟩ => (by cases h; exact hf)⟩

/-- A step that is followed by another one only if it matched. -/
theorem succeeds_and (h : ∀ t t', ¬Succeeds m₂ t t') :
    Succeeds (m >>= fun matched => if matched then m₁ else m₂) s s' ↔ ∃ t, Succeeds m s t ∧ Succeeds m₁ t s' := by
  rw [succeeds_bind]
  constructor
  · rintro ⟨_ | _, t, hm, h₁⟩
    · exact absurd h₁ (h t s')
    · exact ⟨t, hm, h₁⟩
  · rintro ⟨t, hm, h₁⟩
    exact ⟨true, t, hm, h₁⟩

theorem not_succeeds_pure_false (t t' : Session) : ¬Succeeds (pure false) t t' := fun h =>
  Bool.false_ne_true (succeeds_pure.1 h).1

theorem succeeds_ite {b : Prop} [Decidable b] : Succeeds (if b then m else pure false) s s' ↔ b ∧ Succeeds m s s' := by
  split
  · exact (and_iff_right ‹_›).symm
  · exact iff_of_false (not_succeeds_pure_false _ _) fun h => absurd h.1 ‹_›

theorem succeeds_checkFollow : Succeeds (checkFollow c e >>= fun _ => m) s s' ↔
    c.isStuck e = false ∧ Succeeds m s s' := by
  rw [checkFollow]
  cases c.isStuck e with
  | true => exact iff_of_false (fun h => by cases h) fun h => Bool.false_ne_true h.1.symm
  | false => exact (and_iff_right rfl).symm

theorem succeeds_heldBy {answer : Except Fault Bool} :
    Succeeds (liftM answer) s s' ↔ answer = .ok true ∧ s' = s := by
  cases answer with
  | error => exact iff_of_false (fun h => by cases h) fun h => by cases h.1
  | ok held => exact succeeds_pure.trans (and_congr_left fun _ => by rw [Except.ok.injEq])

theorem succeeds_orUndo (h : Keeps Session.Grows m) : Succeeds (orUndo m) s s' ↔ Succeeds m s s' := by
  rw [Succeeds, Succeeds, run_orUndo h]
  rcases m.run s with ⟨_ | _ | _, t⟩
  · exact Iff.rfl
  · exact ⟨fun h => (by cases h), fun h => (by cases h)⟩
  · exact Iff.rfl

/-- A pattern that is bound is compared with the node, and otherwise its rule binds it. -/
theorem succeeds_attempt {p : Pattern} (h : Keeps Session.Grows m) (hs : s.memoize = true) :
    Succeeds (attempt p e m) s s' ↔ (∃ bound, s.trail.get? p.id = some bound ∧ bound.id = e.id ∧ s' = s) ∨
      s.trail.get? p.id = none ∧ ∃ t, Succeeds m s t ∧ s' = t.bind p e := by
  rw [Succeeds, run_attempt h, hs, if_pos rfl]
  cases s.trail.get? p.id with
  | some bound =>
    constructor
    · intro heq
      obtain ⟨hid, rfl⟩ := Prod.mk.inj heq
      exact .inl ⟨bound, rfl, by simpa using Except.ok.inj hid, rfl⟩
    · rintro (⟨_, ⟨⟩, hid, rfl⟩ | ⟨⟨⟩, -⟩)
      dsimp only
      rw [beq_iff_eq.2 hid]
  | none =>
    dsimp only
    constructor
    · intro heq
      refine .inr ⟨rfl, ?_⟩
      rcases hrun : m.run s with ⟨_ | _ | _, t⟩ <;> rw [hrun] at heq <;> cases heq
      exact ⟨t, hrun, rfl⟩
    · rintro (⟨_, ⟨⟩, -⟩ | ⟨-, t, hm, rfl⟩)
      rw [show m.run s = (.ok true, t) from hm]

end MatchM

/-! ## Choices -/

namespace Pattern

/-- Whether a pattern describes a quotient whose first operand is a product. -/
def isQuotientOfProduct (p : Pattern) : Bool :=
  (p.operands? "divide").any fun operands => (operands.2.1.operands? "multiply").isSome

/-- Whether a match may try one thing after another, or succeed where something fails: an alternative, a negation, a
dominator pattern, a call that is tried with its arguments swapped or re-associated. -/
def branches : Pattern → Bool
  | either .. | negation .. | dominator .. => true
  | call i callee args => callee.operator?.any (·.isCommutative) || (call i callee args).isQuotientOfProduct
  | _ => false

/-- Whether a pattern describes a product with a quotient among its operands. -/
def isProductOfQuotient (p : Pattern) : Bool :=
  (p.operands? "multiply").any fun operands =>
    (operands.2.1.operands? "divide").isSome || (operands.2.2.operands? "divide").isSome

/-- The callee of a call of a commutative operator, which is bound before the order of the arguments is chosen.  A
product of a quotient has none: it may be re-associated, and its callee is then looked for elsewhere. -/
def leadingCallee? : Pattern → Option Pattern
  | call i callee args =>
    if callee.operator?.any (·.isCommutative) && !(call i callee args).isProductOfQuotient then some callee else none
  | _ => none

theorem isNegation_eq_false {p : Pattern} (h : p.branches = false) : p.isNegation = false := by
  cases p <;> first | rfl | cases h

theorem leadingCallee?_eq_some_iff {p callee : Pattern} : p.leadingCallee? = some callee ↔
    ∃ i args, p = call i callee args ∧ callee.operator?.any (·.isCommutative) = true ∧
      p.isProductOfQuotient = false := by
  cases p with
  | call i f args => grind [leadingCallee?]
  | _ => simp [leadingCallee?]

/-- The callee is a reference to an operator, which is not made of other patterns. -/
theorem leaf_of_leadingCallee? {p callee : Pattern} (h : p.leadingCallee? = some callee) :
    callee ∈ p.children ∧ callee.children = [] ∧ callee.branches = false := by
  obtain ⟨i, args, rfl, hcomm, -⟩ := leadingCallee?_eq_some_iff.1 h
  cases callee with
  | expr => exact ⟨List.mem_cons_self, rfl, rfl⟩
  | _ => cases hcomm

/-- Of a call of a commutative operator, only a product of a quotient is re-associated. -/
theorem reassociations_eq_nil_of_leadingCallee? {p callee : Pattern} (h : p.leadingCallee? = some callee) (n : Nat)
    (e : Expr) : reassociations n p e = [] := by
  obtain ⟨i, args, rfl, hcomm, hquotient⟩ := leadingCallee?_eq_some_iff.1 h
  obtain ⟨o, ho, hcomm⟩ := (Option.any_eq_true _ _).1 hcomm
  refine List.eq_nil_iff_forall_not_mem.2 fun q hq => ?_
  cases reassociated_of_mem hq with
  | second hp | first hp =>
    obtain rfl := callee_of_operands? hp
    have hname : o.name = "divide" := by simpa [ho] using operator?_of_operands? hp
    simp [Operator.isCommutative, hname] at hcomm
  | left hp hd | right hp hd => simp [isProductOfQuotient, hp, hd] at hquotient

/-- A pattern without a choice is not re-associated. -/
theorem reassociations_eq_nil {p : Pattern} (h : p.branches = false) (n : Nat) (e : Expr) :
    reassociations n p e = [] := by
  refine List.eq_nil_iff_forall_not_mem.2 fun q hq => ?_
  cases p with
  | call i callee args =>
    obtain ⟨hcomm, hquotient⟩ := Bool.or_eq_false_iff.1 h
    cases reassociated_of_mem hq with
    | second hp hm | first hp hm => simp [isQuotientOfProduct, hp, hm] at hquotient
    | left hp | right hp =>
      obtain rfl := callee_of_operands? hp
      obtain ⟨o, ho, hname⟩ := (Option.any_eq_true _ _).1 (operator?_of_operands? hp)
      simp [ho, Operator.isCommutative, beq_iff_eq.1 hname] at hcomm
  | _ => cases reassociated_of_mem hq with
    | second hp | first hp | left hp | right hp => cases hp

end Pattern

namespace MatchContext

open MatchM

/-- Patterns and expressions, pairwise, if there are as many of the ones as of the others. -/
def pairs? (ps : List Pattern) (es : List Expr) : Option (List (Pattern × Expr)) :=
  if ps.length = es.length then some (ps.zip es) else none

/-- The visits that a pattern with a form demands of the expression that is looked at, if it has the form. -/
def formDemands (c : MatchContext) (p : Pattern) (e : Expr) : Option (List (Pattern × Expr)) :=
  match p, e with
  | .constant _, .constant .. | .anyTuple _, .tuple .. => some []
  | .external _ symbol, .external _ s => if symbol.isEmpty || s == symbol then some [] else none
  | .tuple _ ps, .tuple _ es => pairs? ps es
  | .item _ q index, .item _ t k => if index.all (· == k) then some [(q, t)] else none
  | .function _ ps q, .function _ params body _ => (pairs? ps params).map (· ++ [(q, body)])
  | .anyFunction _ q, .function _ _ body _ => some [(q, body)]
  | .cond _ q₁ q₂ q₃, .cond _ e₁ e₂ e₃ => some [(q₁, e₁), (q₂, e₂), (q₃, e₃)]
  | .anyCall _ callee, .call _ f _ _ => some [(callee, f)]
  | .call _ callee ps, .call _ f args _ => (pairs? ps args).map ((callee, f) :: ·)
  | .dims _ ds, .dims _ es => if c.oracle.shapesEqual ds es then some [] else none
  | _, _ => none

/-- The visits that a pattern demands of an expression, in order.  There are none if the pattern does not match for
another reason, or tries more than one thing. -/
def demands (c : MatchContext) (p : Pattern) (e : Expr) : Option (List (Pattern × Expr)) :=
  match p with
  | .wildcard _ => some []
  | .either .. | .negation .. | .dominator .. => none
  | .both _ l r => some [(l, e), (r, e)]
  | .var _ name => if e.var?.any fun x => name.isEmpty || x.name == name then some [] else none
  | .expr _ target =>
    if target.equal e || (!c.isStuck e && ((c.follow e).id != e.id && target.equal (c.follow e))) then some []
    else none
  | .hasAttrs _ q attrs =>
    if c.isStuck e then none
    else match attrs.heldBy c.registry (c.follow e) with
      | .ok true => some [(q, e)]
      | _ => none
  | .hasType _ q t => if e.inferType? == some t then some [(q, e)] else none
  | .hasShape _ q ds => if (e.shape?.bind Shape.dims?).any (c.oracle.shapesEqual ds) then some [(q, e)] else none
  | .hasDType _ q d => if e.dtype? == some d then some [(q, e)] else none
  | .runtimeShape _ => if e.shape?.any Shape.isRuntime then some [] else none
  | p => if c.isStuck e then none else c.formDemands p (c.follow e)

/-- Visits succeed one after the other. -/
def Visits (c : MatchContext) : List (Pattern × Expr) → Session → Session → Prop
  | [], s, s' => s' = s
  | (p, e) :: l, s, s' => ∃ t, Succeeds (c.visit p e) s t ∧ c.Visits l t s'

variable {c : MatchContext} {p q : Pattern} {e f : Expr} {s s' : Session} {l l' : List (Pattern × Expr)}

theorem visits_singleton : c.Visits [(p, e)] s s' ↔ Succeeds (c.visit p e) s s' :=
  ⟨fun ⟨_, h, ht⟩ => ht ▸ h, fun h => ⟨s', h, rfl⟩⟩

theorem visits_append : ∀ {l : List (Pattern × Expr)} {s : Session},
    c.Visits (l ++ l') s s' ↔ ∃ t, c.Visits l s t ∧ c.Visits l' t s'
  | [], s => by simp [Visits]
  | (p, e) :: l, s => by
    simp only [List.cons_append, Visits, visits_append (l := l)]
    exact ⟨fun ⟨t, h, u, hl, hl'⟩ => ⟨u, ⟨t, h, hl⟩, hl'⟩, fun ⟨u, ⟨t, h, hl⟩, hl'⟩ => ⟨t, h, u, hl, hl'⟩⟩

theorem Visits.extends : ∀ {l : List (Pattern × Expr)} {s : Session}, c.Visits l s s' → s.Extends s'
  | [], s, h => h ▸ .refl s
  | (p, e) :: _, s, ⟨_, hm, hl⟩ => ((c.visit_atomic p e).keeps s).of_run hm |>.trans (Visits.extends hl)

/-- What succeeds from one session succeeds from a related one, if each visit does on the way. -/
theorem Visits.related {R : Session → Session → Prop} : ∀ {l : List (Pattern × Expr)} {s t : Session},
    (∀ r ∈ l, ∀ {s u t}, R s t → Succeeds (c.visit r.1 r.2) s u → u.Extends s' →
      ∃ v, Succeeds (c.visit r.1 r.2) t v ∧ R u v) →
    R s t → c.Visits l s s' → ∃ t', c.Visits l t t' ∧ R s' t'
  | [], s, t, _, hst, h => ⟨t, rfl, h ▸ hst⟩
  | r :: l, s, t, hl, hst, ⟨u, hu, hs'⟩ => by
    obtain ⟨hr, hl⟩ := List.forall_mem_cons.1 hl
    obtain ⟨v, hv, huv⟩ := hr hst hu hs'.extends
    obtain ⟨t', ht', hst'⟩ := Visits.related hl huv hs'
    exact ⟨t', ⟨v, hv, ht'⟩, hst'⟩

theorem succeeds_visitAll : ∀ {ps : List Pattern} {es : List Expr} {s : Session},
    Succeeds (c.visitAll ps es) s s' ↔ ps.length = es.length ∧ c.Visits (ps.zip es) s s'
  | [], [], s => by
    rw [visitAll, succeeds_pure]
    simp [Visits]
  | [], _ :: _, s | _ :: _, [], s => by
    rw [visitAll, succeeds_pure] <;> simp
  | p :: ps, e :: es, s => by
    rw [visitAll]
    by_cases hlength : ps.length = es.length
    · rw [if_pos (by simpa using hlength), succeeds_and not_succeeds_pure_false]
      have hrest : ∀ {t}, Succeeds (c.visitAll ps es) t s' ↔ c.Visits (ps.zip es) t s' :=
        succeeds_visitAll.trans (and_iff_right hlength)
      simp only [hrest, hlength, List.length_cons, List.zip_cons_cons, Visits, true_and]
    · rw [if_neg (by simpa using hlength)]
      refine iff_of_false (not_succeeds_pure_false _ _) fun h => hlength ?_
      simpa using h.1

/-- What a call pattern asks of the arguments of a call, once its callee was bound: they are tried in order and, for a
commutative operator, in reverse. -/
def visitArgs (c : MatchContext) (callee : Pattern) (ps : List Pattern) (es : List Expr) : MatchM Bool := do
  if ← orUndo (c.visitAll ps es) then return true
  else if c.config.commutative && callee.operator?.any (·.isCommutative) then orUndo (c.visitAll ps.reverse es)
  else return false

/-- A call pattern that is not re-associated asks for its callee, and then for its arguments. -/
theorem succeeds_call {i : PatternId} {callee : Pattern} {ps : List Pattern} {info : NodeInfo} {args : List Expr}
    {attrs : Option Attrs} (hnone : ∀ n e, (Pattern.call i callee ps).reassociations n e = []) :
    Succeeds (c.formBy c.visit (.call i callee ps) (.call info f args attrs)) s s' ↔
      ∃ t, Succeeds (c.visit callee f) s t ∧ Succeeds (c.visitArgs callee ps args) t s' := by
  have hagain : ∀ t t', ¬Succeeds (if c.config.associative = true then
      reassociatedBy c.visit (.call i callee ps) (.call info f args attrs) else pure false) t t' := fun t t' h => by
    simp only [succeeds_ite, reassociatedBy, hnone, List.anyM_nil] at h
    exact absurd h.2 (fun h => by cases h)
  rw [formBy, succeeds_and hagain, visitAllBy_visit, visitAllBy_visit, visitArgs]

/-- What a pattern without a choice asks of the form. -/
theorem succeeds_form (hp : p.branches = false) :
    Succeeds (c.formBy c.visit p e) s s' ↔ ∃ l, c.formDemands p e = some l ∧ c.Visits l s s' := by
  have hfails : Succeeds (pure false) s s' ↔ ∃ l, none = some l ∧ c.Visits l s s' :=
    iff_of_false (not_succeeds_pure_false s s') fun ⟨_, h, _⟩ => (by cases h)
  have hanswer : ∀ b : Bool, Succeeds (pure b) s s' ↔
      ∃ l, (if b then some [] else none) = some l ∧ c.Visits l s s' := fun b => by
    cases b with
    | true => simp [succeeds_pure, Visits]
    | false => exact hfails
  have hall : ∀ {ps : List Pattern} {es : List Expr} {s s' : Session}, Succeeds (visitAllBy c.visit ps es) s s' ↔
      ∃ l, pairs? ps es = some l ∧ c.Visits l s s' := fun {ps es s s'} => by
    rw [visitAllBy_visit, succeeds_visitAll, pairs?]
    split <;> simp [*]
  cases p <;> cases e <;> simp only [formBy, formDemands] <;> try exact hfails
  case constant.constant => exact hanswer true
  case anyTuple.tuple => exact hanswer true
  case external.external => exact hanswer _
  case dims.dims => exact hanswer _
  case tuple.tuple => exact hall
  case item.item =>
    rw [succeeds_ite]
    split <;> simp [*, visits_singleton]
  case anyFunction.function => simp [visits_singleton]
  case anyCall.call => simp [visits_singleton]
  case function.function q _ _ body _ =>
    rw [succeeds_and not_succeeds_pure_false]
    simp only [hall, Option.map_eq_some_iff]
    constructor
    · rintro ⟨t, ⟨l, hl, hparams⟩, hbody⟩
      exact ⟨_, ⟨l, hl, rfl⟩, visits_append.2 ⟨t, hparams, visits_singleton.2 hbody⟩⟩
    · rintro ⟨_, ⟨l, hl, rfl⟩, h⟩
      obtain ⟨t, hparams, hbody⟩ := visits_append.1 h
      exact ⟨t, ⟨l, hl, hparams⟩, visits_singleton.1 hbody⟩
  case cond.cond => simp [succeeds_and not_succeeds_pure_false, Visits]
  case call.call i callee ps j f args attrs =>
    have hcomm : callee.operator?.any (·.isCommutative) = false := (Bool.or_eq_false_iff.1 hp).1
    have hgrows : Keeps Session.Grows (c.visitAll ps args) := .visitAll fun p _ e => (c.visit_atomic p e).keeps.grows
    have hargs : ∀ {t}, Succeeds (c.visitArgs callee ps args) t s' ↔ ∃ l, pairs? ps args = some l ∧ c.Visits l t s' :=
      fun {t} => by
        rw [visitArgs, hcomm, Bool.and_false, if_neg Bool.false_ne_true, succeeds_and not_succeeds_pure_false]
        simp [succeeds_orUndo hgrows, ← hall, visitAllBy_visit, succeeds_pure]
    have hcall : Succeeds (c.formBy c.visit (.call i callee ps) (.call j f args attrs)) s s' ↔ _ :=
      succeeds_call (Pattern.reassociations_eq_nil hp)
    rw [formBy] at hcall
    rw [hcall]
    simp only [hargs, Option.map_eq_some_iff]
    constructor
    · rintro ⟨t, hcallee, l, hl, h⟩
      exact ⟨_, ⟨l, hl, rfl⟩, t, hcallee, h⟩
    · rintro ⟨_, ⟨l, hl, rfl⟩, t, hcallee, h⟩
      exact ⟨t, hcallee, l, hl, h⟩

/-- What a pattern without a choice asks. -/
theorem succeeds_rule (hp : p.branches = false) :
    Succeeds (c.ruleBy c.visit p e) s s' ↔ ∃ l, c.demands p e = some l ∧ c.Visits l s s' := by
  have hanswer : ∀ b : Bool, Succeeds (pure b) s s' ↔
      ∃ l, (if b then some [] else none) = some l ∧ c.Visits l s s' := fun b => by
    cases b <;> simp [succeeds_pure, Visits]
  have hform : Succeeds (checkFollow c e >>= fun _ => c.formBy c.visit p (c.follow e)) s s' ↔
      ∃ l, (if c.isStuck e then none else c.formDemands p (c.follow e)) = some l ∧ c.Visits l s s' := by
    rw [succeeds_checkFollow, succeeds_form hp]
    cases c.isStuck e <;> simp
  have hpart : ∀ {b : Bool} {q : Pattern}, Succeeds (if b then c.visit q e else pure false) s s' ↔
      ∃ l, (if b then some [(q, e)] else none) = some l ∧ c.Visits l s s' := fun {b q} => by
    cases b <;> simp [visits_singleton, not_succeeds_pure_false]
  cases p with
  | either | negation | dominator => cases hp
  | wildcard => exact hanswer true
  | var | runtimeShape => exact hanswer _
  | both => simp [ruleBy, demands, succeeds_and not_succeeds_pure_false, Visits]
  | expr _ target =>
    simp only [ruleBy, demands]
    cases target.equal e with
    | true => exact hanswer true
    | false =>
      rw [if_neg Bool.false_ne_true, succeeds_checkFollow, Bool.false_or]
      cases c.isStuck e <;> simp [hanswer]
  | hasAttrs _ q attrs =>
    simp only [ruleBy, demands, succeeds_and not_succeeds_pure_false, succeeds_checkFollow, succeeds_heldBy]
    cases c.isStuck e with
    | true => simp
    | false =>
      rw [if_neg Bool.false_ne_true]
      split
      · rename_i hheld
        simp [hheld, visits_singleton]
      · rename_i hheld
        simp [show attrs.heldBy c.registry (c.follow e) ≠ .ok true from hheld]
  | hasType | hasShape | hasDType => exact hpart
  | _ => exact hform

theorem succeeds_visit_iff (hs : s.memoize = true) : Succeeds (c.visit p e) s s' ↔
    (∃ bound, s.trail.get? p.id = some bound ∧ bound.id = e.id ∧ s' = s) ∨
      s.trail.get? p.id = none ∧ ∃ t, Succeeds (c.ruleBy c.visit p e) s t ∧ s' = t.bind p e := by
  rw [visit_eq_visitBy, visitBy, succeeds_attempt (c.extends_ruleBy p e).grows hs]

/-- A call pattern that is not re-associated and not bound asks for its callee, and then for its arguments. -/
theorem succeeds_visit_call {i : PatternId} {callee : Pattern} {ps : List Pattern}
    (hnone : ∀ n e, (Pattern.call i callee ps).reassociations n e = []) (hs : s.memoize = true)
    (hfree : s.trail.get? i = none) : Succeeds (c.visit (.call i callee ps) e) s s' ↔ c.isStuck e = false ∧
      ∃ info g es attrs, c.follow e = .call info g es attrs ∧ ∃ t u, Succeeds (c.visit callee g) s t ∧
        Succeeds (c.visitArgs callee ps es) t u ∧ s' = u.bind (.call i callee ps) e := by
  have hself : s.trail.get? (Pattern.call i callee ps).id = none := hfree
  rw [succeeds_visit_iff hs]
  simp only [hself, reduceCtorEq, false_and, exists_false, false_or, true_and, ruleBy, succeeds_checkFollow]
  cases c.follow e with
  | call info g es attrs =>
    simp only [succeeds_call hnone, Expr.call.injEq]
    grind
  | _ => simp [formBy, not_succeeds_pure_false]

/-- **A visit of a pattern without a choice.**  If the pattern is bound, it is compared with the node.  Otherwise what
it demands is visited, and it is bound. -/
theorem succeeds_visit (hp : p.branches = false) (hs : s.memoize = true) : Succeeds (c.visit p e) s s' ↔
    (∃ bound, s.trail.get? p.id = some bound ∧ bound.id = e.id ∧ s' = s) ∨
      s.trail.get? p.id = none ∧ ∃ l, c.demands p e = some l ∧ ∃ t, c.Visits l s t ∧ s' = t.bind p e := by
  rw [succeeds_visit_iff hs]
  simp only [succeeds_rule hp]
  refine or_congr_right (and_congr_right fun _ => ⟨?_, ?_⟩)
  · rintro ⟨t, ⟨l, hl, ht⟩, hs'⟩
    exact ⟨l, hl, t, ht, hs'⟩
  · rintro ⟨l, hl, t, ht, hs'⟩
    exact ⟨t, ⟨l, hl, ht⟩, hs'⟩

/-- What a form demands is to visit parts of the pattern at inputs of the expression. -/
theorem mem_formDemands (h : c.formDemands p e = some l) {r : Pattern × Expr} (hr : r ∈ l) :
    r.1 ∈ p.children ∧ r.2 ∈ e.children := by
  have hpairs : ∀ {ps es l}, pairs? ps es = some l → ∀ r ∈ l, r.1 ∈ ps ∧ r.2 ∈ es := fun {ps es l} h r hr => by
    rw [pairs?] at h
    split at h
    · cases h
      exact List.of_mem_zip hr
    · cases h
  unfold formDemands at h
  split at h
  all_goals simp only [Pattern.children, Expr.children]
  case h_6 =>
    obtain ⟨l, hl, rfl⟩ := Option.map_eq_some_iff.1 h
    grind
  case h_10 =>
    obtain ⟨l, hl, rfl⟩ := Option.map_eq_some_iff.1 h
    grind
  all_goals grind

/-- What is demanded is to visit parts of the pattern. -/
theorem mem_demands (h : c.demands p e = some l) {r : Pattern × Expr} (hr : r ∈ l) :
    r.1 ∈ p.children ∧ c.PassesOn e r.2 := by
  have hform : (if c.isStuck e then none else c.formDemands p (c.follow e)) = some l →
      r.1 ∈ p.children ∧ c.PassesOn e r.2 := fun h => by
    split at h
    · cases h
    · exact (mem_formDemands h hr).imp_right .inr
  unfold demands at h
  split at h
  all_goals try exact hform h
  all_goals simp only [Pattern.children, PassesOn]
  all_goals grind

end MatchContext
end Dataflow
