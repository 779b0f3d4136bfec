import Dataflow.Proofs.Expr.Equality
import Dataflow.Proofs.Match.Faults
import Dataflow.Proofs.Match.Linear
/-!
# Values in the place of variables

A match that follows variables to their values is compared with a match of the expression in which the values stand in
the place of the variables (`substitute`).  For patterns that ask for nothing but forms and operators, both are
readings, and the readings go side by side but for re-association: whether it applies is seen from the operands and the
callee as they stand, so a variable hides the product or the quotient that it is bound to.  Values put in can then only
add re-associations (`reassociations_substitute`), which a pattern without negation cannot lose a match by; and where
none are added, the verdicts are equal (`isMatch_substitute`).
-/
namespace Dataflow

/-! ## Expressions with their values -/

namespace Expr

section
variable (b : Bindings) (number : NodeInfo → NodeInfo)

mutual
/-- The expression with every variable that has a value replaced by it.  Nodes with inputs are made anew, with the data
that `number` gives them, but for functions, which stay as they are. -/
def substitute : Expr → Expr
  | var i v => (b.value? v).getD (var i v)
  | call i f args attrs => call (number i) (substitute f) (substituteAll args) attrs
  | tuple i fs => tuple (number i) (substituteAll fs)
  | item i t k => item (number i) (substitute t) k
  | cond i c t e => cond (number i) (substitute c) (substitute t) (substitute e)
  | constant i t => constant i t
  | external i s => external i s
  | op i o => op i o
  | function i ps body attrs => function i ps body attrs
  | dims i ds => dims i ds
def substituteAll : List Expr → List Expr
  | [] => []
  | e :: es => substitute e :: substituteAll es
end

/-- The same form of node, with values put into its inputs.  A variable stays as it is. -/
def substituteInputs : Expr → Expr
  | var i v => var i v
  | e => e.substitute b number

end

variable {b : Bindings} {number : NodeInfo → NodeInfo} {e : Expr}

theorem substituteAll_eq_map : ∀ es : List Expr, substituteAll b number es = es.map (substitute b number)
  | [] => rfl
  | e :: es => congrArg (e.substitute b number :: ·) (substituteAll_eq_map es)

/-- No variable in an expression has a value. -/
def Unbound (b : Bindings) (e : Expr) : Prop := ∀ i v, e.Reaches (.var i v) → b.value? v = none

theorem Unbound.child {c : Expr} (h : e.Unbound b) (hc : c ∈ e.children) : c.Unbound b := fun i v hv =>
  h i v ((Reaches.refl.child hc).trans hv)

/-- Where no variable has a value, nothing is replaced. -/
theorem substitute_eq_self (e : Expr) (h : e.Unbound b) : e.substitute b (fun i => i) = e := by
  induction e using children_induction with
  | step e ih =>
    have hpart : ∀ c ∈ e.children, c.substitute b (fun i => i) = c := fun c hc => ih c hc (h.child hc)
    have hall : ∀ es : List Expr, (∀ c ∈ es, c ∈ e.children) → substituteAll b (fun i => i) es = es := fun es hes => by
      rw [substituteAll_eq_map, List.map_congr_left fun c hc => hpart c (hes c hc), List.map_id']
    cases e with
    | var i v => rw [substitute, h i v .refl, Option.getD_none]
    | call i f args =>
      rw [substitute, hpart f (by simp [children]), hall args fun c hc => by simp [children, hc]]
    | tuple i fs => rw [substitute, hall fs fun _ hc => hc]
    | item i t => rw [substitute, hpart t (by simp [children])]
    | cond i c t e =>
      rw [substitute, hpart c (by simp [children]), hpart t (by simp [children]), hpart e (by simp [children])]
    | _ => rfl

/-- Unless it is a variable with a value, an expression keeps its form. -/
theorem substitute_eq_substituteInputs (h : e.var?.bind b.value? = none) :
    e.substitute b number = e.substituteInputs b number := by
  cases e with
  | var i v =>
    rw [substitute, show b.value? v = none from h]
    rfl
  | _ => rfl

theorem children_substituteInputs (h : ∀ i ps body attrs, e ≠ function i ps body attrs) :
    (e.substituteInputs b number).children = e.children.map (substitute b number) := by
  cases e with
  | function i ps body attrs => exact absurd rfl (h i ps body attrs)
  | _ => simp [substituteInputs, substitute, substituteAll_eq_map, children]

theorem operator?_substituteInputs (e : Expr) : (e.substituteInputs b number).operator? = e.operator? := by
  cases e <;> rfl

theorem operator?_substitute (h : e.operator?.isSome = true) : (e.substitute b number).operator? = e.operator? := by
  cases e with
  | op => rfl
  | _ => cases h

theorem isCallTo_substitute {name : String} (h : e.isCallTo name = true) :
    (e.substitute b number).isCallTo name = true := by
  cases e with
  | call i f args =>
    rw [isCallTo, calledOperator?, callee?, Option.bind_some] at h
    rw [substitute, isCallTo, calledOperator?, callee?, Option.bind_some, operator?_substitute (Option.isSome_of_any h)]
    exact h
  | _ => cases h

/-- What is nested before values are put in is nested after it. -/
theorem nests_substitute {outer inner : String} (h : e.nests outer inner = true) :
    (e.substitute b number).nests outer inner = true := by
  unfold nests at h
  split at h
  · rename_i i f x y attrs
    rw [Bool.and_eq_true, Bool.or_eq_true] at h
    obtain ⟨hf, hxy⟩ := h
    simp only [substitute, substituteAll, nests, Bool.and_eq_true, Bool.or_eq_true,
      operator?_substitute (Option.isSome_of_any hf)]
    exact ⟨hf, hxy.imp isCallTo_substitute isCallTo_substitute⟩
  · cases h

/-- Two expressions are alike in whether they are a product with a quotient inside or a quotient with a product inside,
as far as their operands are seen without following variables. -/
def NestAlike (d e : Expr) : Prop :=
  d.nests "multiply" "divide" = e.nests "multiply" "divide" ∧ d.nests "divide" "multiply" = e.nests "divide" "multiply"

end Expr

namespace Pattern

theorem reassociations_congr {d e : Expr} (h : d.NestAlike e) (n : Nat) (p : Pattern) :
    reassociations n p d = reassociations n p e := by
  unfold reassociations
  rw [h.1, h.2]

/-- With values put in, there are the same re-associations as before, if there were any. -/
theorem reassociations_substitute (b : Bindings) (number : NodeInfo → NodeInfo) (n : Nat) (p : Pattern) (e : Expr) :
    reassociations n p e = [] ∨ reassociations n p (e.substitute b number) = reassociations n p e := by
  unfold reassociations
  split
  · split
    · split
      · rename_i h
        rw [if_pos (Expr.nests_substitute h)]
        exact .inr rfl
      · exact .inl rfl
    · exact .inl rfl
  · split
    · split
      · rename_i h
        rw [if_pos (Expr.nests_substitute h)]
        exact .inr rfl
      · exact .inl rfl
    · exact .inl rfl

/-! ## Patterns that ask for the form of an expression -/

/-- Asks for nothing but the form of an expression and for operators. -/
def asksForm : Pattern → Bool
  | wildcard _ | constant _ | external .. | anyTuple _ | tuple .. | item .. | cond .. | either .. | both ..
  | negation .. => true
  | expr _ target => target.operator?.isSome
  | call _ callee _ | anyCall _ callee => callee.operator?.isSome
  | _ => false

def AsksForms (p : Pattern) : Prop := ∀ q, p.Reaches q → q.asksForm = true

variable {p q : Pattern}

theorem AsksForms.child (h : p.AsksForms) (hq : q ∈ p.children) : q.AsksForms := fun r hr =>
  h r ((Reaches.refl.child hq).trans hr)

theorem AsksForms.of_operands? {name : String} {callee x y : Pattern} (h : p.AsksForms)
    (hp : p.operands? name = some (callee, x, y)) :
    (callee.AsksForms ∧ callee.operator?.isSome = true) ∧ x.AsksForms ∧ y.AsksForms := by
  have hchild : ∀ q ∈ [callee, x, y], q.AsksForms := fun q hq => h.child (children_of_operands? hp ▸ hq)
  exact ⟨⟨hchild callee (by simp), isSome_operator?_of_operands? hp⟩, hchild x (by simp), hchild y (by simp)⟩

theorem AsksForms.derive {callee x y : Pattern} (k : Nat) (hcallee : callee.AsksForms ∧ callee.operator?.isSome = true)
    (hx : x.AsksForms) (hy : y.AsksForms) : (derive k callee x y).AsksForms := fun d hd => by
  rcases reaches_derive.1 hd with rfl | hd | hd | hd
  · exact hcallee.2
  · exact hcallee.1 d hd
  · exact hx d hd
  · exact hy d hd

theorem AsksForms.of_mem_reassociations {n : Nat} {e : Expr} (h : p.AsksForms) (hq : q ∈ reassociations n p e) :
    q.AsksForms := by
  cases reassociated_of_mem hq with
  | second hp hm | first hp hm =>
    obtain ⟨hdiv, hproduct, hc⟩ := h.of_operands? hp
    obtain ⟨hmul, ha, hb⟩ := hproduct.of_operands? hm
    first
    | exact .derive _ hmul hb (.derive _ hdiv ha hc)
    | exact .derive _ hmul ha (.derive _ hdiv hb hc)
  | left hp hd =>
    obtain ⟨hmul, hquotient, hc⟩ := h.of_operands? hp
    obtain ⟨hdiv, ha, hb⟩ := hquotient.of_operands? hd
    exact .derive _ hdiv (.derive _ hmul ha hc) hb
  | right hp hd =>
    obtain ⟨hmul, hc, hquotient⟩ := h.of_operands? hp
    obtain ⟨hdiv, ha, hb⟩ := hquotient.of_operands? hd
    exact .derive _ hdiv (.derive _ hmul ha hc) hb

theorem AsksForms.containsDominator (h : p.AsksForms) : p.containsDominator = false := by
  by_contra hd
  obtain ⟨i, child, path, parent, hr⟩ := exists_reaches_of_containsDominator (by simpa using hd)
  have := h _ hr
  cases this

end Pattern

/-! ## Following variables and putting in their values -/

namespace Bindings

/-- Values in which no variable has a value again. -/
def Flat (b : Bindings) : Prop := ∀ v e, b.value? v = some e → e.Unbound b

theorem of_value?_set_empty {v w : Var} {e u : Expr} (h : (empty.set v e).value? w = some u) :
    w.id = v.id ∧ u = e := by
  rw [value?_set, value?_empty] at h
  split at h
  · exact ⟨‹_›, (Option.some.inj h).symm⟩
  · cases h

theorem flat_set_empty {v : Var} {e : Expr} (h : ∀ i w, e.Reaches (.var i w) → w.id ≠ v.id) : (empty.set v e).Flat := by
  intro w u hu i x hx
  rw [(of_value?_set_empty hu).2] at hx
  rw [value?_set, if_neg (h i x hx), value?_empty]

end Bindings

namespace MatchContext

/-- The same context, with variables followed to some values. -/
def following (c : MatchContext) (b : Bindings) : MatchContext :=
  { c with bindings := some b, config := c.config.withAutoJump }

theorem follow_following (c : MatchContext) (b : Bindings) (e : Expr) :
    (c.following b).follow e = (e.var?.bind b.value?).getD e := by
  rw [follow, if_pos (show (c.following b).config.autoJump = true from rfl)]
  cases e.var? <;> rfl

theorem follow_eq_self {c : MatchContext} (h : c.config.autoJump = false) (e : Expr) : c.follow e = e := by
  rw [follow, h]
  rfl

/-- Expressions that are numbered together: with a node its inputs, and the values of variables. -/
structure NumberedTogether (b : Bindings) (known : Expr → Prop) : Prop where
  child : ∀ e, known e → ∀ f ∈ e.children, known f
  value : ∀ v e, b.value? v = some e → known e
  coherent : ∀ d e, known d → known e → d.id = e.id → d = e

/-- An expression and what becomes of it when values are put in are known, and re-association sees the same operands in
both, if a comparison asks for it. -/
structure Becomes (ρ : Bool → Bool → Prop) (b : Bindings) (known : Expr → Prop) (number : NodeInfo → NodeInfo)
    (e : Expr) : Prop where
  nested : (∀ a, ρ false a) ∨ ∀ d, e.Reaches d → d.NestAlike (d.substitute b number)
  before : known e
  after : known (e.substitute b number)

/-- A pattern asks for forms only, refers to operators that are known, and where it has a negation, the comparison is
kept by negation. -/
structure Compared (ρ : Bool → Bool → Prop) (known : Expr → Prop) (p : Pattern) : Prop where
  forms : p.AsksForms
  target : ∀ i t, p.Reaches (.expr i t) → known t
  not : ∀ i q, p.Reaches (.negation i q) → ∀ a a', ρ a a' → ρ (!a) (!a')

variable {c : MatchContext} {ρ : Bool → Bool → Prop} {b : Bindings} {known : Expr → Prop}
  {number : NodeInfo → NodeInfo} {e f : Expr} {p q : Pattern}

theorem Compared.child (h : Compared ρ known p) (hq : q ∈ p.children) : Compared ρ known q :=
  have hreaches : ∀ d, q.Reaches d → p.Reaches d := fun _ hd => (Pattern.Reaches.refl.child hq).trans hd
  ⟨h.forms.child hq, fun i t ht => h.target i t (hreaches _ ht), fun i r hr => h.not i r (hreaches _ hr)⟩

theorem Compared.of_mem_reassociations {n : Nat} (h : Compared ρ known p) (hq : q ∈ Pattern.reassociations n p e) :
    Compared ρ known q :=
  ⟨h.forms.of_mem_reassociations hq,
    fun i t ht => h.target i t (Pattern.reaches_of_mem_reassociations_of_ne_call hq ht (by simp)),
    fun i r hr => h.not i r (Pattern.reaches_of_mem_reassociations_of_ne_call hq hr (by simp))⟩

/-! ### One step of both matches -/

/-- What one match follows is of the form that the other one finds in its place. -/
theorem Becomes.follow (h : Becomes ρ b known number e) (hb : b.Flat) (hknown : NumberedTogether b known) :
    ∃ number', e.substitute b number = ((c.following b).follow e).substituteInputs b number' ∧
      ((c.following b).follow e).substitute b number' = ((c.following b).follow e).substituteInputs b number' ∧
        Becomes ρ b known number' ((c.following b).follow e) := by
  rw [follow_following]
  cases hvalue : e.var?.bind b.value? with
  | none =>
    have hkept : e.substitute b number = e.substituteInputs b number := Expr.substitute_eq_substituteInputs hvalue
    exact ⟨number, hkept, hkept, h⟩
  | some u =>
    obtain ⟨v, hv, hu⟩ := Option.bind_eq_some_iff.1 hvalue
    have hsame : ∀ d, u.Reaches d → d.substitute b (fun i => i) = d := fun d hd =>
      d.substitute_eq_self fun i w hw => hb v u hu i w (hd.trans hw)
    have hkept : u.substitute b (fun i => i) = u.substituteInputs b fun i => i := by
      refine Expr.substitute_eq_substituteInputs ?_
      cases u with
      | var i w => exact hb v _ hu i w .refl
      | _ => rfl
    have hbecomes : e.substitute b number = u := by
      cases e with
      | var i w =>
        cases hv
        rw [Expr.substitute, hu]
        rfl
      | _ => cases hv
    have hu' : known u := hknown.value v u hu
    refine ⟨fun i => i, ?_, hkept, .inr fun d hd => ?_, hu', ?_⟩
    · rw [hbecomes, Option.getD_some, ← hkept, hsame u .refl]
    · rw [hsame d hd]
      exact ⟨rfl, rfl⟩
    · rw [Option.getD_some, hsame u .refl]
      exact hu'

theorem Becomes.child (h : Becomes ρ b known number e) (hknown : NumberedTogether b known) (hf : f ∈ e.children)
    (hf' : f.substitute b number ∈ (e.substitute b number).children) : Becomes ρ b known number f :=
  ⟨h.nested.imp_right fun hall d hd => hall d ((Expr.Reaches.refl.child hf).trans hd), hknown.child e h.before f hf,
    hknown.child _ h.after _ hf'⟩

end MatchContext

/-- What equals a reference to an operator refers to an operator of that name. -/
theorem Expr.equal_of_operator? {target e : Expr} {o : Operator} (h : target.operator? = some o)
    (hid : target.id = e.id → target = e) : target.equal e = e.operator?.any (o.name == ·.name) := by
  cases target with
  | op i o' =>
    cases h
    rw [equal, equalUnder.eq_def, Proven.run_remember]
    split
    · rename_i hsame
      rw [← hid (by simpa using hsame)]
      simp [operator?]
    · cases e <;> rfl
  | _ => cases h

namespace MatchContext

variable {c : MatchContext} {ρ : Bool → Bool → Prop} {b : Bindings} {known : Expr → Prop}
  {number : NodeInfo → NodeInfo} {e f : Expr} {p q : Pattern}

/-- Both matches find the same operators. -/
theorem reads_operator (hc : c.config.autoJump = false) (hb : b.Flat) (hknown : NumberedTogether b known)
    (h : Becomes ρ b known number e) {i : PatternId} {t : Expr} (ht : known t) (hop : t.operator?.isSome = true) :
    (c.following b).reads (.expr i t) e = c.reads (.expr i t) (e.substitute b number) := by
  obtain ⟨o, ho⟩ := Option.isSome_iff_exists.1 hop
  have hequal : ∀ d, known d → t.equal d = d.operator?.any (o.name == ·.name) := fun d hd =>
    Expr.equal_of_operator? ho (hknown.coherent t d ht hd)
  obtain ⟨number', hsub, -, hfollow⟩ := h.follow (c := c) hb hknown
  rw [reads, reads, follow_eq_self hc, hequal e h.before, hequal _ hfollow.before, hequal _ h.after, hsub,
    Expr.operator?_substituteInputs]
  by_cases hid : ((c.following b).follow e).id = e.id
  · rw [hknown.coherent _ e hfollow.before h.before hid]
    simp
  · have hnone : e.operator? = none := by
      cases e with
      | op => exact absurd rfl hid
      | _ => rfl
    simp [hid, hnone]

theorem reads_callee (hc : c.config.autoJump = false) (hb : b.Flat) (hknown : NumberedTogether b known)
    (hp : Compared ρ known p) (hop : p.operator?.isSome = true) (h : Becomes ρ b known number e) :
    (c.following b).reads p e = c.reads p (e.substitute b number) := by
  cases p with
  | expr i t => exact reads_operator hc hb hknown h (hp.target i t .refl) hop
  | _ => cases hop

theorem readsAll_substitute (hρ : Comparison ρ) {ps : List Pattern} {es : List Expr}
    (h : ∀ p ∈ ps, ∀ f ∈ es, ρ ((c.following b).reads p f) (c.reads p (f.substitute b number))) :
    ρ ((c.following b).readsAll ps es) (c.readsAll ps (Expr.substituteAll b number es)) := by
  rw [Expr.substituteAll_eq_map]
  exact readsAll_compare hρ h

/-- Re-association makes the same patterns for both matches, or the comparison holds without those for the first. -/
theorem Becomes.reassociations (h : Becomes ρ b known number e) (n : Nat) (p : Pattern) :
    Pattern.reassociations n p (e.substitute b number) = Pattern.reassociations n p e ∨
      Pattern.reassociations n p e = [] ∧ ∀ a, ρ false a := by
  rcases h.nested with hfalse | hall
  · rcases Pattern.reassociations_substitute b number n p e with hnil | hsame
    · exact .inr ⟨hnil, hfalse⟩
    · exact .inl hsame
  · exact .inl (Pattern.reassociations_congr (hall e .refl) n p).symm

theorem Becomes.any_reassociations (hρ : Comparison ρ) (h : Becomes ρ b known number e) (n : Nat) (p : Pattern)
    (hreads : ∀ q ∈ Pattern.reassociations n p e,
      ρ ((c.following b).reads q e) (c.reads q (e.substitute b number))) :
    ρ ((Pattern.reassociations n p e).any ((c.following b).reads · e))
      ((Pattern.reassociations n p (e.substitute b number)).any (c.reads · (e.substitute b number))) := by
  rcases h.reassociations n p with hsame | ⟨hnil, hfalse⟩
  · rw [hsame]
    exact hρ.any hreads
  · rw [hnil]
    exact hfalse _

/-- **Following variables and putting in their values compare as re-association lets them.** -/
theorem reads_substitute (hρ : Comparison ρ) (hc : c.config.autoJump = false) (hb : b.Flat)
    (hknown : NumberedTogether b known) (p : Pattern) (e : Expr) (hp : Compared ρ known p) :
    ∀ number, Becomes ρ b known number e → ρ ((c.following b).reads p e) (c.reads p (e.substitute b number)) := by
  induction p, e using (c.following b).visit_induction with
  | step p e parts again =>
    intro number h
    have hpart : ∀ q ∈ p.children, ∀ f number, Becomes ρ b known number f →
        ρ ((c.following b).reads q f) (c.reads q (f.substitute b number)) := fun q hq f => parts q hq f (hp.child hq)
    obtain ⟨number', hsub, hkept, hd⟩ := h.follow (c := c) hb hknown
    have hform : p.asksForm = true := hp.forms p .refl
    have hfollow : c.follow (e.substitute b number) = ((c.following b).follow e).substituteInputs b number' := by
      rw [follow_eq_self hc, hsub]
    -- the inputs of what is followed, with what becomes of them
    have hinput : (∀ i ps body attrs, (c.following b).follow e ≠ .function i ps body attrs) → ∀ q ∈ p.children,
        ∀ f ∈ ((c.following b).follow e).children,
          ρ ((c.following b).reads q f) (c.reads q (f.substitute b number')) := fun hfun q hq f hf => by
      refine hpart q hq f number' (hd.child hknown hf ?_)
      rw [hkept, Expr.children_substituteInputs hfun]
      exact List.mem_map_of_mem hf
    cases p with
    | wildcard =>
      rw [reads, reads]
      exact hρ.refl true
    | either _ l r =>
      rw [reads, reads]
      exact hρ.or (hpart l (by simp [Pattern.children]) e number h) (hpart r (by simp [Pattern.children]) e number h)
    | both _ l r =>
      rw [reads, reads]
      exact hρ.and (hpart l (by simp [Pattern.children]) e number h) (hpart r (by simp [Pattern.children]) e number h)
    | negation i q =>
      rw [reads, reads]
      exact hp.not i q .refl _ _ (hpart q (by simp [Pattern.children]) e number h)
    | expr i t =>
      rw [reads_operator hc hb hknown h (hp.target i t .refl) hform]
      exact hρ.refl _
    | constant | external | anyTuple =>
      rw [reads, reads, hfollow]
      cases (c.following b).follow e <;> exact hρ.refl _
    | tuple _ ps =>
      rw [reads, reads, hfollow]
      cases hf : (c.following b).follow e with
      | tuple i es =>
        rw [hf] at hinput
        exact readsAll_substitute hρ (hinput (by simp))
      | _ => exact hρ.refl _
    | item _ q index =>
      rw [reads, reads, hfollow]
      cases hf : (c.following b).follow e with
      | item i t k =>
        rw [hf] at hinput
        exact hρ.and (hρ.refl _) (hinput (by simp) q (by simp [Pattern.children]) t (by simp [Expr.children]))
      | _ => exact hρ.refl _
    | cond _ q₁ q₂ q₃ =>
      rw [reads, reads, hfollow]
      cases hf : (c.following b).follow e with
      | cond i e₁ e₂ e₃ =>
        rw [hf] at hinput
        have hbranch := hinput (by simp)
        exact hρ.and (hbranch q₁ (by simp [Pattern.children]) e₁ (by simp [Expr.children]))
          (hρ.and (hbranch q₂ (by simp [Pattern.children]) e₂ (by simp [Expr.children]))
            (hbranch q₃ (by simp [Pattern.children]) e₃ (by simp [Expr.children])))
      | _ => exact hρ.refl _
    | anyCall _ callee =>
      rw [reads, reads, hfollow]
      cases hf : (c.following b).follow e with
      | call i f args attrs =>
        rw [hf] at hinput
        exact hinput (by simp) callee (by simp [Pattern.children]) f (by simp [Expr.children])
      | _ => exact hρ.refl _
    | call i callee ps =>
      cases hf : (c.following b).follow e with
      | call j f args attrs =>
        have hf' : c.follow (e.substitute b number) = .call (number' j) (f.substitute b number')
            (Expr.substituteAll b number' args) attrs := by
          rw [hfollow, hf]
          rfl
        have hcallee : (c.following b).reads callee f = c.reads callee (f.substitute b number') := by
          refine reads_callee hc hb hknown (hp.child (by simp [Pattern.children])) hform (hd.child hknown ?_ ?_)
          all_goals simp [hf, Expr.substitute, Expr.children]
        have hagain := hd.any_reassociations hρ 0 (.call i callee ps) fun q hq =>
          again 0 q hq (hp.of_mem_reassociations hq) number' hd
        rw [hkept, ← hfollow] at hagain
        rw [hf] at hinput
        have hargs : ∀ {qs : List Pattern}, (∀ q ∈ qs, q ∈ ps) →
            ρ ((c.following b).readsAll qs args) (c.readsAll qs (Expr.substituteAll b number' args)) := fun hqs =>
          readsAll_substitute hρ fun q hq g hg =>
            hinput (by simp) q (by simp [Pattern.children, hqs q hq]) g (by simp [Expr.children, hg])
        rw [reads_call hf, reads_call hf', hcallee]
        split
        · exact hρ.or (hargs fun _ hq => hq) (hρ.and (hρ.refl _) (hargs fun _ => List.mem_reverse.1))
        · exact hρ.and (hρ.refl _) hagain
      | _ =>
        rw [reads, reads, hfollow, hf]
        exact hρ.refl _
    | _ => cases hform

end MatchContext

/-! ## Whole matches -/

namespace Pattern

open MatchM MatchContext

variable {p : Pattern} {b : Bindings} {number : NodeInfo → NodeInfo} {e : Expr}

/-- A match of a pattern without sharing that asks for forms gives an answer, and it is that of the reading. -/
theorem isMatch_eq_reads (hp : p.Numbered) (hlinear : p.Linear) (hforms : p.AsksForms) (registry : Registry) (e : Expr)
    (values : Option Bindings) :
    p.isMatch registry e values = .ok (((matcher values).context registry).reads p e) := by
  have hdominator := hforms.containsDominator
  have hstuck : ¬((matcher values).config.autoJump && (matcher values).bindings.isNone) = true := by
    cases values <;> exact Bool.false_ne_true
  have hpermits : ((matcher values).context registry).Permits (fun _ => True) (fun _ => False) p := by
    refine ⟨fun i q attrs hr => ?_, fun hd => ?_⟩
    · have := hforms _ hr
      cases this
    · rw [hdominator] at hd
      cases hd
  have hraises := relates_visit (closed_true _) (isStuck_eq_false hstuck) p e hpermits trivial .initial
  obtain ⟨hrun, hanswer⟩ := says_run (m := matcher values) hp hlinear hdominator hstuck
  rw [isMatch, hrun]
  rcases hvisit : (((matcher values).context registry).visit p e).run .initial with ⟨_ | matched, s'⟩
  · exact (hraises.of_error hvisit).elim
  · rw [hanswer.of_run hvisit]

/-- The nodes of an expression, of what becomes of it, of the values of variables and of what a pattern refers to. -/
def Knows (p : Pattern) (b : Bindings) (number : NodeInfo → NodeInfo) (e d : Expr) : Prop :=
  ∃ root, (root = e ∨ root = e.substitute b number ∨ (∃ v, b.value? v = some root) ∨ ∃ i, p.Reaches (.expr i root)) ∧
    root.Reaches d

theorem knows_of_closed {es : List Expr} (hes : ∀ d ∈ es, ∀ f ∈ d.children, f ∈ es) (hid : (es.map Expr.id).Nodup)
    (he : e ∈ es) (he' : e.substitute b number ∈ es) (hvalues : ∀ v u, b.value? v = some u → u ∈ es)
    (htargets : ∀ i t, p.Reaches (.expr i t) → t ∈ es) :
    ∀ d d', p.Knows b number e d → p.Knows b number e d' → d.id = d'.id → d = d' := by
  have hmem : ∀ d, p.Knows b number e d → d ∈ es := by
    rintro d ⟨root, rfl | rfl | ⟨v, hv⟩ | ⟨i, hi⟩, hd⟩
    · exact hd.mem_of_closed he hes
    · exact hd.mem_of_closed he' hes
    · exact hd.mem_of_closed (hvalues v root hv) hes
    · exact hd.mem_of_closed (htargets i root hi) hes
  exact fun d d' hd hd' => List.inj_on_of_nodup_map hid (hmem d hd) (hmem d' hd')

/-- **Variables that are followed match like the values in their place, where re-association sees the same.**  For a
pattern without sharing that asks for forms and operators only, and values in which no variable has a value again, a
match that follows variables finds nothing that a match with the values put in would not find, unless the pattern has a
negation.  The two have the same verdict if, in whatever the expression is made of, re-association sees the same
operands of products and quotients before and after the values are put in: it looks at them, and at the callee, without
following variables. -/
theorem isMatch_substitute (p : Pattern) (hp : p.Numbered) (hlinear : p.Linear) (hforms : p.AsksForms) (b : Bindings)
    (hb : b.Flat) (number : NodeInfo → NodeInfo) (e : Expr)
    (hnumbers : ∀ d d', p.Knows b number e d → p.Knows b number e d' → d.id = d'.id → d = d') (registry : Registry) :
    ((∀ i q, ¬p.Reaches (.negation i q)) → p.isMatch registry e (some b) = .ok true →
      p.isMatch registry (e.substitute b number) none = .ok true) ∧
    ((∀ d, e.Reaches d → d.NestAlike (d.substitute b number)) →
      p.isMatch registry e (some b) = p.isMatch registry (e.substitute b number) none) := by
  have hknown : NumberedTogether b (p.Knows b number e) :=
    ⟨fun d ⟨root, hroot, hd⟩ f hf => ⟨root, hroot, hd.child hf⟩, fun v u hu => ⟨u, .inr (.inr (.inl ⟨v, hu⟩)), .refl⟩,
      hnumbers⟩
  have hbefore : p.Knows b number e e := ⟨e, .inl rfl, .refl⟩
  have hafter : p.Knows b number e (e.substitute b number) := ⟨_, .inr (.inl rfl), .refl⟩
  have htarget : ∀ i t, p.Reaches (.expr i t) → p.Knows b number e t := fun i t ht =>
    ⟨t, .inr (.inr (.inr ⟨i, ht⟩)), .refl⟩
  have hjump : ((matcher none).context registry).config.autoJump = false := rfl
  rw [isMatch_eq_reads hp hlinear hforms, isMatch_eq_reads hp hlinear hforms]
  refine ⟨fun hnegation hmatched => ?_, fun hnested => ?_⟩
  · have hcompared : Compared (fun a a' => a = true → a' = true) (p.Knows b number e) p :=
      ⟨hforms, htarget, fun i q hr => absurd hr (hnegation i q)⟩
    exact congrArg Except.ok (reads_substitute comparison_imp hjump hb hknown p e hcompared number
      ⟨.inl fun a h => absurd h Bool.false_ne_true, hbefore, hafter⟩ (Except.ok.inj hmatched))
  · have hcompared : Compared (· = ·) (p.Knows b number e) p :=
      ⟨hforms, htarget, fun _ _ _ _ _ h => by rw [h]⟩
    exact congrArg Except.ok (reads_substitute comparison_eq hjump hb hknown p e hcompared number
      ⟨.inr hnested, hbefore, hafter⟩)

/-- A sum matches in the other order of its arguments, with one of them a variable that has a constant as its value. -/
theorem isMatch_substitute_of_swapped_constant :
    let plus := Expr.op ⟨0, none, none⟩ ⟨"add", some 2⟩
    let y := Expr.var ⟨1, none, none⟩ ⟨0, "y"⟩
    let v : Var := ⟨1, "v"⟩
    let four := Expr.constant ⟨3, none, none⟩ ⟨.scalar .int64, [], [.int 4]⟩
    let b := Bindings.empty.set v four
    let sum := fun i => Expr.call ⟨i, none, none⟩ plus
    let e := sum 4 [y, .var ⟨2, none, none⟩ v] none
    let number := fun i : NodeInfo => { i with id := i.id + 1 }
    let any := Pattern.wildcard (.given 0)
    let p := Pattern.call (.given 3) (.expr (.given 1) plus) [.constant (.given 2), any]
    p.Numbered ∧ p.Linear ∧ p.AsksForms ∧ b.Flat ∧
      (∀ d d', p.Knows b number e d → p.Knows b number e d' → d.id = d'.id → d = d') ∧
      e.substitute b number = sum 5 [y, four] none ∧ (∀ i q, ¬p.Reaches (.negation i q)) ∧
      (∀ d, e.Reaches d → d.NestAlike (d.substitute b number)) ∧
      p.isMatch .empty e (some b) = .ok true ∧ p.isMatch .empty (sum 5 [y, four] none) none = .ok true ∧
      p.isMatch .empty e (some b) = p.isMatch .empty (sum 5 [y, four] none) none := by
  intro plus y v four b sum e number any p
  let ps := [p, .constant (.given 2), any, .expr (.given 1) plus]
  have hclosed : ∀ q ∈ ps, ∀ r ∈ q.children, r ∈ ps := by simp [ps, p, any, children]
  have hmem : ∀ q, p.Reaches q → q ∈ ps := fun q hq => hq.mem_of_closed (by simp [ps]) hclosed
  have hp : p.Numbered := by
    refine numbered_of_closed (hmem p .refl) hclosed ?_ (by decide)
    simp [ps, p, any, Pattern.id]
  have hlinear : p.Linear := by simp [Linear, p, any, ids_eq, children, Pattern.id]
  have hform : ∀ q ∈ ps, q.asksForm = true := by decide
  have hforms : p.AsksForms := fun q hq => hform q (hmem q hq)
  have hb : b.Flat := Bindings.flat_set_empty fun i w h => by
    have := h.mem_of_closed (List.mem_singleton_self four) (by simp [four, Expr.children])
    simp [four] at this
  let es := [plus, y, .var ⟨2, none, none⟩ v, four, e, sum 5 [y, four] none]
  have hes : ∀ d ∈ es, ∀ f ∈ d.children, f ∈ es := by simp [es, e, sum, four, y, plus, Expr.children]
  have htargets : ∀ i t, p.Reaches (.expr i t) → t ∈ es := fun i t ht => by
    have := hmem _ ht
    simp [ps, p, any] at this
    simp [es, this.2]
  have he' : e.substitute b number = sum 5 [y, four] none := rfl
  have hvalues : ∀ w u, b.value? w = some u → u ∈ es := fun w u h => by
    simp [es, (Bindings.of_value?_set_empty h).2]
  have hnumbers : ∀ d d', p.Knows b number e d → p.Knows b number e d' → d.id = d'.id → d = d' :=
    knows_of_closed hes (by decide) (by simp [es]) (by rw [he']; simp [es]) hvalues htargets
  have hnegation : ∀ i q, ¬p.Reaches (.negation i q) := fun i q hq => by
    have := hmem _ hq
    simp [ps, p, any] at this
  have hnested : ∀ d, e.Reaches d → d.NestAlike (d.substitute b number) := fun d hd => by
    have hparts : d ∈ [plus, y, .var ⟨2, none, none⟩ v, e] :=
      hd.mem_of_closed (by simp) (by simp [e, sum, y, plus, Expr.children])
    simp only [List.mem_cons, List.not_mem_nil, or_false] at hparts
    rcases hparts with rfl | rfl | rfl | rfl <;> exact ⟨rfl, rfl⟩
  have hmatched : p.isMatch .empty e (some b) = .ok true := by cbv
  obtain ⟨himplies, hequal⟩ := isMatch_substitute p hp hlinear hforms b hb number e hnumbers .empty
  exact ⟨hp, hlinear, hforms, hb, hnumbers, he', hnegation, hnested, hmatched, himplies hnegation hmatched,
    hequal hnested⟩

/-- A quotient of a product matches a product with a quotient inside, though not if a variable stands for the
quotient. -/
theorem isMatch_substitute_ne_of_quotient_variable :
    let multiply := Expr.op ⟨0, none, none⟩ ⟨"multiply", some 2⟩
    let divide := Expr.op ⟨1, none, none⟩ ⟨"divide", some 2⟩
    let x := Expr.var ⟨2, none, none⟩ ⟨0, "x"⟩
    let y := Expr.var ⟨3, none, none⟩ ⟨1, "y"⟩
    let z := Expr.var ⟨4, none, none⟩ ⟨2, "z"⟩
    let v : Var := ⟨3, "v"⟩
    let quotient := Expr.call ⟨6, none, none⟩ divide [x, z] none
    let b := Bindings.empty.set v quotient
    let product := fun i => Expr.call ⟨i, none, none⟩ multiply
    let e := product 7 [y, .var ⟨5, none, none⟩ v] none
    let number := fun i : NodeInfo => { i with id := i.id + 1 }
    let inner := Pattern.call (.given 3) (.expr (.given 2) multiply) [.wildcard (.given 0), .wildcard (.given 1)]
    let p := Pattern.call (.given 6) (.expr (.given 5) divide) [inner, .wildcard (.given 4)]
    p.Numbered ∧ p.Linear ∧ p.AsksForms ∧ b.Flat ∧
      (∀ d d', p.Knows b number e d → p.Knows b number e d' → d.id = d'.id → d = d') ∧
      e.substitute b number = product 8 [y, quotient] none ∧
      p.isMatch .empty e (some b) = .ok false ∧ p.isMatch .empty (product 8 [y, quotient] none) none = .ok true := by
  intro multiply divide x y z v quotient b product e number inner p
  let ps := [p, inner, .expr (.given 5) divide, .expr (.given 2) multiply, .wildcard (.given 0), .wildcard (.given 1),
    .wildcard (.given 4)]
  have hclosed : ∀ q ∈ ps, ∀ r ∈ q.children, r ∈ ps := by simp [ps, p, inner, children]
  have hmem : ∀ q, p.Reaches q → q ∈ ps := fun q hq => hq.mem_of_closed (by simp [ps]) hclosed
  have hp : p.Numbered := by
    refine numbered_of_closed (hmem p .refl) hclosed ?_ (by decide)
    simp [ps, p, inner, Pattern.id]
  have hlinear : p.Linear := by simp [Linear, p, inner, ids_eq, children, Pattern.id]
  have hform : ∀ q ∈ ps, q.asksForm = true := by decide
  have hb : b.Flat := Bindings.flat_set_empty fun i w h => by
    have : Expr.var i w ∈ [divide, x, z, quotient] :=
      h.mem_of_closed (by simp) (by simp [quotient, divide, x, z, Expr.children])
    simp [quotient, divide, x, z] at this
    rcases this with ⟨-, rfl⟩ | ⟨-, rfl⟩ <;> decide
  let es := [multiply, divide, x, y, z, .var ⟨5, none, none⟩ v, quotient, e, product 8 [y, quotient] none]
  have hes : ∀ d ∈ es, ∀ f ∈ d.children, f ∈ es := by
    simp [es, e, product, quotient, multiply, divide, x, y, z, Expr.children]
  have htargets : ∀ i t, p.Reaches (.expr i t) → t ∈ es := fun i t ht => by
    have := hmem _ ht
    simp [ps, p, inner] at this
    rcases this with ⟨-, rfl⟩ | ⟨-, rfl⟩ <;> simp [es]
  have he' : e.substitute b number = product 8 [y, quotient] none := rfl
  have hvalues : ∀ w u, b.value? w = some u → u ∈ es := fun w u h => by
    simp [es, (Bindings.of_value?_set_empty h).2]
  have hnumbers : ∀ d d', p.Knows b number e d → p.Knows b number e d' → d.id = d'.id → d = d' :=
    knows_of_closed hes (by decide) (by simp [es]) (by rw [he']; simp [es]) hvalues htargets
  have hbefore : p.isMatch .empty e (some b) = .ok false := by cbv
  have hafter : p.isMatch .empty (product 8 [y, quotient] none) none = .ok true := by cbv
  exact ⟨hp, hlinear, fun q hq => hform q (hmem q hq), hb, hnumbers, he', hbefore, hafter⟩

end Pattern
end Dataflow
