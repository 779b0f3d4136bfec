import Dataflow.Proofs.Match.Induction
/-!
# What a pattern says of an expression

`reads` is the reading of a pattern without bindings: the connectives are those of logic, every other form asks for the
form of the expression and the same of its parts.  Nothing is searched for twice or taken back, and identities of
patterns play no part (`any_reads_reassociations`).  Two readings are compared by equality, or by whether the second
says what the first says (`Comparison`).
-/
namespace Dataflow
namespace MatchContext

mutual

/-- Whether an expression is as a pattern says. -/
def reads (c : MatchContext) (p : Pattern) (e : Expr) : Bool :=
  match p with
  | .wildcard _ => true
  | .either _ l r => c.reads l e || c.reads r e
  | .both _ l r => c.reads l e && c.reads r e
  | .negation _ q => !c.reads q e
  | .constant _ =>
    match c.follow e with
    | .constant .. => true
    | _ => false
  | .var _ name => e.var?.any fun v => name.isEmpty || v.name == name
  | .external _ symbol =>
    match c.follow e with
    | .external _ s => symbol.isEmpty || s == symbol
    | _ => false
  | .expr _ target => target.equal e || ((c.follow e).id != e.id && target.equal (c.follow e))
  | .anyTuple _ =>
    match c.follow e with
    | .tuple .. => true
    | _ => false
  | .tuple _ ps =>
    match c.follow e with
    | .tuple _ es => c.readsAll ps es
    | _ => false
  | .item _ q index =>
    match c.follow e with
    | .item _ t k => index.all (· == k) && c.reads q t
    | _ => false
  | .function _ ps q =>
    match c.follow e with
    | .function _ params body _ => c.readsAll ps params && c.reads q body
    | _ => false
  | .anyFunction _ q =>
    match c.follow e with
    | .function _ _ body _ => c.reads q body
    | _ => false
  | .cond _ q₁ q₂ q₃ =>
    match c.follow e with
    | .cond _ e₁ e₂ e₃ => c.reads q₁ e₁ && (c.reads q₂ e₂ && c.reads q₃ e₃)
    | _ => false
  | .anyCall _ callee =>
    match c.follow e with
    | .call _ f _ _ => c.reads callee f
    | _ => false
  | .call i callee ps =>
    match _followed : c.follow e with
    | .call j f args attrs =>
      if c.reads callee f then
        c.readsAll ps args ||
          (c.config.commutative && callee.operator?.any (·.isCommutative) && c.readsAll ps.reverse args)
      else
        c.config.associative &&
          (Pattern.reassociations 0 (.call i callee ps) (.call j f args attrs)).attach.any
            fun ⟨q, _⟩ => c.reads q (.call j f args attrs)
    | _ => false
  | .hasAttrs _ q attrs =>
    c.reads q e &&
      match attrs.heldBy c.registry (c.follow e) with
      | .ok held => held
      | .error _ => false
  | .hasType _ q t => e.inferType? == some t && c.reads q e
  | .hasShape _ q ds => (e.shape?.bind Shape.dims?).any (c.oracle.shapesEqual ds) && c.reads q e
  | .hasDType _ q d => e.dtype? == some d && c.reads q e
  | .dims _ ds =>
    match c.follow e with
    | .dims _ es => c.oracle.shapesEqual ds es
    | _ => false
  | .runtimeShape _ => e.shape?.any Shape.isRuntime
  | .dominator .. => false
termination_by (2 * p.size, (Pattern.reassociations 0 p (c.follow e)).length)
decreasing_by
  all_goals try exact Prod.Lex.left _ _ (by simp only [Pattern.size, Pattern.sizes_reverse]; omega)
  rename_i hq
  rw [Pattern.size_of_mem_reassociations hq, c.follow_of_var?_eq_none rfl, Pattern.reassociations_of_mem hq, _followed]
  exact Prod.Lex.right _ (List.length_pos_of_mem hq)

/-- Whether as many expressions are as the patterns say, one by one. -/
def readsAll (c : MatchContext) (ps : List Pattern) (es : List Expr) : Bool :=
  match ps, es with
  | [], [] => true
  | p :: ps, e :: es => c.reads p e && c.readsAll ps es
  | _, _ => false
termination_by (2 * Pattern.sizes ps + 1, 0)
decreasing_by
  · exact Prod.Lex.left _ _ (by simp only [Pattern.sizes]; omega)
  · exact Prod.Lex.left _ _ (by have := p.size_pos; simp only [Pattern.sizes]; omega)
end

variable {c : MatchContext}

theorem readsAll_eq_false_of_length_ne : ∀ {ps : List Pattern} {es : List Expr}, ps.length ≠ es.length →
    c.readsAll ps es = false
  | [], [], h => absurd rfl h
  | [], _ :: _, _ | _ :: _, [], _ => by simp [readsAll]
  | p :: ps, e :: es, h => by
    have hlength : ps.length ≠ es.length := fun hl => h (congrArg Nat.succ hl)
    rw [readsAll, readsAll_eq_false_of_length_ne hlength, Bool.and_false]

/-- Two patterns say the same of every expression. -/
def SameReading (c : MatchContext) (p q : Pattern) : Prop := ∀ e, c.reads p e = c.reads q e

theorem readsAll_congr {ps qs : List Pattern} (h : List.Forall₂ c.SameReading ps qs) :
    ∀ es : List Expr, c.readsAll ps es = c.readsAll qs es := by
  induction h with
  | nil => exact fun _ => rfl
  | cons hpq _ ih =>
    rintro (_ | ⟨e, es⟩)
    · rw [readsAll, readsAll] <;> simp
    · rw [readsAll, readsAll, hpq e, ih es]

theorem reads_call {i : PatternId} {callee : Pattern} {ps : List Pattern} {e f : Expr} {j : NodeInfo}
    {args : List Expr} {attrs : Option Attrs} (h : c.follow e = .call j f args attrs) :
    c.reads (.call i callee ps) e =
      if c.reads callee f then
        c.readsAll ps args ||
          (c.config.commutative && callee.operator?.any (·.isCommutative) && c.readsAll ps.reverse args)
      else
        c.config.associative &&
          (Pattern.reassociations 0 (.call i callee ps) (c.follow e)).any (c.reads · (c.follow e)) := by
  rw [reads]
  split
  · rename_i hf
    cases h.symm.trans hf
    rw [List.any_subtype (fun _ _ => rfl), List.unattach_attach, h]
  · rename_i hf
    exact absurd h (hf j f args attrs)

theorem sameReading_derive (k n : Nat) (callee a b : Pattern) :
    c.SameReading (.derive k callee a b) (.derive n callee a b) := fun e => by
  rw [Pattern.derive, Pattern.derive, reads, reads]
  split <;> rfl

theorem reads_call_congr {i j : PatternId} {callee : Pattern} {ps qs : List Pattern} {e : Expr}
    (h : List.Forall₂ c.SameReading ps qs) (hp : Pattern.reassociations 0 (.call i callee ps) (c.follow e) = [])
    (hq : Pattern.reassociations 0 (.call j callee qs) (c.follow e) = []) :
    c.reads (.call i callee ps) e = c.reads (.call j callee qs) e := by
  cases hf : c.follow e with
  | call =>
    rw [reads_call hf, reads_call hf, hp, hq, readsAll_congr h, readsAll_congr (List.rel_reverse h)]
  | _ => rw [reads, reads, hf]

/-- What re-association makes with some identities and with others are calls of one pattern on arguments that say the
same. -/
theorem forall₂_reassociations (m n : Nat) (p : Pattern) (e : Expr) :
    List.Forall₂ (fun q r => ∃ i j callee ps qs, q = .call i callee ps ∧ r = .call j callee qs ∧
      List.Forall₂ c.SameReading ps qs) (Pattern.reassociations m p e) (Pattern.reassociations n p e) := by
  have hself : ∀ a, c.SameReading a a := fun a _ => rfl
  have hleft : ∀ {k k' l l' f a g x y}, ∃ i j callee ps qs,
      Pattern.derive k f a (.derive l g x y) = .call i callee ps ∧
        Pattern.derive k' f a (.derive l' g x y) = .call j callee qs ∧ List.Forall₂ c.SameReading ps qs :=
    fun {k k' l l' f a g x y} => ⟨_, _, _, _, _, rfl, rfl, .cons (hself a) (.cons (sameReading_derive l l' g x y) .nil)⟩
  have hright : ∀ {k k' l l' f a g x y}, ∃ i j callee ps qs,
      Pattern.derive k f (.derive l g x y) a = .call i callee ps ∧
        Pattern.derive k' f (.derive l' g x y) a = .call j callee qs ∧ List.Forall₂ c.SameReading ps qs :=
    fun {k k' l l' f a g x y} => ⟨_, _, _, _, _, rfl, rfl, .cons (sameReading_derive l l' g x y) (.cons (hself a) .nil)⟩
  unfold Pattern.reassociations
  split
  · split
    · split
      · exact .cons hleft (.cons hleft .nil)
      · exact .nil
    · exact .nil
  · split
    · split
      · split
        · exact .cons hright .nil
        · exact .cons hright .nil
        · exact .nil
      · exact .nil
    · exact .nil

/-- **The identities of what re-association makes do not matter.** -/
theorem any_reads_reassociations (m n : Nat) (p : Pattern) (e : Expr) :
    (Pattern.reassociations m p e).any (c.reads · e) = (Pattern.reassociations n p e).any (c.reads · e) := by
  have hzip := List.forall₂_iff_zip.1 (c.forall₂_reassociations m n p e)
  have hread : List.Forall₂ (fun q r => c.reads q e = c.reads r e)
      (Pattern.reassociations m p e) (Pattern.reassociations n p e) := by
    refine List.forall₂_iff_zip.2 ⟨hzip.1, fun {q r} hqr => ?_⟩
    obtain ⟨hq, hr⟩ := List.of_mem_zip hqr
    obtain ⟨i, j, callee, ps, qs, rfl, rfl, hps⟩ := hzip.2 hqr
    have hfollow := c.follow_of_var?_eq_none (Pattern.var?_of_mem_reassociations hq)
    apply reads_call_congr hps <;> rw [hfollow]
    · exact Pattern.reassociations_of_mem hq
    · exact Pattern.reassociations_of_mem hr
  generalize Pattern.reassociations m p e = l, Pattern.reassociations n p e = l' at hread
  induction hread with
  | nil => rfl
  | cons hqr _ ih => rw [List.any_cons, List.any_cons, hqr, ih]

end MatchContext

/-! ## Comparing readings -/

/-- A comparison of answers that holds of equal ones and that conjunction and disjunction keep. -/
structure Comparison (ρ : Bool → Bool → Prop) : Prop where
  refl : ∀ a, ρ a a
  and : ∀ {a a' b b'}, ρ a a' → ρ b b' → ρ (a && b) (a' && b')
  or : ∀ {a a' b b'}, ρ a a' → ρ b b' → ρ (a || b) (a' || b')

theorem comparison_eq : Comparison (· = ·) := ⟨fun _ => rfl, fun h h' => by rw [h, h'], fun h h' => by rw [h, h']⟩

theorem comparison_imp : Comparison fun a a' => a = true → a' = true := by
  refine ⟨fun _ h => h, fun h h' hab => ?_, fun h h' hab => ?_⟩
  · rw [Bool.and_eq_true] at hab ⊢
    exact ⟨h hab.1, h' hab.2⟩
  · rw [Bool.or_eq_true] at hab ⊢
    exact hab.imp h h'

theorem Comparison.any {ρ : Bool → Bool → Prop} (h : Comparison ρ) {α : Type} {f g : α → Bool} :
    ∀ {l : List α}, (∀ a ∈ l, ρ (f a) (g a)) → ρ (l.any f) (l.any g)
  | [], _ => h.refl false
  | a :: l, hl => by
    rw [List.any_cons, List.any_cons]
    exact h.or (hl a (by simp)) (h.any fun b hb => hl b (by simp [hb]))

/-- Lists of patterns compare as the patterns do, expression by expression. -/
theorem MatchContext.readsAll_compare {ρ : Bool → Bool → Prop} (hρ : Comparison ρ) {c c' : MatchContext}
    {g : Expr → Expr} : ∀ {ps : List Pattern} {es : List Expr},
      (∀ p ∈ ps, ∀ e ∈ es, ρ (c.reads p e) (c'.reads p (g e))) → ρ (c.readsAll ps es) (c'.readsAll ps (es.map g))
  | [], [], _ => by
    rw [List.map_nil, readsAll, readsAll]
    exact hρ.refl true
  | [], _ :: _, _ | _ :: _, [], _ => by
    simp only [List.map_cons, List.map_nil]
    rw [readsAll, readsAll] <;> first | exact hρ.refl false | simp
  | p :: ps, e :: es, h => by
    rw [List.map_cons, readsAll, readsAll]
    exact hρ.and (h p (by simp) e (by simp)) (readsAll_compare hρ fun q hq f hf => h q (by simp [hq]) f (by simp [hf]))

end Dataflow
