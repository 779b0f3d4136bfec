import Dataflow.Proofs.Pattern.Parts
import Mathlib.Data.Option.NAry
import Mathlib.Tactic.Ring
/-!
# The value of arithmetic

Calls of `add`, `subtract`, `multiply` and `divide` on two arguments have the value of the operation, and any other
expression has whatever value it is given.  A pattern has a value once its leaves have: `value?` is the value of the
pattern with those of its leaves.  Division is multiplication by an inverse, and nothing is asked of the inverse, so
that a field may have any inverse of zero.  **Re-association does not change the value**
(`value?_of_mem_reassociations`).
-/
namespace Dataflow

/-- The operations of a field. -/
inductive Arith where
  | add
  | subtract
  | multiply
  | divide

namespace Arith

def ofName? : String → Option Arith
  | "add" => some add
  | "subtract" => some subtract
  | "multiply" => some multiply
  | "divide" => some divide
  | _ => none

def apply {K : Type*} [CommRing K] (inverse : K → K) : Arith → K → K → K
  | add, x, y => x + y
  | subtract, x, y => x - y
  | multiply, x, y => x * y
  | divide, x, y => x * inverse y

end Arith

/-- The operation that an expression refers to. -/
def Expr.arith? (e : Expr) : Option Arith := e.operator?.bind fun o => Arith.ofName? o.name

variable {K : Type*} [CommRing K]

/-- An inverse, and the values of expressions that are not arithmetic. -/
structure Valuation (K : Type*) where
  inverse : K → K
  leaf : Expr → K

def Valuation.value (v : Valuation K) : Expr → K
  | e@(.call _ f [a, b] _) =>
    match f.arith? with
    | some operation => operation.apply v.inverse (v.value a) (v.value b)
    | none => v.leaf e
  | e => v.leaf e

theorem Valuation.value_call {v : Valuation K} {f a b : Expr} {operation : Arith} (h : f.arith? = some operation)
    (i : NodeInfo) (attrs : Option Attrs) :
    v.value (.call i f [a, b] attrs) = operation.apply v.inverse (v.value a) (v.value b) := by
  rw [Valuation.value, h]

namespace Pattern

variable (inverse : K → K)

/-- The operation that a pattern refers to. -/
def arith? (p : Pattern) : Option Arith := p.operator?.bind fun o => Arith.ofName? o.name

/-- The value of a pattern, from the values that those that are not arithmetic have, if they have any. -/
def value? (leaf : PatternId → Option K) : Pattern → Option K
  | p@(.call _ callee [a, b]) =>
    match callee.arith? with
    | some operation => Option.map₂ (operation.apply inverse) (a.value? leaf) (b.value? leaf)
    | none => leaf p.id
  | p => leaf p.id

/-- Patterns for anything, variables and constants, and calls of an operation on two such patterns. -/
inductive Arithmetic : Pattern → Prop
  | wildcard {i : PatternId} : Arithmetic (.wildcard i)
  | var {i : PatternId} {name : String} : Arithmetic (.var i name)
  | constant {i : PatternId} : Arithmetic (.constant i)
  | call {i : PatternId} {callee a b : Pattern} {operation : Arith} : callee.arith? = some operation →
      Arithmetic a → Arithmetic b → Arithmetic (.call i callee [a, b])

variable {inverse} {leaf leaf' : PatternId → Option K} {p q callee a b : Pattern} {operation : Arith} {n : Nat}

theorem value?_call {i : PatternId} (h : callee.arith? = some operation) :
    value? inverse leaf (.call i callee [a, b]) =
      Option.map₂ (operation.apply inverse) (a.value? inverse leaf) (b.value? inverse leaf) := by
  rw [value?, h]

/-- The operations that matching swaps the arguments of are commutative. -/
theorem apply_comm (hop : callee.arith? = some operation) (hcomm : callee.operator?.any (·.isCommutative) = true)
    (x y : K) : operation.apply inverse x y = operation.apply inverse y x := by
  obtain ⟨o, ho, ho'⟩ := (Option.any_eq_true _ _).1 hcomm
  rw [arith?, ho, Option.bind_some] at hop
  rw [Operator.isCommutative, Bool.or_eq_true, beq_iff_eq, beq_iff_eq] at ho'
  rcases ho' with hname | hname
  · rw [hname] at hop
    cases hop
    exact add_comm x y
  · rw [hname] at hop
    cases hop
    exact mul_comm x y

theorem arith?_of_operands? {name : String} (h : p.operands? name = some (callee, a, b)) :
    callee.arith? = Arith.ofName? name := by
  have hname := operator?_of_operands? h
  obtain ⟨o, ho, hon⟩ := (Option.any_eq_true _ _).1 hname
  rw [arith?, ho, Option.bind_some, beq_iff_eq.1 hon]

theorem value?_of_operands? {name : String} (h : p.operands? name = some (callee, a, b))
    (hname : Arith.ofName? name = some operation) :
    p.value? inverse leaf = Option.map₂ (operation.apply inverse) (a.value? inverse leaf) (b.value? inverse leaf) := by
  have harith := (arith?_of_operands? h).trans hname
  unfold operands? at h
  split at h
  · split at h
    · cases h
      exact value?_call harith
    · cases h
  · cases h

theorem Arithmetic.of_operands? {name : String} (hp : p.Arithmetic) (h : p.operands? name = some (callee, a, b)) :
    a.Arithmetic ∧ b.Arithmetic := by
  cases hp with
  | call hop ha hb =>
    have := children_of_operands? h
    simp only [children, List.cons.injEq, and_true] at this
    obtain ⟨rfl, rfl, rfl⟩ := this
    exact ⟨ha, hb⟩
  | _ => cases h

theorem Arithmetic.isNegation_eq_false (hp : p.Arithmetic) : p.isNegation = false := by
  cases hp <;> rfl

theorem Arithmetic.containsDominator_eq_false (hp : p.Arithmetic) : p.containsDominator = false := by
  induction hp with
  | @call i callee a b operation hop _ _ iha ihb =>
    cases callee with
    | expr => simp [containsDominator, anyContainsDominator, iha, ihb]
    | _ => cases hop
  | _ => rfl

theorem arithmetic_of_mem_reassociations {e : Expr} (hp : p.Arithmetic) (h : q ∈ reassociations n p e) :
    q.Arithmetic := by
  cases reassociated_of_mem h with
  | second hquotient hproduct | first hquotient hproduct =>
    obtain ⟨hab, hc⟩ := hp.of_operands? hquotient
    obtain ⟨ha, hb⟩ := hab.of_operands? hproduct
    have hmul := arith?_of_operands? hproduct
    have hdiv := arith?_of_operands? hquotient
    exact .call hmul (by assumption) (.call hdiv (by assumption) (by assumption))
  | left hproduct hquotient =>
    obtain ⟨hab, hc⟩ := hp.of_operands? hproduct
    obtain ⟨ha, hb⟩ := hab.of_operands? hquotient
    exact .call (arith?_of_operands? hquotient) (.call (arith?_of_operands? hproduct) ha hc) hb
  | right hproduct hquotient =>
    obtain ⟨hc, hab⟩ := hp.of_operands? hproduct
    obtain ⟨ha, hb⟩ := hab.of_operands? hquotient
    exact .call (arith?_of_operands? hquotient) (.call (arith?_of_operands? hproduct) ha hc) hb

/-- **Re-association does not change the value of a pattern.** -/
theorem value?_of_mem_reassociations {e : Expr} (h : q ∈ reassociations n p e) :
    q.value? inverse leaf = p.value? inverse leaf := by
  have hderive : ∀ {k callee a b operation}, callee.arith? = some operation →
      (derive k callee a b).value? inverse leaf =
        Option.map₂ (operation.apply inverse) (a.value? inverse leaf) (b.value? inverse leaf) := value?_call
  cases reassociated_of_mem h with
  | @second divOp mulOp product a b c hquotient hproduct | @first divOp mulOp product a b c hquotient hproduct =>
    rw [hderive (arith?_of_operands? hproduct), hderive (arith?_of_operands? hquotient),
      value?_of_operands? hquotient rfl, value?_of_operands? hproduct rfl]
    cases a.value? inverse leaf <;> cases b.value? inverse leaf <;> cases c.value? inverse leaf <;> try rfl
    simp only [Option.map₂_some_some, Arith.apply]
    ring_nf
  | @left divOp mulOp quotient a b c hproduct hquotient | @right divOp mulOp quotient a b c hproduct hquotient =>
    rw [hderive (arith?_of_operands? hquotient), hderive (arith?_of_operands? hproduct),
      value?_of_operands? hproduct rfl, value?_of_operands? hquotient rfl]
    cases a.value? inverse leaf <;> cases b.value? inverse leaf <;> cases c.value? inverse leaf <;> try rfl
    simp only [Option.map₂_some_some, Arith.apply]
    ring_nf

/-- Leaves that get a value do not change one that there is. -/
theorem value?_mono (h : ∀ i x, leaf i = some x → leaf' i = some x) {p : Pattern} {x : K}
    (hp : p.value? inverse leaf = some x) : p.value? inverse leaf' = some x := by
  fun_induction value? inverse leaf p generalizing x with
  | case1 i callee a b operation hop iha ihb =>
    obtain ⟨y, z, hy, hz, rfl⟩ := Option.map₂_eq_some_iff.1 hp
    rw [value?_call hop, iha hy, ihb hz]
    rfl
  | case2 i callee a b hop =>
    rw [value?, hop]
    exact h _ _ hp
  | case3 p hp' =>
    rw [value?]
    · exact h _ _ hp
    · exact hp'

end Pattern
end Dataflow
