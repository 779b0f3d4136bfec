import Dataflow.Proofs.Pattern.Parts
/-!
# Patterns with other identities

`rename` gives every position of a pattern the identity that a function has for its own, and changes nothing else.
Re-association does not look at identities, so it makes the same of a renamed pattern, if the identities it takes are
renamed to those it takes there (`reassociations_rename`).
-/
namespace Dataflow
namespace Pattern

section
variable (σ : PatternId → PatternId)

mutual
def rename : Pattern → Pattern
  | wildcard i => wildcard (σ i)
  | either i p q => either (σ i) (rename p) (rename q)
  | both i p q => both (σ i) (rename p) (rename q)
  | negation i p => negation (σ i) (rename p)
  | constant i => constant (σ i)
  | var i name => var (σ i) name
  | external i symbol => external (σ i) symbol
  | expr i target => expr (σ i) target
  | tuple i ps => tuple (σ i) (renameAll ps)
  | anyTuple i => anyTuple (σ i)
  | item i p index => item (σ i) (rename p) index
  | function i ps body => function (σ i) (renameAll ps) (rename body)
  | anyFunction i body => anyFunction (σ i) (rename body)
  | cond i p q r => cond (σ i) (rename p) (rename q) (rename r)
  | call i callee ps => call (σ i) (rename callee) (renameAll ps)
  | anyCall i callee => anyCall (σ i) (rename callee)
  | hasAttrs i p attrs => hasAttrs (σ i) (rename p) attrs
  | hasType i p t => hasType (σ i) (rename p) t
  | hasShape i p ds => hasShape (σ i) (rename p) ds
  | hasDType i p d => hasDType (σ i) (rename p) d
  | dims i ds => dims (σ i) ds
  | runtimeShape i => runtimeShape (σ i)
  | dominator i child path parent => dominator (σ i) (rename child) (rename path) (rename parent)
def renameAll : List Pattern → List Pattern
  | [] => []
  | p :: ps => rename p :: renameAll ps
end

end

variable {σ : PatternId → PatternId} {p q : Pattern}

theorem renameAll_eq_map : ∀ ps : List Pattern, renameAll σ ps = ps.map (rename σ)
  | [] => rfl
  | p :: ps => congrArg (p.rename σ :: ·) (renameAll_eq_map ps)

@[simp] theorem id_rename (p : Pattern) : (p.rename σ).id = σ p.id := by cases p <;> rfl

@[simp] theorem isNegation_rename (p : Pattern) : (p.rename σ).isNegation = p.isNegation := by cases p <;> rfl

@[simp] theorem operator?_rename (p : Pattern) : (p.rename σ).operator? = p.operator? := by cases p <;> rfl

/-- Nothing changes where every identity stays what it is. -/
theorem rename_eq_self {p : Pattern} (h : ∀ i, p.Uses i → σ i = i) : p.rename σ = p := by
  have hself : σ p.id = p.id := h p.id (uses_iff.2 (.inl rfl))
  have hpart : ∀ q ∈ p.children, q.rename σ = q := fun q hq =>
    rename_eq_self fun i hi => h i (uses_iff.2 (.inr ⟨q, hq, hi⟩))
  have hall : ∀ {ps : List Pattern}, (∀ q ∈ ps, q.rename σ = q) → renameAll σ ps = ps := fun {ps} hps => by
    rw [renameAll_eq_map, List.map_congr_left hps, List.map_id']
  cases p with
  | tuple _ ps | call _ _ ps | function _ ps =>
    simp only [children, List.forall_mem_cons, List.forall_mem_append] at hpart
    simp_all [rename, id]
  | _ =>
    simp only [children, List.forall_mem_cons] at hpart
    simp_all [rename, id]
termination_by p.size
decreasing_by exact size_lt_of_mem_children hq

/-! ## Re-association -/

theorem rename_derive (n : Nat) (callee a b : Pattern) :
    (derive n callee a b).rename σ = call (σ (.derived n)) (callee.rename σ) [a.rename σ, b.rename σ] := rfl

theorem operands?_rename (name : String) (p : Pattern) : (p.rename σ).operands? name =
    (p.operands? name).map fun (callee, a, b) => (callee.rename σ, a.rename σ, b.rename σ) := by
  cases p with
  | call i callee ps =>
    rw [rename, renameAll_eq_map]
    match ps with
    | [a, b] =>
      simp only [List.map_cons, List.map_nil, operands?, operator?_rename]
      split <;> rfl
    | [] | [_] | _ :: _ :: _ :: _ => rfl
  | _ => rfl

theorem reassociations_rename {m n : Nat} {e : Expr}
    (h : ∀ k, k < reassociationIds → σ (.derived (n + k)) = .derived (m + k)) :
    reassociations m (p.rename σ) e = (reassociations n p e).map (rename σ) := by
  have h₀ : σ (.derived n) = .derived m := h 0 (by decide)
  have h₁ := h 1 (by decide)
  have h₂ := h 2 (by decide)
  have h₃ := h 3 (by decide)
  unfold reassociations
  rw [operands?_rename]
  rcases p.operands? "divide" with _ | ⟨divOp, product, c⟩
  · simp only [Option.map_none, operands?_rename]
    rcases p.operands? "multiply" with _ | ⟨mulOp, left, right⟩
    · rfl
    · simp only [Option.map_some, operands?_rename]
      split
      · rcases left.operands? "divide" with _ | ⟨divOp, a, b⟩
        · rcases right.operands? "divide" with _ | ⟨divOp, a, b⟩
          · rfl
          · simp only [List.map_cons, List.map_nil, rename_derive, h₀, h₁]
            rfl
        · simp only [List.map_cons, List.map_nil, rename_derive, h₀, h₁]
          rfl
      · rfl
  · simp only [Option.map_some, operands?_rename]
    rcases product.operands? "multiply" with _ | ⟨mulOp, a, b⟩
    · rfl
    · simp only [Option.map_some]
      split
      · simp only [List.map_cons, List.map_nil, rename_derive, h₀, h₁, h₂, h₃]
        rfl
      · rfl

end Pattern
end Dataflow
