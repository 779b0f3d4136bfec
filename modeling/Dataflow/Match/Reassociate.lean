import Dataflow.Pattern.Basic
/-!
# Re-association of products and quotients

A pattern for a quotient of a product also describes a product with a quotient inside, and the other way round:
`(a * b) / c` is `b * (a / c)` and `a * (b / c)`, and `(a / b) * c` is `(a * c) / b`.  `reassociations` lists the
patterns to try on an expression after the pattern itself failed at its callee.  They have the size of the
pattern (`size_of_mem_reassociations`), and none of them has a re-association of its own for the same expression
(`reassociations_of_mem`), so re-association ends after one step.
-/
namespace Dataflow

/-- Whether an expression calls `outer` on two arguments of which one is a call of `inner`. -/
def Expr.nests (outer inner : String) : Expr → Bool
  | .call _ f [x, y] _ => f.operator?.any (·.name == outer) && (x.isCallTo inner || y.isCallTo inner)
  | _ => false

namespace Pattern

/-- The callee and the two operands of a call pattern that refers literally to the operator `name`. -/
def operands? (name : String) : Pattern → Option (Pattern × Pattern × Pattern)
  | call _ callee [a, b] => if callee.operator?.any (·.name == name) then some (callee, a, b) else none
  | _ => none

/-- A call pattern made during a match. -/
def derive (n : Nat) (callee a b : Pattern) : Pattern := call (.derived n) callee [a, b]

/-- The alternatives to a pattern for one expression, in the order in which they are tried.  The identities of
the new patterns start at `fresh`. -/
def reassociations (fresh : Nat) (p : Pattern) (e : Expr) : List Pattern :=
  match p.operands? "divide" with
  | some (divOp, product, c) =>
    match product.operands? "multiply" with
    | some (mulOp, a, b) =>
      if e.nests "multiply" "divide" then
        [derive (fresh + 1) mulOp b (derive fresh divOp a c), derive (fresh + 3) mulOp a (derive (fresh + 2) divOp b c)]
      else []
    | none => []
  | none =>
    match p.operands? "multiply" with
    | some (mulOp, left, right) =>
      if e.nests "divide" "multiply" then
        match left.operands? "divide", right.operands? "divide" with
        | some (divOp, a, b), _ => [derive (fresh + 1) divOp (derive fresh mulOp a right) b]
        | none, some (divOp, a, b) => [derive (fresh + 1) divOp (derive fresh mulOp a left) b]
        | none, none => []
      else []
    | none => []

/-- The number of identities that `reassociations` may take. -/
def reassociationIds : Nat := 4

theorem size_of_operands? {name : String} {p callee a b : Pattern} (h : p.operands? name = some (callee, a, b)) :
    p.size = 1 + (callee.size + (a.size + b.size)) := by
  unfold operands? at h
  split at h
  · split at h <;> simp_all [size, sizes]
  · cases h

theorem size_derive (n : Nat) (callee a b : Pattern) :
    (derive n callee a b).size = 1 + (callee.size + (a.size + b.size)) := by
  simp [derive, size, sizes]

theorem size_of_mem_reassociations {n : Nat} {p q : Pattern} {e : Expr} (h : q ∈ reassociations n p e) :
    q.size = p.size := by
  unfold reassociations at h
  split at h
  · rename_i divOp product c hp
    have hs := size_of_operands? hp
    split at h
    · rename_i mulOp a b hm
      have ht := size_of_operands? hm
      split at h
      · simp only [List.mem_cons, List.not_mem_nil, or_false] at h
        rcases h with rfl | rfl <;> simp only [size_derive] <;> omega
      · cases h
    · cases h
  · split at h
    · rename_i mulOp left right hp
      have hs := size_of_operands? hp
      split at h
      · split at h
        · rename_i divOp a b _ hd
          have ht := size_of_operands? hd
          rw [List.mem_singleton] at h
          subst h; simp only [size_derive]; omega
        · rename_i divOp a b _ _ hd
          have ht := size_of_operands? hd
          rw [List.mem_singleton] at h
          subst h; simp only [size_derive]; omega
        · cases h
      · cases h
    · cases h

theorem operator?_of_operands? {name : String} {p callee a b : Pattern}
    (h : p.operands? name = some (callee, a, b)) : callee.operator?.any (·.name == name) := by
  unfold operands? at h
  split at h
  · split at h <;> simp_all
  · cases h

theorem operands?_derive (name : String) (n : Nat) (callee a b : Pattern) :
    (derive n callee a b).operands? name =
      if callee.operator?.any (·.name == name) then some (callee, a, b) else none := rfl

theorem operands?_derive_of_ne {callee a b : Pattern} {n : Nat} {name other : String}
    (h : callee.operator?.any (·.name == name)) (hne : name ≠ other) :
    (derive n callee a b).operands? other = none := by
  rw [operands?_derive, if_neg]
  cases ho : callee.operator? with
  | none => simp
  | some o => simp_all

theorem nests_eq_false_of_ne {outer inner other : String} {e : Expr} (h : e.nests outer inner = true)
    (hne : outer ≠ other) (thing : String) : e.nests other thing = false := by
  unfold Expr.nests at h ⊢
  split at h
  · rename_i f x y _
    cases ho : f.operator? with
    | none => simp
    | some o => simp_all
  · cases h

/-- How many alternatives there are does not depend on the identities they take. -/
theorem length_reassociations (m n : Nat) (p : Pattern) (e : Expr) :
    (reassociations m p e).length = (reassociations n p e).length := by
  unfold reassociations
  split
  · split
    · split <;> rfl
    · rfl
  · split
    · split
      · split <;> rfl
      · rfl
    · rfl

/-- An alternative has no alternatives for the expression that it was made for. -/
theorem reassociations_of_mem {m n : Nat} {p q : Pattern} {e : Expr} (h : q ∈ reassociations n p e) :
    reassociations m q e = [] := by
  unfold reassociations at h
  split at h
  · split at h
    · rename_i mulOp a b hm
      split at h
      · rename_i he
        have hq : ∃ k a' b', q = derive k mulOp a' b' := by
          simp only [List.mem_cons, List.not_mem_nil, or_false] at h
          rcases h with rfl | rfl <;> exact ⟨_, _, _, rfl⟩
        obtain ⟨k, a', b', rfl⟩ := hq
        unfold reassociations
        rw [operands?_derive_of_ne (operator?_of_operands? hm) (by decide)]
        simp [nests_eq_false_of_ne he (show "multiply" ≠ "divide" by decide) "multiply"]
        split <;> rfl
      · cases h
    · cases h
  · split at h
    · split at h
      · rename_i he
        have hd := nests_eq_false_of_ne he (show "divide" ≠ "multiply" by decide) "divide"
        have hq : ∃ k divOp a' b', divOp.operator?.any (·.name == "divide") ∧ q = derive k divOp a' b' := by
          split at h
          · rename_i hov; rw [List.mem_singleton] at h; exact ⟨_, _, _, _, operator?_of_operands? hov, h⟩
          · rename_i hov; rw [List.mem_singleton] at h; exact ⟨_, _, _, _, operator?_of_operands? hov, h⟩
          · cases h
        obtain ⟨k, divOp, a', b', ho, rfl⟩ := hq
        unfold reassociations
        have hs : (derive k divOp a' b').operands? "divide" = some (divOp, a', b') := by
          rw [operands?_derive, if_pos ho]
        rw [hs]
        simp only [hd]
        split <;> rfl
      · cases h
    · cases h

end Pattern
end Dataflow
