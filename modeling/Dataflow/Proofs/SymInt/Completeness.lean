import Dataflow.Proofs.SymInt.Canonical
import Dataflow.Proofs.SymInt.Soundness
import Mathlib.Algebra.MvPolynomial.Funext
/-!
# The prover decides polynomial identities

A term made of integers, variables, sums, differences and products has the value of its normal form, whatever the
values of the atoms, and so it has with any terms in the place of its variables (`value_of_normalize`).  If two of them
have the same value at every point, their normal forms stand for the same integer polynomial (`denote_eq_of_subst`,
`denote_eq_of_eval_eq`), and being canonical they are the same.
-/
namespace Dataflow

open Dataflow.Polynomial

namespace SymInt

/-- Integers and variables, put together by sums, differences and products. -/
inductive IsPolynomial : SymInt → Prop
  | lit (v : Int64) : IsPolynomial (lit v)
  | var (v : SymVar) : IsPolynomial (var v)
  | add {l r : SymInt} : l.IsPolynomial → r.IsPolynomial → IsPolynomial (binary .add l r)
  | sub {l r : SymInt} : l.IsPolynomial → r.IsPolynomial → IsPolynomial (binary .sub l r)
  | mul {l r : SymInt} : l.IsPolynomial → r.IsPolynomial → IsPolynomial (binary .mul l r)

end SymInt

namespace Prover

variable {r : Prover} {a b : SymInt} {p q : Polynomial} {z : ZeroDivision}

theorem holdsAt_empty (z : ZeroDivision) (σ : Nat → Int) : empty.HoldsAt z σ := fun _ _ h => by cases h

theorem exists_of_normalize_binary {op : IntOp} (h : r.normalize (.binary op a b) = some p) :
    ∃ pa pb, r.normalize a = some pa ∧ r.normalize b = some pb ∧ op.normalForm pa pb = some p := by
  rw [normalize_binary] at h
  obtain ⟨pa, ha, h⟩ := Option.bind_eq_some_iff.1 h
  obtain ⟨pb, hb, h⟩ := Option.bind_eq_some_iff.1 h
  exact ⟨pa, pb, ha, hb, h⟩

/-- A polynomial term with terms in the place of its variables has a normal form with the value of the polynomial where
the normal forms of these terms have the values of the variables. -/
theorem value_of_normalize (ha : a.IsPolynomial) (f : Atom → Int) {g : SymVar → SymInt} {σ : Nat → Int}
    (hg : ∀ v q, r.normalize (g v) = some q → q.value f = σ v.id) (h : r.normalize (a.subst g) = some p) :
    p.value f = a.eval z σ := by
  induction ha generalizing p with
  | lit v =>
    cases (normalize_lit r v).symm.trans h
    rw [value, denote_constant, MvPolynomial.eval_C, SymInt.eval]
  | var v => exact hg v p h
  | add _ _ ihl ihr =>
    obtain ⟨pl, pr, hl, hr, hsum⟩ := exists_of_normalize_binary h
    rw [value, denote_add hsum, map_add, SymInt.eval, IntOp.eval, ← ihl hl, ← ihr hr]
    rfl
  | sub _ _ ihl ihr =>
    obtain ⟨pl, pr, hl, hr, hdifference⟩ := exists_of_normalize_binary h
    rw [value, denote_sub hdifference, map_sub, SymInt.eval, IntOp.eval, ← ihl hl, ← ihr hr]
    rfl
  | mul _ _ ihl ihr =>
    obtain ⟨pl, pr, hl, hr, hproduct⟩ := exists_of_normalize_binary h
    rw [value, denote_mul hproduct, map_mul, SymInt.eval, IntOp.eval, ← ihl hl, ← ihr hr]
    rfl

/-- Polynomial terms that agree at every point have normal forms that stand for the same, also with terms in the place
of their variables: one term for each number, as far as normal forms tell. -/
theorem denote_eq_of_subst (ha : a.IsPolynomial) (hb : b.IsPolynomial) {g : SymVar → SymInt}
    (hg : ∀ v w, v.id = w.id → r.normalize (g v) = r.normalize (g w)) (hp : r.normalize (a.subst g) = some p)
    (hq : r.normalize (b.subst g) = some q) (h : ∀ σ, a.eval z σ = b.eval z σ) : p.denote = q.denote := by
  refine MvPolynomial.funext fun f => ?_
  let σ : Nat → Int := fun i => ((r.normalize (g ⟨i, ""⟩)).map (value f)).getD 0
  have hσ : ∀ v q, r.normalize (g v) = some q → q.value f = σ v.id := fun v q hv => by
    simp only [σ, hg ⟨v.id, ""⟩ v rfl, hv, Option.map_some, Option.getD_some]
  have hpq : p.value f = q.value f := by
    rw [value_of_normalize (z := z) ha f hσ hp, value_of_normalize (z := z) hb f hσ hq, h]
  exact hpq

/-- Terms that agree at every point have normal forms that stand for the same. -/
theorem denote_eq_of_eval_eq (ha : a.IsPolynomial) (hb : b.IsPolynomial) (hp : empty.normalize a = some p)
    (hq : empty.normalize b = some q) (h : ∀ σ, a.eval z σ = b.eval z σ) : p.denote = q.denote := by
  have hvar : ∀ v w : SymVar, v.id = w.id → empty.normalize (.var v) = empty.normalize (.var w) := fun v w hvw => by
    change some (atom (.var v.id)) = some (atom (.var w.id))
    rw [hvw]
  rw [← SymInt.subst_var a] at hp
  rw [← SymInt.subst_var b] at hq
  exact denote_eq_of_subst ha hb hvar hp hq h

theorem provesEqual_iff_toList_eq (hp : r.normalize a = some p) (hq : r.normalize b = some q) :
    r.provesEqual a b = true ↔ p.toList = q.toList := by
  rw [provesEqual, hp, hq]
  exact Polynomial.beq_iff

/-- **The prover decides polynomial identities.**  Two terms made of integers, variables, sums, differences and products
that have normal forms are proved equal exactly if they have the same value whatever the values of the variables, and
one folds to a word exactly if it always has the value of the word. -/
theorem decides_identities (z : ZeroDivision) (a b : SymInt) (ha : a.IsPolynomial) (hb : b.IsPolynomial)
    (hna : (empty.normalize a).isSome = true) (hnb : (empty.normalize b).isSome = true) :
    (empty.provesEqual a b = true ↔ ∀ σ, a.eval z σ = b.eval z σ) ∧
      ∀ c, empty.constValue? a = some c ↔ ∀ σ, a.eval z σ = c.toInt := by
  obtain ⟨p, hp⟩ := Option.isSome_iff_exists.1 hna
  obtain ⟨q, hq⟩ := Option.isSome_iff_exists.1 hnb
  refine ⟨⟨fun h σ => eval_eq_of_provesEqual (holdsAt_empty z σ) h, fun h => ?_⟩,
    fun c => ⟨fun h σ => eval_eq_of_constValue? (holdsAt_empty z σ) h, fun h => ?_⟩⟩
  · rw [provesEqual_iff_toList_eq hp hq]
    exact (canonical_normalize hp).toList_eq (canonical_normalize hq) (denote_eq_of_eval_eq ha hb hp hq h)
  · have hlit : empty.normalize (.lit c) = some (.constant c) := rfl
    have hdenote : p.denote = MvPolynomial.C c.toInt := by
      rw [denote_eq_of_eval_eq (z := z) ha (.lit c) hp hlit h, denote_constant]
    rw [constValue?, hp]
    exact (canonical_normalize hp).constant?_eq hdenote

/-- `(n + m) * (n - m)` is `n * n - m * m`, and `(n + 1) * (n - 1) - n * n` folds to `-1`. -/
theorem decides_identities_of_difference_of_squares :
    let z : ZeroDivision := ⟨id, id⟩
    let n := SymInt.var ⟨0, "n"⟩
    let m := SymInt.var ⟨1, "m"⟩
    let product := SymInt.binary .mul (.binary .add n m) (.binary .sub n m)
    let difference := SymInt.binary .sub (.binary .mul n n) (.binary .mul m m)
    let one := SymInt.lit 1
    let least := SymInt.binary .sub (.binary .mul (.binary .add n one) (.binary .sub n one)) (.binary .mul n n)
    product.IsPolynomial ∧ difference.IsPolynomial ∧ least.IsPolynomial ∧
      (empty.normalize product).isSome = true ∧ (empty.normalize difference).isSome = true ∧
      (empty.normalize least).isSome = true ∧ (∀ σ, product.eval z σ = difference.eval z σ) ∧
      (∀ σ, least.eval z σ = Int64.toInt (-1)) ∧ empty.provesEqual product difference = true ∧
      empty.constValue? least = some (-1) := by
  intro z n m product difference one least
  have hn : n.IsPolynomial := .var _
  have hm : m.IsPolynomial := .var _
  have hproduct : product.IsPolynomial := .mul (.add hn hm) (.sub hn hm)
  have hdifference : difference.IsPolynomial := .sub (.mul hn hn) (.mul hm hm)
  have hleast : least.IsPolynomial := .sub (.mul (.add hn (.lit 1)) (.sub hn (.lit 1))) (.mul hn hn)
  have hnproduct : (empty.normalize product).isSome = true := by cbv
  have hndifference : (empty.normalize difference).isSome = true := by cbv
  have hnleast : (empty.normalize least).isSome = true := by cbv
  have hequal : ∀ σ, product.eval z σ = difference.eval z σ := fun σ => by
    simp only [product, difference, n, m, SymInt.eval, IntOp.eval]
    ring
  have hminus : ∀ σ, least.eval z σ = Int64.toInt (-1) := fun σ => by
    have hone : Int64.toInt 1 = 1 := by decide
    have hneg : Int64.toInt (-1) = -1 := by decide
    simp only [least, one, n, SymInt.eval, IntOp.eval, hone, hneg]
    ring
  exact ⟨hproduct, hdifference, hleast, hnproduct, hndifference, hnleast, hequal, hminus,
    (decides_identities z product difference hproduct hdifference hnproduct hndifference).1.2 hequal,
    ((decides_identities z least product hleast hproduct hnleast hnproduct).2 (-1)).2 hminus⟩

end Prover
end Dataflow
