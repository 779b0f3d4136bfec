import Dataflow.Proofs.SymInt.Completeness
/-!
# Identities of commutative rings

Normal forms of sums, differences and products are exact, so an identity between polynomials is also proved with any
terms in the place of its variables, terms that polynomials do not look into among them (`identifies_of_identity`).  The
laws of commutative rings are such identities (`identifies_ring_laws`).  How the terms of a product are put in order,
merged and dropped plays no part: it is enough that the results are canonical and stand for the same.
-/
namespace Dataflow
namespace Prover

open Dataflow.Polynomial

variable {r : Prover} {s t a b c : SymInt} {z : ZeroDivision}

/-- Two terms are proved equal as soon as both have normal forms. -/
def Identifies (r : Prover) (a b : SymInt) : Prop :=
  (r.normalize a).isSome = true → (r.normalize b).isSome = true → r.provesEqual a b = true

/-- **A polynomial identity is proved for any terms in the place of its variables.** -/
theorem identifies_of_identity (hs : s.IsPolynomial) (ht : t.IsPolynomial) {g : SymVar → SymInt}
    (hg : ∀ v w, v.id = w.id → r.normalize (g v) = r.normalize (g w)) (h : ∀ σ, s.eval z σ = t.eval z σ) :
    r.Identifies (s.subst g) (t.subst g) := by
  intro hns hnt
  obtain ⟨p, hp⟩ := Option.isSome_iff_exists.1 hns
  obtain ⟨q, hq⟩ := Option.isSome_iff_exists.1 hnt
  rw [provesEqual_iff_toList_eq hp hq]
  exact (canonical_normalize hp).toList_eq (canonical_normalize hq) (denote_eq_of_subst hs ht hg hp hq h)

/-- A polynomial that is constant folds to its value with any terms in the place of its variables. -/
theorem constValue?_of_identity (hs : s.IsPolynomial) {g : SymVar → SymInt}
    (hg : ∀ v w, v.id = w.id → r.normalize (g v) = r.normalize (g w)) {v : Int64} (h : ∀ σ, s.eval z σ = v.toInt)
    (hns : (r.normalize (s.subst g)).isSome = true) : r.constValue? (s.subst g) = some v := by
  obtain ⟨p, hp⟩ := Option.isSome_iff_exists.1 hns
  have hdenote : p.denote = (constant v).denote := denote_eq_of_subst hs (.lit v) hg hp (normalize_lit r v) h
  rw [constValue?, hp]
  exact (canonical_normalize hp).constant?_eq (by rw [hdenote, denote_constant])

/-- Three terms in the place of the first three variables. -/
def inPlace (a b c : SymInt) (v : SymVar) : SymInt :=
  match v.id with
  | 0 => a
  | 1 => b
  | _ => c

theorem inPlace_congr {v w : SymVar} (h : v.id = w.id) : inPlace a b c v = inPlace a b c w := by
  rw [inPlace, inPlace, h]

/-- **The laws of commutative rings are proved for arbitrary terms**, whatever is bound: as soon as both sides have
normal forms, sums and products are proved to commute and to associate, products to distribute over sums, a difference
to be a sum with the negative, and 0 and 1 to be neutral.  A term less itself folds to 0 if it has a normal form. -/
theorem identifies_ring_laws (r : Prover) (a b c : SymInt) :
    r.Identifies (.binary .add a b) (.binary .add b a) ∧
    r.Identifies (.binary .add (.binary .add a b) c) (.binary .add a (.binary .add b c)) ∧
    r.Identifies (.binary .mul a b) (.binary .mul b a) ∧
    r.Identifies (.binary .mul (.binary .mul a b) c) (.binary .mul a (.binary .mul b c)) ∧
    r.Identifies (.binary .mul a (.binary .add b c)) (.binary .add (.binary .mul a b) (.binary .mul a c)) ∧
    r.Identifies (.binary .sub a b) (.binary .add a (.binary .mul b (.lit (-1)))) ∧
    r.Identifies (.binary .add a (.lit 0)) a ∧
    r.Identifies (.binary .mul a (.lit 1)) a ∧
    ((r.normalize (.binary .sub a a)).isSome = true → r.constValue? (.binary .sub a a) = some 0) := by
  let z : ZeroDivision := ⟨id, id⟩
  have x : SymInt.IsPolynomial (.var ⟨0, ""⟩) := .var _
  have y : SymInt.IsPolynomial (.var ⟨1, ""⟩) := .var _
  have w : SymInt.IsPolynomial (.var ⟨2, ""⟩) := .var _
  have hplace : ∀ v w : SymVar, v.id = w.id → r.normalize (inPlace a b c v) = r.normalize (inPlace a b c w) :=
    fun v w h => congrArg r.normalize (inPlace_congr h)
  have law : ∀ {s t : SymInt}, s.IsPolynomial → t.IsPolynomial → (∀ σ, s.eval z σ = t.eval z σ) →
      r.Identifies (s.subst (inPlace a b c)) (t.subst (inPlace a b c)) :=
    fun hs ht h => identifies_of_identity hs ht hplace h
  have hnegative : Int64.toInt (-1) = -1 := by decide
  have hzero : Int64.toInt 0 = 0 := by decide
  have hone : Int64.toInt 1 = 1 := by decide
  refine ⟨law (.add x y) (.add y x) fun σ => ?_, law (.add (.add x y) w) (.add x (.add y w)) fun σ => ?_,
    law (.mul x y) (.mul y x) fun σ => ?_, law (.mul (.mul x y) w) (.mul x (.mul y w)) fun σ => ?_,
    law (.mul x (.add y w)) (.add (.mul x y) (.mul x w)) fun σ => ?_,
    law (.sub x y) (.add x (.mul y (.lit (-1)))) fun σ => ?_, law (.add x (.lit 0)) x fun σ => ?_,
    law (.mul x (.lit 1)) x fun σ => ?_, constValue?_of_identity (z := z) (.sub x x) hplace fun σ => ?_⟩
  all_goals
    simp only [SymInt.eval, IntOp.eval, hnegative, hzero, hone]
    ring

/-- With `n` bound to `m * 4`, `(n // k) * (m + k)` is proved equal to `(n // k) * m + (n // k) * k`, although the
quotient is not looked into, and `n` less itself folds to 0. -/
theorem identifies_ring_laws_of_quotient :
    let n := SymInt.var ⟨0, "n"⟩
    let m := SymInt.var ⟨1, "m"⟩
    let k := SymInt.var ⟨2, "k"⟩
    let a := SymInt.binary .floorDiv n k
    let product := SymInt.binary .mul a (.binary .add m k)
    let sum := SymInt.binary .add (.binary .mul a m) (.binary .mul a k)
    let r : Prover := ⟨[(⟨0, "n"⟩, .binary .mul m (.lit 4))]⟩
    (r.normalize product).isSome = true ∧ (r.normalize sum).isSome = true ∧ r.provesEqual product sum = true ∧
      (r.normalize (.binary .sub n n)).isSome = true ∧
      r.constValue? (.binary .sub n n) = some 0 := by
  intro n m k a product sum r
  have hproduct : (r.normalize product).isSome = true := by cbv
  have hsum : (r.normalize sum).isSome = true := by cbv
  have hdifference : (r.normalize (.binary .sub n n)).isSome = true := by cbv
  obtain ⟨-, -, -, -, hdistributes, -⟩ := identifies_ring_laws r a m k
  obtain ⟨-, -, -, -, -, -, -, -, hcancels⟩ := identifies_ring_laws r n m k
  exact ⟨hproduct, hsum, hdistributes hproduct hsum, hdifference, hcancels hdifference⟩

end Prover
end Dataflow
