import Dataflow.Proofs.SymInt.Overflow
/-!
# Arithmetic of canonical polynomials

A sum, a difference and a product are put together term by term.  A step may leave a term that is zero, and takes it
out again together with all others, so that after every step there is none and every monomial is sorted
(`HasTerms.addTerm`).  The coefficients of what a canonical polynomial stands for are its own, because every product
of atoms is that of one sorted monomial (`Monomial.exists_sorted`).  So that a sum has coefficients that are words can
be said of the integer polynomials (`Canonical.add_eq_none_iff`).
-/
namespace Dataflow

namespace Monomial

variable {m n : Monomial}

theorem sorted_mergeSort (m : Monomial) : Sorted (m.mergeSort fun a b => (compare a b).isLE) :=
  List.pairwise_mergeSort (fun _ _ _ => Std.TransCmp.isLE_trans) isLE_total m

/-- The product of sorted monomials is what sorting all their atoms gives. -/
theorem mul_eq_mergeSort (hm : m.Sorted) (hn : n.Sorted) :
    m.mul n = (m ++ n).mergeSort fun a b => (compare a b).isLE := by
  have hperm : (m.mul n).Perm ((m ++ n).mergeSort fun a b => (compare a b).isLE) :=
    (List.merge_perm_append _).trans (List.mergeSort_perm _ _).symm
  exact (hm.mul hn).eq_of_perm (sorted_mergeSort _) hperm

/-- Every product of atoms is that of a sorted monomial. -/
theorem exists_sorted (d : Atom →₀ Nat) : ∃ m : Monomial, m.Sorted ∧ m.exponents = d := by
  let atoms := (Finsupp.toMultiset d).toList
  have hsame : (atoms.mergeSort fun a b => (compare a b).isLE : Multiset Atom) = Finsupp.toMultiset d := by
    rw [Multiset.coe_eq_coe.2 (List.mergeSort_perm _ _), Multiset.coe_toList]
  refine ⟨_, sorted_mergeSort atoms, ?_⟩
  rw [exponents, hsame, Finsupp.toMultiset_toFinsupp]

end Monomial

namespace Polynomial

open Word (Fits)

variable {p q r : Polynomial} {m : Monomial}

/-! ## Canonical polynomials are kept -/

theorem Canonical.add (hp : p.Canonical) (hq : q.Canonical) (h : p.add q = some r) : r.Canonical :=
  HasTerms.add hp hq h

theorem Canonical.sub (hp : p.Canonical) (hq : q.Canonical) (h : p.sub q = some r) : r.Canonical :=
  HasTerms.sub hp hq h

theorem Canonical.mul (hp : p.Canonical) (hq : q.Canonical) (h : p.mul q = some r) : r.Canonical :=
  HasTerms.mul (fun _ _ => Monomial.Sorted.mul) hp hq h

/-! ## When there is no sum -/

theorem Canonical.coeff_of_not_sorted (hp : p.Canonical) (hm : ¬m.Sorted) : p.coeff m = 0 := by
  rw [coeff_eq_getD]
  cases h : p.terms[m]? with
  | none => rfl
  | some c => exact absurd (hp (m, c) ((mem_toList p m c).2 h)).2 hm

/-- What holds of the coefficients of two canonical polynomials, monomial by monomial, holds of the coefficients of what
they stand for. -/
theorem Canonical.forall_coeff_iff (hp : p.Canonical) (hq : q.Canonical) {P : Int → Int → Prop} (hzero : P 0 0) :
    (∀ m, P (p.coeff m).toInt (q.coeff m).toInt) ↔
      ∀ d, P (MvPolynomial.coeff d p.denote) (MvPolynomial.coeff d q.denote) := by
  constructor
  · intro h d
    obtain ⟨m, hm, rfl⟩ := Monomial.exists_sorted d
    rw [hp.coeff_denote hm, hq.coeff_denote hm]
    exact h m
  · intro h m
    by_cases hm : m.Sorted
    · rw [← hp.coeff_denote hm, ← hq.coeff_denote hm]
      exact h m.exponents
    · rw [hp.coeff_of_not_sorted hm, hq.coeff_of_not_sorted hm]
      exact hzero

/-- There is no sum exactly if a coefficient of the exact sum is no word. -/
theorem Canonical.add_eq_none_iff (hp : p.Canonical) (hq : q.Canonical) :
    p.add q = none ↔ ∃ d, ¬Fits (MvPolynomial.coeff d (p.denote + q.denote)) := by
  have hzero : Fits (0 + 0) := Word.fits_zero
  have hsome := (isSome_add_iff (p := p) (q := q)).trans (hp.forall_coeff_iff hq (P := fun c d => Fits (c + d)) hzero)
  rw [← not_forall, ← Option.not_isSome_iff_eq_none, hsome]
  simp only [MvPolynomial.coeff_add]

/-- **Arithmetic of canonical polynomials is exact and canonical.**  A sum, a difference and a product, where there is
one, is canonical again and stands for the sum, difference or product of what the operands stand for, and there is no
sum exactly if the exact one has a coefficient that is no word. -/
theorem arithmetic_exact (hp : p.Canonical) (hq : q.Canonical) :
    (∀ r, p.add q = some r → r.Canonical ∧ r.denote = p.denote + q.denote) ∧
      (∀ r, p.sub q = some r → r.Canonical ∧ r.denote = p.denote - q.denote) ∧
      (∀ r, p.mul q = some r → r.Canonical ∧ r.denote = p.denote * q.denote) ∧
      (p.add q = none ↔ ∃ d, ¬Fits (MvPolynomial.coeff d (p.denote + q.denote))) :=
  ⟨fun _ h => ⟨hp.add hq h, denote_add h⟩, fun _ h => ⟨hp.sub hq h, denote_sub h⟩,
    fun _ h => ⟨hp.mul hq h, denote_mul h⟩, hp.add_eq_none_iff hq⟩

/-- In the product of `x + y` and `x - y` the mixed terms cancel, and there is no sum of `x` and as many `x` as the
greatest word says. -/
theorem arithmetic_exact_of_cancelling_terms :
    let x := Atom.var 0
    let y := Atom.var 1
    let sum := (atom x).setCoeff [y] 1
    let difference := (atom x).setCoeff [y] (-1)
    let greatest := zero.setCoeff [x] Int64.maxValue
    sum.Canonical ∧ difference.Canonical ∧ greatest.Canonical ∧
      (∃ r, sum.mul difference = some r ∧ r.toList = [([x, x], 1), ([y, y], -1)] ∧ r.Canonical ∧
        r.denote = sum.denote * difference.denote) ∧
      greatest.add (atom x) = none := by
  intro x y sum difference greatest
  have hx : Monomial.Sorted [x] := List.pairwise_singleton _ _
  have hy : Monomial.Sorted [y] := List.pairwise_singleton _ _
  have hsum : sum.Canonical := (canonical_atom x).setCoeff 1 hy
  have hdifference : difference.Canonical := (canonical_atom x).setCoeff (-1) hy
  have hgreatest : greatest.Canonical := hasTerms_zero.setCoeff _ hx
  have hterms : (sum.mul difference).map toList = some [([x, x], 1), ([y, y], -1)] := by cbv
  obtain ⟨r, hr, hlist⟩ := Option.map_eq_some_iff.1 hterms
  obtain ⟨-, -, hmul, -⟩ := arithmetic_exact hsum hdifference
  obtain ⟨hcanonical, hdenote⟩ := hmul r hr
  refine ⟨hsum, hdifference, hgreatest, ⟨r, hr, hlist, hcanonical, hdenote⟩, ?_⟩
  have hcoeff : MvPolynomial.coeff (Monomial.exponents [x]) (greatest.denote + (atom x).denote) =
      Int64.maxValue.toInt + 1 := by
    rw [MvPolynomial.coeff_add, hgreatest.coeff_denote hx, (canonical_atom x).coeff_denote hx]
    simp [greatest, atom]
  refine (arithmetic_exact hgreatest (canonical_atom x)).2.2.2.2 ⟨Monomial.exponents [x], ?_⟩
  rw [hcoeff]
  decide

end Polynomial
end Dataflow
