import Dataflow.Proofs.SymInt.NormalForm
import Mathlib.Data.Finsupp.Multiset
/-!
# Canonical polynomials

A polynomial is canonical if no term is zero and every monomial has its atoms in ascending order, as in every normal
form (`Prover.canonical_normalize`).  Two canonical polynomials that stand for the same integer polynomial have the
same terms (`Canonical.toList_eq`), because a sorted monomial is known by how often each atom occurs in it.
-/
namespace Dataflow

namespace Monomial

def Sorted (m : Monomial) : Prop := m.Pairwise fun a b => (compare a b).isLE = true

/-- How often each atom occurs. -/
noncomputable def exponents (m : Monomial) : Atom →₀ Nat := Multiset.toFinsupp (m : Multiset Atom)

variable {m n : Monomial}

theorem isLE_total (a b : Atom) : ((compare a b).isLE || (compare b a).isLE) = true := by
  have hswap : compare b a = (compare a b).swap := Std.OrientedCmp.eq_swap
  rw [hswap, Ordering.isLE_swap]
  cases compare a b <;> rfl

theorem Sorted.mul (hm : m.Sorted) (hn : n.Sorted) : (m.mul n).Sorted :=
  List.pairwise_merge (fun _ _ _ => Std.TransCmp.isLE_trans) isLE_total m n hm hn

/-- A monomial with given atoms can be sorted in one way. -/
theorem Sorted.eq_of_perm (hm : m.Sorted) (hn : n.Sorted) (h : m.Perm n) : m = n := by
  refine h.eq_of_pairwise (fun a b _ _ hab hba => ?_) hm hn
  exact Std.LawfulEqCmp.eq_of_compare (Std.OrientedCmp.isLE_antisymm hab hba)

theorem exponents_inj (hm : m.Sorted) (hn : n.Sorted) (h : m.exponents = n.exponents) : m = n :=
  hm.eq_of_perm hn (Multiset.coe_eq_coe.1 (Multiset.toFinsupp.injective h))

theorem exponents_cons (a : Atom) (m : Monomial) : exponents (a :: m) = Finsupp.single a 1 + exponents m := by
  rw [exponents, ← Multiset.cons_coe, ← Multiset.singleton_add, map_add, Multiset.toFinsupp_singleton]
  rfl

end Monomial

namespace Polynomial

open MvPolynomial (C X monomial)

theorem termValue_eq_monomial (m : Monomial) (c : Int) : termValue m c = monomial m.exponents c := by
  induction m with
  | nil => simp [termValue, Monomial.exponents]
  | cons a m ih =>
    have hcons : termValue (a :: m) c = X a * termValue m c := by
      rw [termValue, termValue, List.map_cons, List.prod_cons]
      ring
    rw [hcons, ih, Monomial.exponents_cons, X, MvPolynomial.monomial_mul, one_mul]

/-- No term is zero and every monomial is sorted. -/
def Canonical (p : Polynomial) : Prop := p.HasTerms Monomial.Sorted

variable {p q : Polynomial}

/-- The coefficients of a canonical polynomial are those of what it stands for. -/
theorem Canonical.coeff_denote (hp : p.Canonical) {m : Monomial} (hm : m.Sorted) :
    MvPolynomial.coeff m.exponents p.denote = (p.coeff m).toInt := by
  have hothers : ∀ t ∈ p.others m, MvPolynomial.coeff m.exponents (termValue t.1 t.2.toInt) = 0 := by
    intro t ht
    obtain ⟨hmem, hne⟩ := List.mem_filter.1 ht
    rw [termValue_eq_monomial, MvPolynomial.coeff_monomial, if_neg]
    intro h
    exact absurd (Monomial.exponents_inj (hp t hmem).2 hm h) (by simpa using hne)
  have hsum : ∀ ts : List (Monomial × Int64), (∀ t ∈ ts, MvPolynomial.coeff m.exponents (termValue t.1 t.2.toInt) = 0) →
      MvPolynomial.coeff m.exponents (ts.map fun t => termValue t.1 t.2.toInt).sum = 0 := by
    intro ts hts
    induction ts with
    | nil => simp
    | cons t ts ih =>
      rw [List.map_cons, List.sum_cons, MvPolynomial.coeff_add, hts t (by simp), ih fun u hu => hts u (by simp [hu]),
        add_zero]
  rw [denote_eq_of_perm (toList_perm p m), List.map_append, List.sum_append, MvPolynomial.coeff_add,
    hsum _ hothers, add_zero, coeff_eq_getD]
  cases p.terms[m]? <;> simp [termValue_eq_monomial]

theorem Canonical.mem_toList_iff (hp : p.Canonical) {m : Monomial} {c : Int64} :
    (m, c) ∈ p.toList ↔ m.Sorted ∧ c ≠ 0 ∧ p.coeff m = c := by
  rw [coeff_eq_getD]
  constructor
  · intro h
    refine ⟨(hp _ h).2, (hp _ h).1, ?_⟩
    rw [(mem_toList p m c).1 h, Option.getD_some]
  · rintro ⟨-, hc, h⟩
    rw [mem_toList]
    cases hm : p.terms[m]? with
    | none => rw [hm, Option.getD_none] at h; exact absurd h.symm hc
    | some d => rw [hm, Option.getD_some] at h; rw [h]

/-- **Canonical polynomials that stand for the same are the same.** -/
theorem Canonical.toList_eq (hp : p.Canonical) (hq : q.Canonical) (h : p.denote = q.denote) : p.toList = q.toList := by
  have hcoeff : ∀ m : Monomial, m.Sorted → p.coeff m = q.coeff m := fun m hm =>
    Int64.toInt_inj.1 (by rw [← hp.coeff_denote hm, ← hq.coeff_denote hm, h])
  have hperm : p.toList.Perm q.toList := by
    refine (List.perm_ext_iff_of_nodup (nodup_toList p) (nodup_toList q)).2 fun ⟨m, c⟩ => ?_
    rw [hp.mem_toList_iff, hq.mem_toList_iff]
    exact and_congr_right fun hm => by rw [hcoeff m hm]
  exact (Std.TreeMap.equiv_iff_toList_perm.2 hperm).toList_eq

theorem canonical_constant (v : Int64) : (constant v).Canonical := hasTerms_constant v List.Pairwise.nil

theorem canonical_atom (a : Atom) : (atom a).Canonical := hasTerms_atom (List.pairwise_singleton _ _)

theorem constant?_eq_of_toList_eq (h : p.toList = q.toList) : p.constant? = q.constant? := by
  have hempty : p.terms.isEmpty = q.terms.isEmpty := by
    rw [← Std.TreeMap.isEmpty_toList, ← Std.TreeMap.isEmpty_toList]
    exact congrArg List.isEmpty h
  have hsize : p.terms.size = q.terms.size := by
    rw [← Std.TreeMap.length_toList, ← Std.TreeMap.length_toList]
    exact congrArg List.length h
  have hget : p.terms[([] : Monomial)]? = q.terms[([] : Monomial)]? := by
    refine Option.ext fun c => ?_
    rw [← mem_toList, ← mem_toList, h]
  rw [constant?, constant?, hempty, hsize, hget]

theorem constant?_constant (v : Int64) : (constant v).constant? = some v := by
  rw [constant?, constant, setCoeff, zero]
  split <;> simp_all [Std.TreeMap.size_insert]

/-- A constant, whatever the history of its terms. -/
def IsConstant (p : Polynomial) (v : Int64) : Prop := p.toList = (constant v).toList

theorem IsConstant.constant?_eq {v : Int64} (h : p.IsConstant v) : p.constant? = some v := by
  rw [constant?_eq_of_toList_eq h, constant?_constant]

/-- A canonical polynomial that stands for a word is that constant. -/
theorem Canonical.isConstant (hp : p.Canonical) {v : Int64} (h : p.denote = C v.toInt) : p.IsConstant v :=
  hp.toList_eq (canonical_constant v) (by rw [h, denote_constant])

theorem Canonical.constant?_eq (hp : p.Canonical) {v : Int64} (h : p.denote = C v.toInt) : p.constant? = some v :=
  (hp.isConstant h).constant?_eq

end Polynomial

theorem IntOp.Becomes.canonical {op : IntOp} {p q r : Polynomial} (h : op.Becomes p q r) (hp : p.Canonical)
    (hq : q.Canonical) : r.Canonical :=
  h.hasTerms List.Pairwise.nil (fun _ _ => Monomial.Sorted.mul) (fun _ _ => List.pairwise_singleton _ _) hp hq

/-- **Normal forms are canonical.** -/
theorem Prover.canonical_normalize {r : Prover} {a : SymInt} {p : Polynomial} (h : r.normalize a = some p) :
    p.Canonical :=
  of_normalizeUpTo Polynomial.canonical_constant (fun _ _ _ _ => IntOp.Becomes.canonical)
    (fun _ => Polynomial.canonical_atom _) _ h

end Dataflow
