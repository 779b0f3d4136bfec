import Dataflow.Proofs.SymInt.Acyclic
import Dataflow.Proofs.SymInt.Completeness
import Dataflow.Proofs.SymInt.Overflow
import Mathlib.Data.Multiset.Bind
/-!
# The order of factors

The two orders of a product have the same terms to sum up (`products_perm`), but each sums those of its own left factor
first.  Where a monomial has at most two terms, or terms of one sign, the order makes no difference, because a total that
fits is enough (`sumsFit_iff_fits_sum`).  With three terms of both signs it can: `2^62 + 2^62 - 1` is no sum of words,
and `-1 + 2^62 + 2^62` is one.  So the prover can have a normal form for one order of a product and none for the other
(`provesEqual_swapped_ne`), and this is the only way in which it depends on the order (`provesEqual_swapped`).
-/
namespace Dataflow

namespace Word

theorem Fits.between {x y z : Int} (hx : Fits x) (hz : Fits z) (hxy : x ≤ y) (hyz : y ≤ z) : Fits y :=
  ⟨Int.le_trans hx.1 hxy, Int.le_trans hyz hz.2⟩

/-- **A total that fits is enough** for at most two summands, and for any number of one sign. -/
theorem sumsFit_iff_fits_sum {cs : List Int} (hfits : ∀ c ∈ cs, Fits c)
    (h : cs.length ≤ 2 ∨ (∀ c ∈ cs, 0 ≤ c) ∨ ∀ c ∈ cs, c ≤ 0) : SumsFit 0 cs ↔ Fits cs.sum := by
  refine ⟨fun hcs => by simpa using hcs cs List.prefix_rfl, fun hsum => ?_⟩
  rcases h with hlength | hsign
  · match cs, hfits, hlength, hsum with
    | [], _, _, _ => exact sumsFit_nil.2 fits_zero
    | [c], _, _, hsum => simpa [sumsFit_cons, sumsFit_nil, fits_zero] using hsum
    | [c, d], hfits, _, hsum =>
      simpa [sumsFit_cons, sumsFit_nil, fits_zero] using And.intro (hfits c (by simp)) hsum
  · rintro ds ⟨es, rfl⟩
    rw [List.sum_append] at hsum
    rw [Int.zero_add]
    rcases hsign with hnonneg | hnonpos
    · have hds : 0 ≤ ds.sum := List.sum_nonneg fun c hc => hnonneg c (by simp [hc])
      have hes : 0 ≤ es.sum := List.sum_nonneg fun c hc => hnonneg c (by simp [hc])
      exact fits_zero.between hsum hds (by omega)
    · have hds : ds.sum ≤ 0 := by simpa using List.sum_le_card_nsmul ds 0 fun c hc => hnonpos c (by simp [hc])
      have hes : es.sum ≤ 0 := by simpa using List.sum_le_card_nsmul es 0 fun c hc => hnonpos c (by simp [hc])
      exact hsum.between fits_zero (by omega) hds

end Word

theorem Monomial.Sorted.mul_comm {m n : Monomial} (hm : m.Sorted) (hn : n.Sorted) : m.mul n = n.mul m := by
  have hperm : (m.mul n).Perm (n.mul m) :=
    ((List.merge_perm_append _).trans List.perm_append_comm).trans (List.merge_perm_append _).symm
  refine exponents_inj (hm.mul hn) (hn.mul hm) ?_
  rw [exponents, Multiset.coe_eq_coe.2 hperm, exponents]

namespace Polynomial

open Word (Fits SumsFit)

variable {p q : Polynomial}

/-- What a product adds up for a monomial, in the order in which it does. -/
def contributions (p q : Polynomial) (m : Monomial) : List Int := coefficients m (products p q)

/-- Both orders of a product sum up the same terms. -/
theorem products_perm (hp : p.Canonical) (hq : q.Canonical) : (products p q).Perm (products q p) := by
  have hswap : products q p =
      q.toList.flatMap fun t => p.toList.map fun s => (s.1.mul t.1, s.2.toInt * t.2.toInt) := by
    refine List.flatMap_congr fun t ht => List.map_congr_left fun s hs => ?_
    rw [(hq t ht).2.mul_comm (hp s hs).2, mul_comm]
  have hcomm := Multiset.bind_map_comm (p.toList : Multiset (Monomial × Int64)) (q.toList : Multiset (Monomial × Int64))
    (f := fun s t => (s.1.mul t.1, s.2.toInt * t.2.toInt))
  rw [hswap]
  simpa only [products, ← Multiset.coe_eq_coe, ← Multiset.coe_bind, ← Multiset.map_coe] using hcomm

theorem contributions_perm (hp : p.Canonical) (hq : q.Canonical) (m : Monomial) :
    (contributions p q m).Perm (contributions q p m) :=
  ((products_perm hp hq).filter _).map _

/-- What is added up for a monomial is a product of two coefficients. -/
theorem exists_of_mem_contributions {m : Monomial} {c : Int} (h : c ∈ contributions p q m) :
    ∃ s ∈ p.toList, ∃ t ∈ q.toList, c = s.2.toInt * t.2.toInt := by
  obtain ⟨u, hu, rfl⟩ := List.mem_map.1 h
  obtain ⟨s, hs, hu⟩ := List.mem_flatMap.1 (List.mem_filter.1 hu).1
  obtain ⟨t, ht, rfl⟩ := List.mem_map.1 hu
  exact ⟨s, hs, t, ht, rfl⟩

/-- A monomial for which the order of summing up makes a difference has three or more terms, of both signs. -/
theorem mixed_of_order_matters (hp : p.Canonical) (hq : q.Canonical)
    (hterms : ∀ s ∈ p.toList, ∀ t ∈ q.toList, Fits (s.2.toInt * t.2.toInt)) {m : Monomial}
    (h : ¬(SumsFit 0 (contributions p q m) ↔ SumsFit 0 (contributions q p m))) :
    3 ≤ (contributions p q m).length ∧ (∃ c ∈ contributions p q m, 0 < c) ∧ ∃ c ∈ contributions p q m, c < 0 := by
  have hperm := contributions_perm hp hq m
  have hfits : ∀ c ∈ contributions p q m, Fits c := fun c hc => by
    obtain ⟨s, hs, t, ht, rfl⟩ := exists_of_mem_contributions hc
    exact hterms s hs t ht
  have hsteady : ¬((contributions p q m).length ≤ 2 ∨ (∀ c ∈ contributions p q m, 0 ≤ c) ∨
      ∀ c ∈ contributions p q m, c ≤ 0) := by
    intro hsteady
    refine h ?_
    rw [Word.sumsFit_iff_fits_sum hfits hsteady, hperm.sum_eq]
    refine (Word.sumsFit_iff_fits_sum (fun c hc => hfits c (hperm.mem_iff.2 hc)) ?_).symm
    rw [← hperm.length_eq]
    simpa only [hperm.mem_iff] using hsteady
  push Not at hsteady
  exact ⟨hsteady.1, hsteady.2.2, hsteady.2.1⟩

end Polynomial

namespace Prover

open Dataflow.Polynomial
open Word (Fits SumsFit)

variable {r : Prover} {a b : SymInt}

theorem provesEqual_self_iff : r.provesEqual a a = true ↔ (r.normalize a).isSome = true := by
  unfold provesEqual
  cases r.normalize a with
  | none => simp
  | some p => simpa using beq_iff.2 rfl

/-- **When a product is proved equal to itself.** -/
theorem provesEqual_product_iff (r : Prover) (a b : SymInt) :
    r.provesEqual (.binary .mul a b) (.binary .mul a b) = true ↔
      ∃ p q, r.normalize a = some p ∧ r.normalize b = some q ∧
        (∀ s ∈ p.toList, ∀ t ∈ q.toList, Fits (s.2.toInt * t.2.toInt)) ∧ ∀ m, SumsFit 0 (contributions p q m) := by
  have hmul : ∀ p q : Polynomial, (IntOp.mul.normalForm p q).isSome = true ↔
      (∀ s ∈ p.toList, ∀ t ∈ q.toList, Fits (s.2.toInt * t.2.toInt)) ∧ ∀ m, SumsFit 0 (contributions p q m) :=
    fun _ _ => isSome_mul_iff
  rw [provesEqual_self_iff, normalize_binary]
  cases r.normalize a <;> cases r.normalize b <;> simp [hmul]

/-- Two orders of a product are proved equal exactly if both have normal forms. -/
theorem provesEqual_swapped_iff (r : Prover) (a b : SymInt) :
    r.provesEqual (.binary .mul a b) (.binary .mul b a) = true ↔
      r.provesEqual (.binary .mul a b) (.binary .mul a b) = true ∧
        r.provesEqual (.binary .mul b a) (.binary .mul b a) = true := by
  rw [provesEqual_self_iff, provesEqual_self_iff]
  cases hab : r.normalize (.binary .mul a b) with
  | none => simp [provesEqual, hab]
  | some s =>
    cases hba : r.normalize (.binary .mul b a) with
    | none => simp [provesEqual, hba, hab]
    | some t =>
      obtain ⟨p, q, hp, hq, hpq⟩ := exists_of_normalize_binary hab
      obtain ⟨q', p', hq', hp', hqp⟩ := exists_of_normalize_binary hba
      cases hp.symm.trans hp'
      cases hq.symm.trans hq'
      have hdenote : s.denote = t.denote := by rw [denote_mul hpq, denote_mul hqp, mul_comm]
      have hequal := (canonical_normalize hab).toList_eq (canonical_normalize hba) hdenote
      exact iff_of_true ((provesEqual_iff_toList_eq hab hba).2 hequal) ⟨rfl, rfl⟩

/-- Some monomial of the product has three or more terms to sum up, of both signs, and in one order of the factors all
sums on the way fit, in the other not. -/
def OrderMatters (r : Prover) (a b : SymInt) : Prop :=
  ∃ p q m, r.normalize a = some p ∧ r.normalize b = some q ∧ 3 ≤ (contributions p q m).length ∧
    (∃ c ∈ contributions p q m, 0 < c) ∧ (∃ c ∈ contributions p q m, c < 0) ∧
    ¬(SumsFit 0 (contributions p q m) ↔ SumsFit 0 (contributions q p m))

theorem provesEqual_product_comm (h : ¬r.OrderMatters a b) :
    r.provesEqual (.binary .mul a b) (.binary .mul a b) = true ↔
      r.provesEqual (.binary .mul b a) (.binary .mul b a) = true := by
  have hsame : ∀ p q, r.normalize a = some p → r.normalize b = some q →
      (∀ s ∈ p.toList, ∀ t ∈ q.toList, Fits (s.2.toInt * t.2.toInt)) → ∀ m,
        (SumsFit 0 (contributions p q m) ↔ SumsFit 0 (contributions q p m)) := by
    intro p q hp hq hterms m
    by_contra hm
    obtain ⟨hlength, hpos, hneg⟩ := mixed_of_order_matters (canonical_normalize hp) (canonical_normalize hq) hterms hm
    exact h ⟨p, q, m, hp, hq, hlength, hpos, hneg, hm⟩
  rw [provesEqual_product_iff, provesEqual_product_iff]
  constructor
  · rintro ⟨p, q, hp, hq, hterms, hsums⟩
    refine ⟨q, p, hq, hp, fun t ht s hs => ?_, fun m => (hsame p q hp hq hterms m).1 (hsums m)⟩
    rw [mul_comm]
    exact hterms s hs t ht
  · rintro ⟨q, p, hq, hp, hterms, hsums⟩
    have hterms' : ∀ s ∈ p.toList, ∀ t ∈ q.toList, Fits (s.2.toInt * t.2.toInt) := fun s hs t ht => by
      rw [mul_comm]
      exact hterms t ht s hs
    exact ⟨p, q, hp, hq, hterms', fun m => (hsame p q hp hq hterms' m).2 (hsums m)⟩

/-- **How the prover depends on the order of factors.**  Either a product is proved equal to itself in both orders or in
none, and proved equal to its other order with that, or some monomial of it has three or more terms to sum up, of both
signs, that fit in one order and not in the other.  In every case the two orders are proved equal exactly if each is
proved equal to itself, and a product is proved equal to itself exactly if its factors have normal forms, all products
of two of their terms are words, and so are all sums on the way, for each monomial, those of the first term of the left
factor first. -/
theorem provesEqual_swapped (r : Prover) (a b : SymInt) :
    ((r.provesEqual (.binary .mul a b) (.binary .mul a b) = r.provesEqual (.binary .mul b a) (.binary .mul b a) ∧
        r.provesEqual (.binary .mul a b) (.binary .mul b a) = r.provesEqual (.binary .mul a b) (.binary .mul a b)) ∨
      r.OrderMatters a b) ∧
    (r.provesEqual (.binary .mul a b) (.binary .mul b a) = true ↔
      r.provesEqual (.binary .mul a b) (.binary .mul a b) = true ∧
        r.provesEqual (.binary .mul b a) (.binary .mul b a) = true) ∧
    (r.provesEqual (.binary .mul a b) (.binary .mul a b) = true ↔
      ∃ p q, r.normalize a = some p ∧ r.normalize b = some q ∧
        (∀ s ∈ p.toList, ∀ t ∈ q.toList, Fits (s.2.toInt * t.2.toInt)) ∧
          ∀ m, SumsFit 0 (contributions p q m)) := by
  refine ⟨?_, provesEqual_swapped_iff r a b, provesEqual_product_iff r a b⟩
  by_cases h : r.OrderMatters a b
  · exact .inr h
  · have hcomm := provesEqual_product_comm h
    refine .inl ⟨Bool.eq_iff_iff.2 hcomm, Bool.eq_iff_iff.2 ?_⟩
    rw [provesEqual_swapped_iff, ← hcomm, and_self]

/-- With `a` for `-1 + 2^31 * n + 2^31 * n * n` and `b` for `2^31 + 2^31 * n + n * n`, the terms of `n * n` in `a * b` are
`-1`, `2^62` and `2^62`, and every sum on the way fits.  In `b * a` they come the other way round, and the sum of the
first two does not. -/
theorem provesEqual_swapped_ne :
    let n := SymInt.var ⟨0, "n"⟩
    let square := SymInt.binary .mul n n
    let times (v : Int64) (a : SymInt) := SymInt.binary .mul (.lit v) a
    let a := SymInt.binary .add (.binary .add (.lit (-1)) (times 2147483648 n)) (times 2147483648 square)
    let b := SymInt.binary .add (.binary .add (.lit 2147483648) (times 2147483648 n)) square
    empty.Acyclic ∧ empty.provesEqual (.binary .mul a b) (.binary .mul a b) = true ∧
      empty.provesEqual (.binary .mul b a) (.binary .mul b a) = false ∧
      empty.provesEqual (.binary .mul a b) (.binary .mul b a) = false := by
  intro n square times a b
  exact ⟨acyclic_empty, by cbv, by cbv, by cbv⟩

end Prover
end Dataflow
