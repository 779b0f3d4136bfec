import Dataflow.Proofs.SymInt.Completeness
import Dataflow.Proofs.SymInt.Overflow
/-!
# Folding constants

A term without variables folds to its exact value if all its parts have words for values, no part divides by zero, and
none subtracts the least word (`constValue?_eq_exact`).  The last condition is one on the way and not on the result: a
difference adds the negative of what is subtracted, and the least word has no negative.  So `-1` less the least word
does not fold, although the difference is the greatest word (`constValue?_ne_exact`).
-/
namespace Dataflow

namespace SymInt

/-- The parts of a term, the term first. -/
def parts : SymInt → List SymInt
  | lit v => [lit v]
  | var v => [var v]
  | binary op l r => binary op l r :: (l.parts ++ r.parts)

theorem self_mem_parts (a : SymInt) : a ∈ a.parts := by
  cases a <;> simp [parts]

/-- No variables and no remainders, no division by zero, and an exact value in the range of words for every part. -/
structure InRange (z : ZeroDivision) (σ : Nat → Int) (a : SymInt) : Prop where
  closed : ∀ v, a.mentions v = false
  noRemainder : ∀ l r, binary .floorMod l r ∉ a.parts
  divisor : ∀ l r, binary .floorDiv l r ∈ a.parts → r.eval z σ ≠ 0
  fits : ∀ b ∈ a.parts, Word.Fits (b.eval z σ)

/-- Some part subtracts the least word. -/
def SubtractsLeast (z : ZeroDivision) (σ : Nat → Int) (a : SymInt) : Prop :=
  ∃ l r, binary .sub l r ∈ a.parts ∧ r.eval z σ = Int64.minValue.toInt

variable {z : ZeroDivision} {σ : Nat → Int} {op : IntOp} {l r : SymInt}

theorem InRange.left (h : (binary op l r).InRange z σ) : l.InRange z σ where
  closed v := (Bool.or_eq_false_iff.1 (h.closed v)).1
  noRemainder a b hab := h.noRemainder a b (by simp [parts, hab])
  divisor a b hab := h.divisor a b (by simp [parts, hab])
  fits b hb := h.fits b (by simp [parts, hb])

theorem InRange.right (h : (binary op l r).InRange z σ) : r.InRange z σ where
  closed v := (Bool.or_eq_false_iff.1 (h.closed v)).2
  noRemainder a b hab := h.noRemainder a b (by simp [parts, hab])
  divisor a b hab := h.divisor a b (by simp [parts, hab])
  fits b hb := h.fits b (by simp [parts, hb])

theorem subtractsLeast_binary_iff :
    (binary op l r).SubtractsLeast z σ ↔
      (op = .sub ∧ r.eval z σ = Int64.minValue.toInt) ∨ l.SubtractsLeast z σ ∨ r.SubtractsLeast z σ := by
  unfold SubtractsLeast
  constructor
  · rintro ⟨a, b, hab, hb⟩
    rw [parts, List.mem_cons, List.mem_append] at hab
    rcases hab with hab | hab | hab
    · cases hab
      exact .inl ⟨rfl, hb⟩
    · exact .inr (.inl ⟨a, b, hab, hb⟩)
    · exact .inr (.inr ⟨a, b, hab, hb⟩)
  · rintro (⟨rfl, hr⟩ | ⟨a, b, hab, hb⟩ | ⟨a, b, hab, hb⟩)
    · exact ⟨l, r, self_mem_parts _, hr⟩
    · exact ⟨a, b, by simp [parts, hab], hb⟩
    · exact ⟨a, b, by simp [parts, hab], hb⟩

end SymInt

namespace Polynomial

open Word (Fits)

variable {p q r : Polynomial} {x y : Int64}

theorem IsConstant.canonical (h : p.IsConstant x) : p.Canonical := by
  intro t ht
  rw [h] at ht
  exact canonical_constant x t ht

theorem IsConstant.denote (h : p.IsConstant x) : p.denote = MvPolynomial.C x.toInt := by
  rw [← denote_constant, Polynomial.denote, h]
  rfl

theorem IsConstant.coeff (h : p.IsConstant x) (m : Monomial) : p.coeff m = if m = [] then x else 0 := by
  have hget : p.terms[m]? = (constant x).terms[m]? := Option.ext fun c => by rw [← mem_toList, ← mem_toList, h]
  rw [coeff_eq_getD, hget, ← coeff_eq_getD, constant, coeff_setCoeff, coeff_zero]

theorem toList_constant (v : Int64) : (constant v).toList = if v = 0 then [] else [([], v)] := by
  have hperm : (constant v).toList.Perm ((if v = 0 then [] else [([], v)]) ++ []) := toList_setCoeff_perm zero [] v
  by_cases hv : v = 0
  · rw [if_pos hv] at hperm ⊢
    exact hperm.eq_nil
  · rw [if_neg hv] at hperm ⊢
    exact hperm.eq_singleton

/-! ## Operators on constants -/

theorem isSome_add_of_constant (hp : p.IsConstant x) (hq : q.IsConstant y) (h : Fits (x.toInt + y.toInt)) :
    (p.add q).isSome = true := by
  refine isSome_add_iff.2 fun m => ?_
  rw [hp.coeff, hq.coeff]
  by_cases hm : m = []
  · rwa [if_pos hm, if_pos hm]
  · rw [if_neg hm, if_neg hm]
    exact Word.fits_zero

/-- A difference of constants exists exactly if what is subtracted is not the least word. -/
theorem isSome_sub_of_constant (hp : p.IsConstant x) (hq : q.IsConstant y) (h : Fits (x.toInt - y.toInt)) :
    (p.sub q).isSome = true ↔ y.toInt ≠ Int64.minValue.toInt := by
  have hneg : Fits (-y.toInt) ↔ y.toInt ≠ Int64.minValue.toInt := by
    have := Word.fits_toInt y
    unfold Fits at *
    rw [Int64.toInt_minValue, Int64.toInt_maxValue] at *
    omega
  rw [isSome_sub_iff, ← hneg]
  constructor
  · intro hall
    simpa [hq.coeff] using (hall []).1
  · intro hy m
    rw [hp.coeff, hq.coeff]
    by_cases hm : m = []
    · rw [if_pos hm, if_pos hm]
      exact ⟨hy, h⟩
    · rw [if_neg hm, if_neg hm]
      exact ⟨Word.fits_zero, Word.fits_zero⟩

theorem isSome_mul_of_constant (hp : p.IsConstant x) (hq : q.IsConstant y) (h : Fits (x.toInt * y.toInt)) :
    (p.mul q).isSome = true := by
  have hone : products p q = [] ∨ products p q = [([], x.toInt * y.toInt)] := by
    unfold products
    rw [hp, hq, toList_constant, toList_constant]
    by_cases hx : x = 0
    · simp [hx]
    · by_cases hy : y = 0
      · simp [hy]
      · simp [hx, hy, Monomial.mul]
  rw [mul_eq_addAll, isSome_addAll_iff]
  rcases hone with hone | hone
  · simp [hone, coefficients, Word.sumsFit_nil, Word.fits_zero]
  · rw [hone]
    refine ⟨by simpa using h, fun m => ?_⟩
    rw [coefficients_cons]
    split
    · simpa [coefficients, Word.sumsFit_cons, Word.sumsFit_nil, Word.fits_zero] using h
    · simp [coefficients, Word.sumsFit_nil, Word.fits_zero]

end Polynomial

open Dataflow.Polynomial

theorem IntOp.isConstant_of_normalForm {z : ZeroDivision} {op : IntOp} {p q r : Polynomial} {x y v : Int64}
    (hop : op = .add ∨ op = .sub ∨ op = .mul) (hp : p.IsConstant x) (hq : q.IsConstant y)
    (h : op.normalForm p q = some r) (hv : v.toInt = op.eval z x.toInt y.toInt) : r.IsConstant v := by
  refine ((becomes_of_normalForm h).canonical hp.canonical hq.canonical).isConstant ?_
  rcases hop with rfl | rfl | rfl
  · rw [denote_add h, hp.denote, hq.denote, hv, eval, map_add]
  · rw [denote_sub h, hp.denote, hq.denote, hv, eval, map_sub]
  · rw [denote_mul h, hp.denote, hq.denote, hv, eval, map_mul]

/-- **One operator on constants**: it folds to the exact value, if that is a word. -/
theorem IntOp.exists_normalForm {z : ZeroDivision} (op : IntOp) {p q : Polynomial} {x y v : Int64}
    (hp : p.IsConstant x) (hq : q.IsConstant y) (hremainder : op ≠ .floorMod) (hzero : op = .floorDiv → y.toInt ≠ 0)
    (hleast : op = .sub → y.toInt ≠ Int64.minValue.toInt) (hv : v.toInt = op.eval z x.toInt y.toInt) :
    ∃ r, op.normalForm p q = some r ∧ r.IsConstant v := by
  have hfits : Word.Fits (op.eval z x.toInt y.toInt) := hv ▸ Word.fits_toInt v
  have hx := hp.constant?_eq
  have hy := hq.constant?_eq
  cases op with
  | add =>
    obtain ⟨r, hr⟩ := Option.isSome_iff_exists.1 (isSome_add_of_constant hp hq hfits)
    exact ⟨r, hr, isConstant_of_normalForm (.inl rfl) hp hq hr hv⟩
  | sub =>
    obtain ⟨r, hr⟩ := Option.isSome_iff_exists.1 ((isSome_sub_of_constant hp hq hfits).2 (hleast rfl))
    exact ⟨r, hr, isConstant_of_normalForm (.inr (.inl rfl)) hp hq hr hv⟩
  | mul =>
    obtain ⟨r, hr⟩ := Option.isSome_iff_exists.1 (isSome_mul_of_constant hp hq hfits)
    exact ⟨r, hr, isConstant_of_normalForm (.inr (.inr rfl)) hp hq hr hv⟩
  | floorDiv =>
    have hy0 : y ≠ 0 := fun h => hzero rfl (by rw [h]; rfl)
    have hquotient : Word.floorDiv? x y = some v := by
      rw [Word.floorDiv?_eq, if_neg hy0]
      refine Word.ofInt?_eq_some_iff.2 (hv.trans ?_)
      rw [eval, if_neg (hzero rfl)]
    refine ⟨.constant v, ?_, rfl⟩
    simp [normalForm, hx, hy, hy0, hquotient]
  | floorMod => exact absurd rfl hremainder
  | min =>
    have hfold : v = if x ≤ y then x else y := by
      apply Int64.toInt_inj.1
      simp only [hv, eval, Int64.le_iff_toInt_le]
      split <;> rfl
    exact ⟨.constant v, by simp only [normalForm, hx, hy, hfold], rfl⟩
  | max =>
    have hfold : v = if x ≤ y then y else x := by
      apply Int64.toInt_inj.1
      simp only [hv, eval, Int64.le_iff_toInt_le]
      split <;> rfl
    exact ⟨.constant v, by simp only [normalForm, hx, hy, hfold], rfl⟩

namespace Prover

open SymInt

variable {z : ZeroDivision} {σ : Nat → Int} {p : Prover}

theorem exists_normalize : ∀ {a : SymInt}, a.InRange z σ → ¬a.SubtractsLeast z σ →
    ∃ q v, p.normalize a = some q ∧ q.IsConstant v ∧ v.toInt = a.eval z σ
  | .lit v, _, _ => ⟨.constant v, v, normalize_lit p v, rfl, rfl⟩
  | .var v, h, _ => absurd (h.closed v) (by simp [mentions])
  | .binary op l r, h, hleast => by
    rw [subtractsLeast_binary_iff, not_or, not_or] at hleast
    obtain ⟨ql, x, hl, hx, hxv⟩ := exists_normalize h.left hleast.2.1
    obtain ⟨qr, y, hr, hy, hyv⟩ := exists_normalize h.right hleast.2.2
    obtain ⟨v, hv⟩ := Word.exists_word (h.fits _ (self_mem_parts _))
    obtain ⟨q, hq, hconstant⟩ := op.exists_normalForm (z := z) hx hy
      (fun hop => h.noRemainder l r (hop ▸ self_mem_parts _)) (fun hop => hyv ▸ h.divisor l r (hop ▸ self_mem_parts _))
      (fun hop hmin => hleast.1 ⟨hop, hyv ▸ hmin⟩) (by rw [hv, SymInt.eval, hxv, hyv])
    refine ⟨q, v, ?_, hconstant, hv⟩
    rw [normalize_binary, hl, hr]
    exact hq

theorem normalize_eq_none : ∀ {a : SymInt}, a.InRange z σ → a.SubtractsLeast z σ → p.normalize a = none
  | .lit v, _, ⟨_, _, hmem, _⟩ => by simp [parts] at hmem
  | .var v, h, _ => absurd (h.closed v) (by simp [mentions])
  | .binary op l r, h, hleast => by
    rw [normalize_binary]
    by_cases hl : l.SubtractsLeast z σ
    · rw [normalize_eq_none h.left hl]
      rfl
    · by_cases hr : r.SubtractsLeast z σ
      · rw [normalize_eq_none h.right hr]
        cases p.normalize l <;> rfl
      · obtain ⟨ql, x, hql, hx, hxv⟩ := exists_normalize (p := p) h.left hl
        obtain ⟨qr, y, hqr, hy, hyv⟩ := exists_normalize (p := p) h.right hr
        rw [subtractsLeast_binary_iff] at hleast
        obtain ⟨rfl, hmin⟩ := hleast.resolve_right (not_or.2 ⟨hl, hr⟩)
        have hfits : Word.Fits (x.toInt - y.toInt) := by
          rw [hxv, hyv]
          exact h.fits _ (self_mem_parts _)
        have hnone := mt (isSome_sub_of_constant hx hy hfits).1 (not_not.2 (hyv.trans hmin))
        rw [hql, hqr]
        exact Option.not_isSome_iff_eq_none.1 hnone

/-- **Constant folding is exact, and complete but for one subtrahend.**  A term without variables and remainders, all
of whose parts have words for exact values and none of whose divisors is zero, folds to its exact value, unless some
part of it subtracts the least word: then it does not fold at all. -/
theorem constValue?_eq_exact (p : Prover) (z : ZeroDivision) (σ : Nat → Int) {a : SymInt} (h : a.InRange z σ) :
    (¬a.SubtractsLeast z σ → ∃ v, p.constValue? a = some v ∧ v.toInt = a.eval z σ) ∧
      (a.SubtractsLeast z σ → p.constValue? a = none) := by
  constructor
  · intro hleast
    obtain ⟨q, v, hq, hconstant, hv⟩ := exists_normalize (p := p) h hleast
    refine ⟨v, ?_, hv⟩
    rw [constValue?, hq, Option.bind_some, hconstant.constant?_eq]
  · intro hleast
    rw [constValue?, normalize_eq_none h hleast, Option.bind_none]

/-- `min(max(-7 // 2, least + 1) * 3, 5)` less a word close to the greatest folds to the least word. -/
theorem constValue?_eq_exact_at_least :
    let z : ZeroDivision := ⟨id, id⟩
    let σ : Nat → Int := fun _ => 0
    let quotient := SymInt.binary .floorDiv (.lit (-7)) (.lit 2)
    let bounded := SymInt.binary .max quotient (.binary .add (.lit Int64.minValue) (.lit 1))
    let least := SymInt.binary .min (.binary .mul bounded (.lit 3)) (.lit 5)
    let large := SymInt.lit (Int64.maxValue - 11)
    let a := SymInt.binary .sub least large
    a.InRange z σ ∧ ¬a.SubtractsLeast z σ ∧ a.eval z σ = Int64.minValue.toInt ∧
      ∃ v, empty.constValue? a = some v ∧ v.toInt = a.eval z σ := by
  intro z σ quotient bounded least large a
  have ha : a.InRange z σ := {
    closed := fun _ => rfl
    noRemainder := fun l r h => by simp [a, least, large, bounded, quotient, parts] at h
    divisor := fun l r h => by
      have hparts : l = .lit (-7) ∧ r = .lit 2 := by
        simpa [a, least, large, bounded, quotient, parts] using h
      rw [hparts.2]
      decide
    fits := by decide }
  have hleast : ¬a.SubtractsLeast z σ := by
    rintro ⟨l, r, h, hr⟩
    have hparts : l = least ∧ r = large := by simpa [a, least, large, bounded, quotient, parts] using h
    rw [hparts.2] at hr
    exact absurd hr (by decide)
  exact ⟨ha, hleast, by decide, (constValue?_eq_exact empty z σ ha).1 hleast⟩

/-- `-1` less the least word is the greatest word, and does not fold to it. -/
theorem constValue?_ne_exact :
    let z : ZeroDivision := ⟨id, id⟩
    let σ : Nat → Int := fun _ => 0
    let a := SymInt.binary .sub (.lit (-1)) (.lit Int64.minValue)
    a.InRange z σ ∧ a.eval z σ = Int64.maxValue.toInt ∧ empty.constValue? a = none := by
  intro z σ a
  have ha : a.InRange z σ := {
    closed := fun _ => rfl
    noRemainder := fun l r h => by simp [a, parts] at h
    divisor := fun l r h => by simp [a, parts] at h
    fits := by decide }
  exact ⟨ha, by decide, by cbv⟩

end Prover
end Dataflow
