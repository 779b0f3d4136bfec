import Dataflow.Proofs.SymInt.ConstantFolding
import Mathlib.Algebra.Order.Floor.Ring
import Mathlib.Data.Rat.Floor
/-!
# Quotients and remainders of words

The quotient of two words, rounded towards minus infinity, is a word, but for the least word divided by `-1`.  The
remainder lies between zero and the divisor, so it is a word in any case.  It is taken from the multiple of the divisor
that the quotient stands for, though, and this one may lie outside of the range of words: below it for a positive divisor
and a dividend close to the least word, above it for a negative divisor and a dividend close to the greatest.  There is
no remainder then, and only then (`rounded_division_exact`).  So the least word modulo `3` does not fold, although it is
`1` (`remainder_of_least_missing`).
-/
namespace Dataflow
namespace Word

/-! ## Rounded division of integers -/

section
variable {y : Int}

theorem fmod_between (x : Int) (hy : y ≠ 0) : 0 ≤ x.fmod y ∧ x.fmod y < y ∨ y < x.fmod y ∧ x.fmod y ≤ 0 := by
  rcases lt_or_gt_of_ne hy with hneg | hpos
  · have hnonneg := Int.fmod_nonneg_of_pos (-x) (b := -y) (by omega)
    have hlt := Int.fmod_lt_of_pos (-x) (b := -y) (by omega)
    rw [Int.neg_fmod_neg] at hnonneg hlt
    exact .inr ⟨by omega, by omega⟩
  · exact .inl ⟨Int.fmod_nonneg_of_pos x hpos, Int.fmod_lt_of_pos x hpos⟩

theorem fdiv_eq_floor (x : Int) (hy : y ≠ 0) : x.fdiv y = ⌊(x : ℚ) / y⌋ := by
  have hyq : (y : ℚ) ≠ 0 := Int.cast_ne_zero.2 hy
  have hsplit : (x : ℚ) / y = x.fdiv y + x.fmod y / y := by
    have hx : (x : ℚ) = y * x.fdiv y + x.fmod y := by exact_mod_cast (Int.mul_fdiv_add_fmod x y).symm
    rw [div_eq_iff hyq, add_mul, div_mul_cancel₀ _ hyq, mul_comm, ← hx]
  have hpart : (0 : ℚ) ≤ x.fmod y / y ∧ (x.fmod y : ℚ) / y < 1 := by
    rcases fmod_between x hy with ⟨hnonneg, hlt⟩ | ⟨hlt, hnonpos⟩
    · have hpos : (0 : ℚ) < y := by exact_mod_cast hnonneg.trans_lt hlt
      exact ⟨div_nonneg (by exact_mod_cast hnonneg) hpos.le, (div_lt_one hpos).2 (by exact_mod_cast hlt)⟩
    · have hneg : (y : ℚ) < 0 := by exact_mod_cast hlt.trans_le hnonpos
      exact ⟨div_nonneg_of_nonpos (by exact_mod_cast hnonpos) hneg.le,
        (div_lt_one_of_neg hneg).2 (by exact_mod_cast hlt)⟩
  refine (Int.floor_eq_iff.2 ?_).symm
  rw [hsplit]
  exact ⟨le_add_of_nonneg_right hpart.1, (add_lt_add_iff_left _).2 hpart.2⟩

end

/-! ## Rounded division of words -/

variable {a b q : Int64}

theorem fits_fmod (a : Int64) (hb : b ≠ 0) : Fits (a.toInt.fmod b.toInt) := by
  have hfits := fits_toInt b
  unfold Fits at *
  rw [Int64.toInt_minValue, Int64.toInt_maxValue] at *
  rcases fmod_between a.toInt (toInt_ne_zero hb) with h | h <;> omega

theorem fits_fdiv (hb : b ≠ 0) (hab : ¬(a = Int64.minValue ∧ b = -1)) : Fits (a.toInt.fdiv b.toInt) := by
  have hfits := fits_toInt a
  have hle := Int.natAbs_fdiv_le_natAbs a.toInt b.toInt
  have hdivides := Int.mul_fdiv_add_fmod a.toInt b.toInt
  have hbetween := fmod_between a.toInt (toInt_ne_zero hb)
  have hone : (-1 : Int64).toInt = -1 := rfl
  rw [← Int64.toInt_inj, ← Int64.toInt_inj, Int64.toInt_minValue, hone] at hab
  unfold Fits at *
  rw [Int64.toInt_minValue, Int64.toInt_maxValue] at *
  -- A quotient that does not fit is as large as a dividend can be, and that one only divided by `-1`.
  by_contra hout
  have hgreat : a.toInt.fdiv b.toInt = 2 ^ 63 := by omega
  rw [hgreat] at hdivides
  omega

theorem exists_floorDiv? (hb : b ≠ 0) (hab : ¬(a = Int64.minValue ∧ b = -1)) :
    ∃ q, floorDiv? a b = some q ∧ q.toInt = a.toInt.fdiv b.toInt := by
  obtain ⟨q, hq⟩ := exists_word (fits_fdiv hb hab)
  refine ⟨q, ?_, hq⟩
  rw [floorDiv?_eq, if_neg hb, ← hq, ofInt?_toInt]

/-- What is left of `a` is found by way of a multiple of `b`, if that is a word. -/
theorem floorMod?_eq (hq : floorDiv? a b = some q) : floorMod? a b =
    if Fits (b.toInt * q.toInt) then ofInt? (a.toInt.fmod b.toInt) else none := by
  rw [floorMod?, hq, Option.bind_eq_bind, Option.bind_some, mul?, mul_comm]
  split
  · obtain ⟨w, hw⟩ := exists_word ‹_›
    rw [← hw, ofInt?_toInt, Option.bind_some, sub?, hw, toInt_floorDiv? hq, Int.fmod_def]
  · rw [ofInt?_eq_none ‹_›]
    rfl

end Word

namespace Prover

open Word (Fits)

variable {p : Prover} {l r : SymInt} {a b : Int64}

/-- An operator that answers with a word for words, or gives up. -/
theorem constValue?_binary {op : IntOp} {answer : Option Int64} (hl : p.constValue? l = some a)
    (hr : p.constValue? r = some b)
    (hop : ∀ f g : Polynomial, f.constant? = some a → g.constant? = some b →
      op.normalForm f g = answer.map Polynomial.constant) :
    p.constValue? (.binary op l r) = answer := by
  obtain ⟨f, hf, hfa⟩ := Option.bind_eq_some_iff.1 hl
  obtain ⟨g, hg, hgb⟩ := Option.bind_eq_some_iff.1 hr
  rw [constValue?, normalize_binary, hf, hg, Option.bind_eq_bind, Option.bind_some, Option.bind_some, hop f g hfa hgb]
  cases answer with
  | none => rfl
  | some w => exact Polynomial.constant?_constant w

theorem constValue?_floorDiv (hl : p.constValue? l = some a) (hr : p.constValue? r = some b) (hb : b ≠ 0) :
    p.constValue? (.binary .floorDiv l r) = Word.floorDiv? a b :=
  constValue?_binary hl hr fun f g hf hg => by simp only [IntOp.normalForm, hf, hg, if_pos hb]

theorem constValue?_floorMod (hl : p.constValue? l = some a) (hr : p.constValue? r = some b) (hb : b ≠ 0) :
    p.constValue? (.binary .floorMod l r) = Word.floorMod? a b :=
  constValue?_binary hl hr fun f g hf hg => by simp only [IntOp.normalForm, hf, hg, if_pos hb]

/-- **Rounded division is exact.**  For terms that fold to words, the divisor not zero and not the least word by `-1`,
the rounded quotient is a word, and the term for it folds to it.  The remainder is a word between zero and the divisor;
the term for it folds to it if the multiple of the divisor that it is taken from is a word, and does not fold
otherwise. -/
theorem rounded_division_exact (p : Prover) {l r : SymInt} {a b : Int64} (hl : p.constValue? l = some a)
    (hr : p.constValue? r = some b) (hb : b ≠ 0) (hab : ¬(a = Int64.minValue ∧ b = -1)) :
    ∃ quotient remainder : Int64,
      quotient.toInt = ⌊(a.toInt : ℚ) / b.toInt⌋ ∧
      remainder.toInt = a.toInt - b.toInt * ⌊(a.toInt : ℚ) / b.toInt⌋ ∧
      (0 ≤ remainder.toInt ∧ remainder.toInt < b.toInt ∨ b.toInt < remainder.toInt ∧ remainder.toInt ≤ 0) ∧
      Word.floorDiv? a b = some quotient ∧
      p.constValue? (.binary .floorDiv l r) = some quotient ∧
      Word.floorMod? a b = (if Fits (b.toInt * quotient.toInt) then some remainder else none) ∧
      p.constValue? (.binary .floorMod l r) = (if Fits (b.toInt * quotient.toInt) then some remainder else none) := by
  have hy := Word.toInt_ne_zero hb
  obtain ⟨q, hq, hqv⟩ := Word.exists_floorDiv? hb hab
  obtain ⟨m, hm⟩ := Word.exists_word (Word.fits_fmod a hb)
  have hmod : Word.floorMod? a b = if Fits (b.toInt * q.toInt) then some m else none := by
    rw [Word.floorMod?_eq hq, ← hm, Word.ofInt?_toInt]
  refine ⟨q, m, ?_, ?_, ?_, hq, ?_, hmod, ?_⟩
  · rw [hqv, Word.fdiv_eq_floor _ hy]
  · rw [hm, Int.fmod_def, Word.fdiv_eq_floor _ hy]
  · rw [hm]
    exact Word.fmod_between a.toInt hy
  · rw [constValue?_floorDiv hl hr hb, hq]
  · rw [constValue?_floorMod hl hr hb, hmod]

/-- The least word and four more, divided by `-3`. -/
theorem rounded_division_exact_near_least :
    let a := Int64.minValue + 4
    let l := SymInt.binary .add (.lit Int64.minValue) (.lit 4)
    let r := SymInt.lit (-3)
    empty.constValue? l = some a ∧ empty.constValue? r = some (-3) ∧ ∃ quotient remainder : Int64,
      quotient.toInt = ⌊(a.toInt : ℚ) / (-3 : Int64).toInt⌋ ∧ remainder.toInt = -1 ∧
      empty.constValue? (.binary .floorDiv l r) = some quotient ∧
      empty.constValue? (.binary .floorMod l r) = some remainder := by
  intro a l r
  have hl : empty.constValue? l = some a := by cbv
  have hr : empty.constValue? r = some (-3) := by cbv
  obtain ⟨q, m, hq, hm, -, hquotient, hfoldDiv, -, hfoldMod⟩ :=
    rounded_division_exact empty hl hr (by decide) (by decide)
  have hvalue : Word.floorDiv? a (-3) = some 3074457345618258601 := by decide
  obtain rfl := Option.some.inj (hvalue.symm.trans hquotient)
  refine ⟨hl, hr, _, m, hq, ?_, hfoldDiv, ?_⟩
  · rw [hm, ← hq]
    decide
  · rw [hfoldMod, if_pos (by decide)]

/-- The least word is `1` and a multiple of `3`, but that multiple is no word. -/
theorem remainder_of_least_missing :
    Int64.minValue.toInt - 3 * ⌊(Int64.minValue.toInt : ℚ) / (3 : ℤ)⌋ = 1 ∧
      (∃ q, Word.floorDiv? Int64.minValue 3 = some q) ∧ Word.floorMod? Int64.minValue 3 = none ∧
      empty.constValue? (.binary .floorMod (.lit Int64.minValue) (.lit 3)) = none := by
  refine ⟨?_, ⟨-3074457345618258603, by decide⟩, by decide, by cbv⟩
  rw [← Word.fdiv_eq_floor _ (by decide)]
  decide

end Prover
end Dataflow
