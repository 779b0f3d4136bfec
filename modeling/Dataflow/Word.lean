/-!
# Machine words with exact results

Coefficients and literals are signed 64-bit words, lane counts and dimensions unsigned ones.  An operation
here answers only when the exact integer result is itself a word, so each has one law: the answer, if there is
one, has the value of the exact result (`ofInt?_eq_some_iff`, `ofNat?_eq_some_iff`).  A quotient is rounded towards zero
first and corrected then, with the same law (`floorDiv?_eq`).
-/
namespace Dataflow.Word

/-! ## Signed words -/

/-- The signed word with value `x`. -/
def ofInt? (x : Int) : Option Int64 :=
  if Int64.minValue.toInt ≤ x ∧ x ≤ Int64.maxValue.toInt then some (Int64.ofInt x) else none

def add? (a b : Int64) : Option Int64 := ofInt? (a.toInt + b.toInt)

def sub? (a b : Int64) : Option Int64 := ofInt? (a.toInt - b.toInt)

def neg? (a : Int64) : Option Int64 := ofInt? (-a.toInt)

def mul? (a b : Int64) : Option Int64 := ofInt? (a.toInt * b.toInt)

/-- The quotient rounded towards zero; there is none by zero. -/
def div? (a b : Int64) : Option Int64 :=
  if b = 0 then none else ofInt? (a.toInt.tdiv b.toInt)

/-- The quotient rounded towards minus infinity: the one rounded towards zero, or one less if that leaves a remainder
and the signs differ. -/
def floorDiv? (a b : Int64) : Option Int64 := do
  let q ← div? a b
  if a % b ≠ 0 ∧ ¬(a < 0 ↔ b < 0) then sub? q 1 else return q

/-- What the rounded quotient times the divisor leaves of `a`.  The product has to be a word too, so close to
the ends of the range there can be no answer although the remainder itself would fit. -/
def floorMod? (a b : Int64) : Option Int64 := do
  sub? a (← mul? (← floorDiv? a b) b)

theorem ofInt?_eq_some_iff {x : Int} {w : Int64} : ofInt? x = some w ↔ w.toInt = x := by
  unfold ofInt?
  constructor
  · intro h
    split at h
    · rename_i hx
      cases h
      rw [Int64.toInt_minValue, Int64.toInt_maxValue] at hx
      exact Int64.toInt_ofInt_of_le hx.1 (by omega)
    · cases h
  · rintro rfl
    rw [if_pos ⟨Int64.minValue_le_toInt w, Int64.toInt_le w⟩, Int64.ofInt_toInt]

theorem ofInt?_eq_none_iff {x : Int} :
    ofInt? x = none ↔ x < Int64.minValue.toInt ∨ Int64.maxValue.toInt < x := by
  unfold ofInt?
  split <;> simp only [reduceCtorEq, true_iff, false_iff] <;> omega

/-! ### Rounded quotients -/

theorem toInt_ne_zero {w : Int64} (h : w ≠ 0) : w.toInt ≠ 0 := fun hw => h (Int64.toInt_inj.1 hw)

theorem fdiv_eq_tdiv_sub {x y : Int} (hy : y ≠ 0) :
    x.fdiv y = x.tdiv y - if x.tmod y ≠ 0 ∧ ¬(x < 0 ↔ y < 0) then 1 else 0 := by
  have hsign : y.sign = if 0 ≤ y then 1 else -1 := by
    split
    · exact Int.sign_eq_one_of_pos (by omega)
    · exact Int.sign_eq_neg_one_of_neg (by omega)
  rw [Int.fdiv_eq_tdiv, hsign]
  simp only [Int.dvd_iff_tmod_eq_zero]
  grind

theorem tdiv_nonpos {x y : Int} (h : ¬(x < 0 ↔ y < 0)) : x.tdiv y ≤ 0 := by
  by_cases hx : x < 0
  · have hneg := Int.tdiv_nonneg (a := -x) (b := y) (by omega) (by omega)
    rw [Int.neg_tdiv] at hneg
    omega
  · exact Int.tdiv_nonpos_of_nonneg_of_nonpos (by omega) (by omega)

/-- Signs that differ give a quotient that is not positive, and so a word. -/
theorem exists_ofInt?_tdiv {a b : Int64} (h : ¬(a.toInt < 0 ↔ b.toInt < 0)) :
    ∃ q, ofInt? (a.toInt.tdiv b.toInt) = some q := by
  have hnonpos := tdiv_nonpos h
  have hle := Int.natAbs_tdiv_le_natAbs a.toInt b.toInt
  have hleast := Int64.minValue_le_toInt a
  have hgreatest := Int64.toInt_le a
  refine ⟨_, if_pos ?_⟩
  rw [Int64.toInt_minValue] at hleast ⊢
  rw [Int64.toInt_maxValue] at hgreatest ⊢
  omega

/-- The correction makes the quotient the one rounded towards minus infinity, and there is one exactly if that is a
word. -/
theorem floorDiv?_eq (a b : Int64) : floorDiv? a b = if b = 0 then none else ofInt? (a.toInt.fdiv b.toInt) := by
  by_cases hb : b = 0
  · simp [floorDiv?, div?, hb]
  have hrest : a % b ≠ 0 ∧ ¬(a < 0 ↔ b < 0) ↔ a.toInt.tmod b.toInt ≠ 0 ∧ ¬(a.toInt < 0 ↔ b.toInt < 0) := by
    rw [← Int64.toInt_mod, Int64.lt_iff_toInt_lt, Int64.lt_iff_toInt_lt, ne_eq, ← Int64.toInt_inj]
    rfl
  rw [if_neg hb, fdiv_eq_tdiv_sub (toInt_ne_zero hb), floorDiv?, div?, if_neg hb]
  simp only [hrest]
  split
  · rename_i h
    obtain ⟨q, hq⟩ := exists_ofInt?_tdiv h.2
    rw [hq, ← ofInt?_eq_some_iff.1 hq]
    rfl
  · rw [Int.sub_zero]
    cases ofInt? (a.toInt.tdiv b.toInt) <;> rfl

/-! ## Unsigned words -/

/-- The unsigned word with value `n`. -/
def ofNat? (n : Nat) : Option UInt64 :=
  if n < UInt64.size then some (UInt64.ofNat n) else none

theorem ofNat?_eq_some_iff {n : Nat} {w : UInt64} : ofNat? n = some w ↔ w.toNat = n := by
  unfold ofNat?
  constructor
  · intro h
    split at h
    · rename_i hn
      cases h
      exact UInt64.toNat_ofNat_of_lt hn
    · cases h
  · rintro rfl
    rw [if_pos w.toNat_lt, UInt64.ofNat_toNat]

theorem ofNat?_eq_none_iff {n : Nat} : ofNat? n = none ↔ UInt64.size ≤ n := by
  unfold ofNat?
  split <;> simp only [reduceCtorEq, true_iff, false_iff] <;> omega

def times? (a b : UInt64) : Option UInt64 := ofNat? (a.toNat * b.toNat)

/-- The product of a list, multiplied up from the left in a build with overflow checks: every partial product has to be a
word. -/
def product? (ws : List UInt64) : Option UInt64 := ws.foldlM times? 1

/-- What is said when a product of unsigned words is no word. -/
def overflowMessage : String := "attempt to multiply with overflow"

end Dataflow.Word
