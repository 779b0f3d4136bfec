import Dataflow.Proofs.Builder.Workshop
import Mathlib.Algebra.BigOperators.Ring.List
import Mathlib.Algebra.Ring.Nat
import Mathlib.Data.List.TakeWhile
/-!
# Which constants can be built

Whether a constant has as many elements as its dimensions say is found out by multiplying the dimensions up from the
left.  In a build with overflow checks, which is what is described here, every product on the way has to be a word.  A
zero ends this, because all later products are zero.  So what counts is the product of the dimensions before the first
zero (`product?_eq_none_iff`): if it is a word the check is exact, and otherwise there is no answer, also where a later
zero makes the whole product zero.
-/
namespace Dataflow

namespace Word

/-- The words before the first zero. -/
def beforeZero (ws : List UInt64) : List UInt64 := ws.takeWhile (· ≠ 0)

theorem beforeZero_cons_of_ne {w : UInt64} (hw : w ≠ 0) (ws : List UInt64) :
    beforeZero (w :: ws) = w :: beforeZero ws :=
  List.takeWhile_cons_of_pos (by simpa using hw)

theorem prod_beforeZero_pos (ws : List UInt64) : 0 < ((beforeZero ws).map UInt64.toNat).prod := by
  have hmem : 0 ∉ (beforeZero ws).map UInt64.toNat := by
    intro h
    obtain ⟨w, hw, hzero⟩ := List.mem_map.1 h
    have hne : w ≠ 0 := by simpa using List.mem_takeWhile_imp hw
    exact hne (UInt64.toNat_inj.1 hzero)
  exact Nat.pos_of_ne_zero (List.prod_ne_zero hmem)

/-- From zero on every product is zero. -/
theorem foldlM_times?_zero : ∀ ws : List UInt64, ws.foldlM times? 0 = some 0
  | [] => rfl
  | w :: ws => by
    have hzero : times? 0 w = some 0 := ofNat?_eq_some_iff.2 (Nat.zero_mul _).symm
    rw [List.foldlM_cons, hzero]
    exact foldlM_times?_zero ws

theorem foldlM_times?_eq_none_iff : ∀ (ws : List UInt64) {a : UInt64}, a ≠ 0 →
    (ws.foldlM times? a = none ↔ UInt64.size ≤ a.toNat * ((beforeZero ws).map UInt64.toNat).prod)
  | [], a, _ => by
    have hlt : a.toNat < UInt64.size := a.toNat_lt
    refine iff_of_false (by rintro ⟨⟩) ?_
    simpa [beforeZero] using hlt
  | w :: ws, a, ha => by
    have hpos := prod_beforeZero_pos ws
    rw [List.foldlM_cons]
    by_cases hw : w = 0
    · have hlt : a.toNat < UInt64.size := a.toNat_lt
      have hzero : times? a w = some 0 := ofNat?_eq_some_iff.2 (by rw [hw]; exact (Nat.mul_zero _).symm)
      rw [hzero]
      refine iff_of_false (fun h => ?_) ?_
      · cases (foldlM_times?_zero ws).symm.trans h
      · simpa [beforeZero, hw] using hlt
    · rw [beforeZero_cons_of_ne hw, List.map_cons, List.prod_cons, ← Nat.mul_assoc]
      cases hb : times? a w with
      | some b =>
        have hval := ofNat?_eq_some_iff.1 hb
        have hne : b ≠ 0 := by
          rintro rfl
          rcases Nat.mul_eq_zero.1 hval.symm with h | h
          · exact ha (UInt64.toNat_inj.1 h)
          · exact hw (UInt64.toNat_inj.1 h)
        rw [← hval]
        exact foldlM_times?_eq_none_iff ws hne
      | none =>
        exact iff_of_true rfl (Nat.le_trans (ofNat?_eq_none_iff.1 hb) (Nat.le_mul_of_pos_right _ hpos))

/-- **There is no product exactly if the words before the first zero have none.** -/
theorem product?_eq_none_iff (ws : List UInt64) :
    product? ws = none ↔ UInt64.size ≤ ((beforeZero ws).map UInt64.toNat).prod := by
  rw [product?, foldlM_times?_eq_none_iff ws (by decide), UInt64.toNat_one, Nat.one_mul]

end Word

namespace Build

variable {b : Builder} {dtype : DType} {dims : List UInt64} {data : List Element}

theorem constant_of_product?_eq_none (h : Word.product? dims = none) :
    constant dtype dims data b = .error .elementCountOverflow := by
  simp only [constant, h]
  rfl

theorem constant_of_product? {expected : UInt64} (h : Word.product? dims = some expected) :
    constant dtype dims data b =
      if data.length = expected.toNat then
        .ok (.constant ⟨b.nextNode, none, none⟩ ⟨dtype, dims, data⟩, { b with nextNode := b.nextNode + 1 })
      else .error (.elementCount dims expected data.length) := by
  simp only [constant, h]
  split <;> rfl

/-- **What building a constant gives.**  If the dimensions before the first zero have a product that is a word, the
check is exact: with as many elements as the exact product of all dimensions the constant is built, and with any other
number it is refused.  Otherwise building fails without an answer.  Only what is built adds to the workshop. -/
theorem constant_checks_exactly (s : Workshop) (dtype : DType) (dims : List UInt64) (data : List Element) :
    let count := (dims.map UInt64.toNat).prod
    let e := Expr.constant ⟨s.builder.nextNode, none, none⟩ ⟨dtype, dims, data⟩
    let b := { s.builder with nextNode := s.builder.nextNode + 1 }
    let m := constant dtype dims data
    let after := s.attempt m fun e => [e]
    if UInt64.size ≤ ((Word.beforeZero dims).map UInt64.toNat).prod then
      m s.builder = .error .elementCountOverflow ∧ after = s
    else if data.length = count then
      m s.builder = .ok (e, b) ∧ after = ⟨b, e :: s.built⟩
    else
      ∃ expected, expected.toNat = count ∧ m s.builder = .error (.elementCount dims expected data.length) ∧
        after = s := by
  intro count e b m after
  have hnone := Word.product?_eq_none_iff dims
  cases hproduct : Word.product? dims with
  | none =>
    have hm : m s.builder = .error .elementCountOverflow := constant_of_product?_eq_none hproduct
    rw [if_pos (hnone.1 hproduct)]
    exact ⟨hm, Workshop.attempt_of_error hm⟩
  | some expected =>
    have hcount : expected.toNat = count := Word.toNat_of_product? hproduct
    have hm : m s.builder =
        if data.length = expected.toNat then .ok (e, b) else .error (.elementCount dims expected data.length) :=
      constant_of_product? hproduct
    rw [hcount] at hm
    rw [if_neg (mt hnone.2 (by simp [hproduct]))]
    by_cases hlength : data.length = count
    · rw [if_pos hlength] at hm ⊢
      exact ⟨hm, Workshop.attempt_of_ok hm⟩
    · rw [if_neg hlength] at hm ⊢
      exact ⟨expected, hcount, hm, Workshop.attempt_of_error hm⟩

/-- With dimensions `2^32`, `2^32` and `0` a constant needs no elements, and without any it is not built. -/
theorem constant_fails_before_zero :
    let dims : List UInt64 := [4294967296, 4294967296, 0]
    let data : List Element := []
    data.length = (dims.map UInt64.toNat).prod ∧
      constant (.scalar .int32) dims data .initial = .error .elementCountOverflow := by
  intro dims data
  exact ⟨by decide, rfl⟩

end Build
end Dataflow
