import Dataflow.DType.Name
import Mathlib.Data.Nat.Digits.Defs
import Mathlib.Tactic.Common
/-!
# The grammar of element type names

A text names an element type if it is the name of a scalar, or the name of a scalar, an `x` and decimal digits that
denote a word of two or more (`Spells`).  Reading accepts these texts and no others.  Of the others, a text that has
digits for none or one lane behind its last `x`, and anything before it, is refused for its lane count; the rest is
unknown (`parse_decides_grammar`).

No scalar's name has an `x` and no digit is one, so there is one place where a text can be split.
-/
namespace Dataflow

namespace ScalarType

theorem x_notMem_name (t : ScalarType) : 'x' ∉ t.name.toList := by
  cases t <;> decide +kernel

theorem name_ne_empty (t : ScalarType) : t.name ≠ "" := by
  cases t <;> decide +kernel

theorem ofName?_eq_some_iff {s : String} {t : ScalarType} : ofName? s = some t ↔ s = t.name :=
  ⟨fun h => (name_of_ofName? h).symm, fun h => by rw [h, ofName?_name]⟩

end ScalarType

namespace DType

variable {s base : String} {n : UInt64}

/-! ## What is read -/

/-- The number that decimal digits denote; the last one counts the ones. -/
def decimalValue (digits : List Char) : Nat :=
  Nat.ofDigits 10 (digits.reverse.map fun d => d.toNat - '0'.toNat)

/-- A base, an `x` and one or more decimal digits of value `n`. -/
def Claims (s base : String) (n : Nat) : Prop :=
  ∃ digits : String, digits ≠ "" ∧ (∀ d ∈ digits.toList, d.isDigit = true) ∧ s = base ++ "x" ++ digits ∧
    decimalValue digits.toList = n

/-- The texts that name an element type. -/
inductive Spells : String → DType → Prop
  | scalar (t : ScalarType) : Spells t.name (scalar t)
  | vector {s : String} {t : ScalarType} {n : UInt64} : Claims s t.name n.toNat → 2 ≤ n.toNat → Spells s (vector t n)

/-- A lane count of less than two behind some base, whether the base is a scalar or not. -/
def ClaimsFew (s : String) (n : UInt64) : Prop := n.toNat < 2 ∧ ∃ base, base ≠ "" ∧ Claims s base n.toNat

/-! ## Splitting at the last occurrence -/

theorem splitLast?_eq_none_iff {c : Char} : ∀ {s : List Char}, splitLast? c s = none ↔ c ∉ s
  | [] => by simp [splitLast?]
  | a :: s => by
    have ih := splitLast?_eq_none_iff (c := c) (s := s)
    unfold splitLast?
    cases h : splitLast? c s with
    | some parts => simp_all
    | none =>
      by_cases hac : a = c
      · simp [hac]
      · simp [hac, ih.1 h, Ne.symm hac]

theorem splitLast?_append {c : Char} {after : List Char} (h : c ∉ after) :
    ∀ before : List Char, splitLast? c (before ++ c :: after) = some (before, after)
  | [] => by
    rw [List.nil_append, splitLast?, splitLast?_eq_none_iff.2 h]
    simp
  | a :: before => by rw [List.cons_append, splitLast?, splitLast?_append h before]

theorem eq_of_splitLast? {c : Char} : ∀ {s before after : List Char}, splitLast? c s = some (before, after) →
    s = before ++ c :: after
  | [], _, _, h => by cases h
  | a :: s, before, after, h => by
    unfold splitLast? at h
    split at h
    · rename_i before' after' hs
      cases h
      rw [eq_of_splitLast? hs, List.cons_append]
    · split at h
      · rename_i hac
        cases h
        rw [hac, List.nil_append]
      · cases h

/-! ## Digits -/

theorem x_notMem_digits {digits : List Char} (h : ∀ d ∈ digits, d.isDigit = true) : 'x' ∉ digits :=
  fun hx => absurd (h _ hx) (by decide)

theorem foldl_eq_decimalValue (digits : List Char) :
    digits.foldl (fun n d => 10 * n + (d.toNat - '0'.toNat)) 0 = decimalValue digits := by
  rw [decimalValue, ← List.foldr_reverse]
  generalize digits.reverse = ds
  induction ds with
  | nil => rfl
  | cons d ds ih => rw [List.foldr_cons, List.map_cons, Nat.ofDigits_cons, ih, add_comm]

theorem decimal?_eq_some_iff {digits : List Char} :
    decimal? digits = some n ↔ digits ≠ [] ∧ decimalValue digits = n.toNat := by
  unfold decimal?
  by_cases h : digits = []
  · simp [h]
  · rw [if_neg (by simpa using h), Word.ofNat?_eq_some_iff, foldl_eq_decimalValue]
    exact ⟨fun hn => ⟨h, hn.symm⟩, fun hn => hn.2.symm⟩

/-! ## The grammar in terms of the split -/

theorem claimedLanes?_eq_some_iff {digits : List Char} :
    claimedLanes? s = some (base, digits) ↔
      base ≠ "" ∧ (∀ d ∈ digits, d.isDigit = true) ∧ s = base ++ "x" ++ String.ofList digits := by
  have happend : ∀ before after : List Char, s = String.ofList before ++ "x" ++ String.ofList after ↔
      s.toList = before ++ 'x' :: after := fun before after => by
    rw [← String.toList_inj]
    simp [List.append_assoc]
  unfold claimedLanes?
  constructor
  · intro h
    split at h
    · rename_i before after hsplit
      split at h
      · rename_i hgood
        cases h
        rw [happend]
        simp only [Bool.and_eq_true, Bool.not_eq_true', List.all_eq_true] at hgood
        refine ⟨fun he => ?_, hgood.2, eq_of_splitLast? hsplit⟩
        have : before = [] := by simpa using congrArg String.toList he
        rw [this] at hgood
        exact absurd hgood.1 (by decide)
      · cases h
    · cases h
  · rintro ⟨hbase, hdigits, hs⟩
    have hlist : s.toList = base.toList ++ 'x' :: digits := by
      rw [← happend, String.ofList_toList]
      exact hs
    have hne : base.toList.isEmpty = false := by
      rw [List.isEmpty_eq_false_iff]
      exact fun h => hbase (by rw [← String.toList_inj, h]; rfl)
    have hall : digits.all Char.isDigit = true := List.all_eq_true.2 hdigits
    rw [hlist, splitLast?_append (x_notMem_digits hdigits)]
    simp [hne, hall]

theorem claims_iff (hbase : base ≠ "") :
    Claims s base n.toNat ↔ ∃ digits, claimedLanes? s = some (base, digits) ∧ decimal? digits = some n := by
  constructor
  · rintro ⟨digits, hne, hdigits, hs, hn⟩
    refine ⟨digits.toList, claimedLanes?_eq_some_iff.2 ⟨hbase, hdigits, ?_⟩, decimal?_eq_some_iff.2 ⟨?_, hn⟩⟩
    · rw [String.ofList_toList, hs]
    · exact fun h => hne (by rw [← String.toList_inj, h]; rfl)
  · rintro ⟨digits, hclaimed, hn⟩
    obtain ⟨-, hdigits, hs⟩ := claimedLanes?_eq_some_iff.1 hclaimed
    obtain ⟨hne, hvalue⟩ := decimal?_eq_some_iff.1 hn
    refine ⟨String.ofList digits, fun h => hne ?_, ?_, hs, ?_⟩
    · simpa using congrArg String.toList h
    · rwa [String.toList_ofList]
    · rwa [String.toList_ofList]

theorem claimedLanes?_name (t : ScalarType) : claimedLanes? t.name = none := by
  rw [claimedLanes?, splitLast?_eq_none_iff.2 t.x_notMem_name]

/-! ## Reading -/

theorem parse_of_unclaimed (h : claimedLanes? s = none) :
    parse s = match ScalarType.ofName? s with
      | some t => .ok (scalar t)
      | none => .error (.unknown s) := by
  unfold parse
  rw [h]
  cases ScalarType.ofName? s <;> rfl

theorem parse_of_claimed {digits : List Char} (h : claimedLanes? s = some (base, digits)) :
    parse s = match decimal? digits with
      | none => .error (.unknown s)
      | some n =>
        if n.toNat < 2 then .error (.laneCount s n)
        else match ScalarType.ofName? base with
          | some t => .ok (vector t n)
          | none => .error (.unknown s) := by
  unfold parse
  rw [h]
  cases hdecimal : decimal? digits with
  | none => simp [hdecimal]
  | some n =>
    have hfew : n ≤ 1 ↔ n.toNat < 2 := by rw [UInt64.le_iff_toNat_le]; exact Nat.lt_succ_iff.symm
    simp only [hdecimal, hfew]
    cases ScalarType.ofName? base <;> rfl

theorem parse_of_spells {d : DType} (h : Spells s d) : parse s = .ok d := by
  cases h with
  | scalar t => rw [parse_of_unclaimed (claimedLanes?_name t), ScalarType.ofName?_name]
  | @vector _ t n hclaims hn =>
    obtain ⟨digits, hclaimed, hdecimal⟩ := (claims_iff t.name_ne_empty).1 hclaims
    simp only [parse_of_claimed hclaimed, hdecimal, Nat.not_lt.2 hn, ScalarType.ofName?_name, if_false]

theorem parse_of_claimsFew (h : ClaimsFew s n) : parse s = .error (.laneCount s n) := by
  obtain ⟨hn, base, hbase, hclaims⟩ := h
  obtain ⟨digits, hclaimed, hdecimal⟩ := (claims_iff hbase).1 hclaims
  simp only [parse_of_claimed hclaimed, hdecimal, hn, if_true]

/-- A text that is not unknown is in the grammar, or it claims too few lanes. -/
theorem parse_cases (s : String) :
    (∃ d, Spells s d) ∨ (∃ n, ClaimsFew s n) ∨ parse s = .error (.unknown s) := by
  cases hclaimed : claimedLanes? s with
  | none =>
    cases ht : ScalarType.ofName? s with
    | none => exact .inr (.inr (by rw [parse_of_unclaimed hclaimed, ht]))
    | some t => exact .inl ⟨scalar t, ScalarType.ofName?_eq_some_iff.1 ht ▸ .scalar t⟩
  | some claim =>
    obtain ⟨base, digits⟩ := claim
    cases hdecimal : decimal? digits with
    | none => exact .inr (.inr (by rw [parse_of_claimed hclaimed, hdecimal]))
    | some n =>
      have hbase := (claimedLanes?_eq_some_iff.1 hclaimed).1
      have hclaims : Claims s base n.toNat := (claims_iff hbase).2 ⟨digits, hclaimed, hdecimal⟩
      by_cases hn : n.toNat < 2
      · exact .inr (.inl ⟨n, hn, base, hbase, hclaims⟩)
      · cases ht : ScalarType.ofName? base with
        | none => exact .inr (.inr (by simp only [parse_of_claimed hclaimed, hdecimal, hn, ht, if_false]))
        | some t =>
          rw [ScalarType.ofName?_eq_some_iff.1 ht] at hclaims
          exact .inl ⟨vector t n, .vector hclaims (Nat.not_lt.1 hn)⟩

theorem parse_eq_ok_iff {d : DType} : parse s = .ok d ↔ Spells s d := by
  refine ⟨fun h => ?_, parse_of_spells⟩
  rcases parse_cases s with ⟨d', hd⟩ | ⟨n, hn⟩ | hs
  · rw [parse_of_spells hd] at h
    cases h
    exact hd
  · rw [parse_of_claimsFew hn] at h
    cases h
  · rw [hs] at h
    cases h

theorem parse_eq_laneCount_iff {t : String} : parse s = .error (.laneCount t n) ↔ t = s ∧ ClaimsFew s n := by
  refine ⟨fun h => ?_, fun h => by rw [h.1, parse_of_claimsFew h.2]⟩
  rcases parse_cases s with ⟨d, hd⟩ | ⟨m, hm⟩ | hs
  · rw [parse_of_spells hd] at h
    cases h
  · rw [parse_of_claimsFew hm] at h
    cases h
    exact ⟨rfl, hm⟩
  · rw [hs] at h
    cases h

theorem parse_eq_unknown_iff {t : String} :
    parse s = .error (.unknown t) ↔ t = s ∧ (∀ d, ¬Spells s d) ∧ ∀ n, ¬ClaimsFew s n := by
  constructor
  · intro h
    have hspells : ∀ d, ¬Spells s d := fun d hd => by rw [parse_of_spells hd] at h; cases h
    have hfew : ∀ n, ¬ClaimsFew s n := fun n hn => by rw [parse_of_claimsFew hn] at h; cases h
    rcases parse_cases s with ⟨d, hd⟩ | ⟨n, hn⟩ | hs
    · exact absurd hd (hspells d)
    · exact absurd hn (hfew n)
    · rw [hs] at h
      cases h
      exact ⟨rfl, hspells, hfew⟩
  · rintro ⟨rfl, hspells, hfew⟩
    rcases parse_cases t with ⟨d, hd⟩ | ⟨n, hn⟩ | hs
    · exact absurd hd (hspells d)
    · exact absurd hn (hfew n)
    · exact hs

/-- **Reading accepts exactly the grammar.**  A text is read as an element type exactly if it spells it.  The error of
a lane count is given exactly for the texts that claim none or one, with that count, and every other text is unknown;
both errors carry the text. -/
theorem parse_decides_grammar (s : String) :
    (∀ d, parse s = .ok d ↔ Spells s d) ∧
      (∀ t n, parse s = .error (.laneCount t n) ↔ t = s ∧ ClaimsFew s n) ∧
      ∀ t, parse s = .error (.unknown t) ↔ t = s ∧ (∀ d, ¬Spells s d) ∧ ∀ n, ¬ClaimsFew s n :=
  ⟨fun _ => parse_eq_ok_iff, fun _ _ => parse_eq_laneCount_iff, fun _ => parse_eq_unknown_iff⟩

/-- Leading zeros count for nothing, and a name with no digits after its `x` is unknown. -/
example : parse "int8x04" = .ok (vector .int8 4) ∧ parse "int8x" = .error (.unknown "int8x") := by
  decide +kernel

end DType
end Dataflow
