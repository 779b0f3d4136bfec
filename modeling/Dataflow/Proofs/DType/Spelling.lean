import Dataflow.Match.Attribute
import Dataflow.Proofs.DType.Grammar
/-!
# The name of an element type and its other spellings

An element type that is written and read again is the same type, unless it is a vector of no lanes: those can be built
and are refused when their names are read (`parse_name_of_counts`).  The other way round a text that is read need not be
the name of what it is read as, because a lane count may begin with zeros, which a name never has.  The spellings of an
element type are its name with any number of zeros there (`spells_iff_exists_spelling`), and only the one without is
taken for equal to the type as an attribute (`spellings_of_parse`).
-/
namespace Dataflow
namespace DType

variable {s : String} {d e : DType} {n : UInt64} {digits : List Char}

/-! ## Numerals -/

theorem decimalValue_eq_ofDigitChars (digits : List Char) : decimalValue digits = Nat.ofDigitChars 10 digits 0 := by
  rw [← foldl_eq_decimalValue, Nat.ofDigitChars_eq_foldl]

theorem digitChar_of_isDigit {c : Char} (h : c.isDigit = true) :
    c.toNat - '0'.toNat < 10 ∧ Nat.digitChar (c.toNat - '0'.toNat) = c := by
  have hc : 48 ≤ c.toNat ∧ c.toNat ≤ 57 := by simpa [Char.isDigit, UInt32.le_iff_toNat_le] using h
  have hzero : '0'.toNat = 48 := rfl
  refine ⟨by omega, Char.toNat_inj.1 ?_⟩
  rw [Nat.toNat_digitChar_of_lt_ten (by omega)]
  omega

/-- Digits behind the numeral of a positive number make the numeral of another. -/
theorem toDigits_append_digits : ∀ {digits : List Char} {n : Nat}, (∀ d ∈ digits, d.isDigit = true) → 0 < n →
    Nat.toDigits 10 n ++ digits = Nat.toDigits 10 (Nat.ofDigitChars 10 digits n)
  | [], n, _, _ => by rw [List.append_nil, Nat.ofDigitChars_nil]
  | c :: digits, n, hdigits, hn => by
    obtain ⟨hc, hrest⟩ := List.forall_mem_cons.1 hdigits
    obtain ⟨hlt, hchar⟩ := digitChar_of_isDigit hc
    have hstep : Nat.toDigits 10 n ++ [c] = Nat.toDigits 10 (10 * n + (c.toNat - '0'.toNat)) := by
      rw [← Nat.toDigits_append_toDigits (by decide) hn hlt, Nat.toDigits_of_lt_base hlt, hchar]
    rw [List.append_cons, hstep, toDigits_append_digits hrest (by omega), Nat.ofDigitChars_cons]

/-- Decimal digits are the numeral of their value behind some zeros. -/
theorem exists_zeros : ∀ {digits : List Char}, digits ≠ [] → (∀ d ∈ digits, d.isDigit = true) →
    ∃ k, digits = List.replicate k '0' ++ Nat.toDigits 10 (decimalValue digits)
  | [], hne, _ => absurd rfl hne
  | c :: digits, _, hdigits => by
    obtain ⟨hc, hrest⟩ := List.forall_mem_cons.1 hdigits
    rw [decimalValue_eq_ofDigitChars, Nat.ofDigitChars_cons, Nat.mul_zero, Nat.zero_add]
    by_cases hzero : c = '0'
    · subst hzero
      by_cases hnil : digits = []
      · exact ⟨0, by rw [hnil]; rfl⟩
      · obtain ⟨k, hk⟩ := exists_zeros hnil hrest
        refine ⟨k + 1, ?_⟩
        rw [List.replicate_succ, List.cons_append, Nat.sub_self, ← decimalValue_eq_ofDigitChars, ← hk]
    · obtain ⟨hlt, hchar⟩ := digitChar_of_isDigit hc
      have hpos : 0 < c.toNat - '0'.toNat := by
        refine Nat.pos_of_ne_zero fun h => hzero ?_
        rw [← hchar, h]
        rfl
      refine ⟨0, ?_⟩
      rw [← toDigits_append_digits hrest hpos, Nat.toDigits_of_lt_base hlt, hchar]
      rfl

/-! ## Spellings -/

/-- A scalar, or a vector of two lanes or more. -/
def Readable : DType → Prop
  | scalar _ => True
  | vector _ n => 2 ≤ n.toNat

/-- The name with `k` more zeros before the lane count, if there is one. -/
def spelling (k : Nat) : DType → String
  | scalar t => t.name
  | vector t n => t.name ++ "x" ++ String.ofList (List.replicate k '0' ++ Nat.toDigits 10 n.toNat)

theorem spelling_zero (d : DType) : d.spelling 0 = d.name := by
  cases d with
  | scalar t => rfl
  | vector t n =>
    rw [name, Nat.toString_eq_ofList_toDigits]
    rfl

theorem spells_spelling (h : d.Readable) (k : Nat) : Spells (d.spelling k) d := by
  cases d with
  | scalar t => exact .scalar t
  | vector t n =>
    refine .vector ⟨String.ofList (List.replicate k '0' ++ Nat.toDigits 10 n.toNat), ?_, ?_, rfl, ?_⟩ h
    · simp [← String.toList_inj, Nat.toDigits_ne_nil]
    · intro c hc
      rw [String.toList_ofList, List.mem_append] at hc
      rcases hc with hc | hc
      · rw [List.eq_of_mem_replicate hc]
        rfl
      · exact Nat.isDigit_of_mem_toDigits (by decide) (by decide) hc
    · rw [String.toList_ofList, decimalValue_eq_ofDigitChars, Nat.ofDigitChars_append,
        Nat.ofDigitChars_replicate_zero, Nat.mul_zero, Nat.ofDigitChars_ten_toDigits]

/-- What spells an element type is its name with some zeros. -/
theorem spells_iff_exists_spelling : Spells s d ↔ d.Readable ∧ ∃ k, s = d.spelling k := by
  constructor
  · intro h
    cases h with
    | scalar t => exact ⟨trivial, 0, rfl⟩
    | vector hclaims hn =>
      obtain ⟨digits, hne, hdigits, hs, hvalue⟩ := hclaims
      obtain ⟨k, hk⟩ := exists_zeros (fun h => hne (by rw [← String.toList_inj, h]; rfl)) hdigits
      refine ⟨hn, k, ?_⟩
      rw [spelling, ← hvalue, ← hk, String.ofList_toList, hs]
  · rintro ⟨hd, k, rfl⟩
    exact spells_spelling hd k

/-! ## Reading what was written -/

theorem withLanes_congr (h : d.base = e.base) (n : UInt64) : d.withLanes n = e.withLanes n := by
  unfold withLanes
  rw [h]

/-- Of several lane counts the last one holds. -/
theorem foldl_withLanes (d : DType) (counts : List UInt64) :
    counts.foldl withLanes d = counts.getLast?.elim d d.withLanes := by
  have hbase : ∀ (counts : List UInt64) (d : DType), (counts.foldl withLanes d).base = d.base := by
    intro counts
    induction counts with
    | nil => exact fun d => rfl
    | cons n counts ih => exact fun d => (ih (d.withLanes n)).trans (base_withLanes d n)
  rcases List.eq_nil_or_concat counts with rfl | ⟨counts, n, rfl⟩
  · rfl
  · rw [List.concat_eq_append, List.foldl_append, List.getLast?_concat]
    exact withLanes_congr (hbase counts d) n

theorem readable_withLanes_iff : (d.withLanes n).Readable ↔ n ≠ 0 := by
  have hnone : n ≠ 0 ↔ n.toNat ≠ 0 := not_congr UInt64.toNat_inj.symm
  have hone : n ≠ 1 ↔ n.toNat ≠ 1 := not_congr UInt64.toNat_inj.symm
  unfold withLanes
  by_cases h : n = 1
  · rw [if_pos h, h]
    exact iff_of_true trivial (by decide)
  · have hn : n.toNat ≠ 1 := hone.1 h
    rw [if_neg h, hnone, Readable]
    omega

theorem claimsFew_name_of_no_lanes (t : ScalarType) : ClaimsFew (vector t 0).name 0 :=
  ⟨by decide, t.name, t.name_ne_empty, "0", by decide, by simp, rfl, rfl⟩

/-- **An element type is read back from its name unless it has no lanes.**  An element type is made from a scalar by
setting lane counts, of which the last one holds; if that is none, the name is refused for its lane count. -/
theorem parse_name_of_counts (t : ScalarType) (counts : List UInt64) :
    let d := counts.foldl withLanes (scalar t)
    parse d.name = if counts.getLast? = some 0 then .error (.laneCount d.name 0) else .ok d := by
  intro d
  have hd : d = counts.getLast?.elim (scalar t) (scalar t).withLanes := foldl_withLanes _ _
  split
  · rename_i hlast
    rw [hlast] at hd
    rw [hd]
    exact parse_of_claimsFew (claimsFew_name_of_no_lanes t)
  · rename_i hlast
    have hreadable : d.Readable := by
      rw [hd]
      cases hn : counts.getLast? with
      | none => exact trivial
      | some n => exact readable_withLanes_iff.2 fun h => hlast (by rw [hn, h])
    exact parse_of_spells (spelling_zero d ▸ spells_spelling hreadable 0)

/-- A vector of no lanes is not read back. -/
theorem parse_name_ne_of_no_lanes :
    let d := [0].foldl withLanes (scalar .float32)
    d.name = "float32x0" ∧ parse d.name = .error (.laneCount "float32x0" 0) := by
  decide +kernel

/-! ## Writing what was read -/

/-- There is a lane count that begins with a zero. -/
def Padded (s : String) : Prop := ∃ base digits : String, s = base ++ "x0" ++ digits

/-- Digits behind the only `x` of a text stand behind every `x`. -/
theorem eq_of_append_x {before base rest : List Char} (hbefore : 'x' ∉ before) (hdigits : 'x' ∉ digits)
    (h : before ++ 'x' :: digits = base ++ 'x' :: rest) : digits = rest := by
  rcases List.append_eq_append_iff.1 h with ⟨a, rfl, ha⟩ | ⟨c, rfl, hc⟩
  · cases a with
    | nil => exact (List.cons.inj ha).2
    | cons _ a => exact absurd (by rw [(List.cons.inj ha).2]; simp) hdigits
  · cases c with
    | nil => exact (List.cons.inj hc).2.symm
    | cons _ c => exact absurd (by rw [← (List.cons.inj hc).1]; simp) hbefore

/-- The numeral of a positive number does not begin with a zero. -/
theorem toDigits_ne_zero_cons {n : Nat} (hn : 0 < n) (digits : List Char) : Nat.toDigits 10 n ≠ '0' :: digits := by
  intro h
  have hdigits : ∀ c ∈ digits, c.isDigit = true := fun c hc =>
    Nat.isDigit_of_mem_toDigits (b := 10) (n := n) (by decide) (by decide) (h ▸ List.mem_cons_of_mem _ hc)
  have hvalue : decimalValue digits = n := by
    rw [← Nat.ofDigitChars_ten_toDigits (n := n), h, decimalValue_eq_ofDigitChars, Nat.ofDigitChars_cons,
      Nat.mul_zero, Nat.zero_add, Nat.sub_self]
  have hne : digits ≠ [] := by
    rintro rfl
    exact absurd hvalue (Nat.ne_of_lt hn)
  obtain ⟨k, hk⟩ := exists_zeros hne hdigits
  have hlength := congrArg List.length hk
  rw [hvalue, h, List.length_append, List.length_cons] at hlength
  omega

theorem not_padded_name (h : d.Readable) : ¬Padded d.name := by
  rintro ⟨base, digits, hs⟩
  have hs : d.name.toList = base.toList ++ 'x' :: '0' :: digits.toList := by simp [hs]
  cases d with
  | scalar t => exact t.x_notMem_name (by rw [show t.name.toList = _ from hs]; simp)
  | vector t n =>
    rw [name, Nat.toString_eq_ofList_toDigits] at hs
    have hx : 'x' ∉ Nat.toDigits 10 n.toNat :=
      x_notMem_digits fun c hc => Nat.isDigit_of_mem_toDigits (by decide) (by decide) hc
    have hs : t.name.toList ++ 'x' :: Nat.toDigits 10 n.toNat = base.toList ++ 'x' :: '0' :: digits.toList := by
      simpa using hs
    have hpos : 0 < n.toNat := Nat.lt_of_lt_of_le (by decide) h
    exact toDigits_ne_zero_cons hpos digits.toList (eq_of_append_x t.x_notMem_name hx hs)

theorem spelling_eq_name_or_padded (k : Nat) : d.spelling k = d.name ∨ Padded (d.spelling k) := by
  cases d with
  | scalar t => exact .inl rfl
  | vector t n =>
    cases k with
    | zero => exact .inl (spelling_zero _)
    | succ k =>
      refine .inr ⟨t.name, String.ofList (List.replicate k '0' ++ Nat.toDigits 10 n.toNat), ?_⟩
      rw [← String.toList_inj]
      simp [spelling, List.replicate_succ]

/-- **A text that is read as an element type is its name unless its lane count begins with a zero.**  Just then it is
taken for equal to that type as an attribute.  Texts that are read as one type differ in these zeros only. -/
theorem spellings_of_parse (s : String) (d : DType) (h : parse s = .ok d) :
    (d.name = s ↔ ¬Padded s) ∧
      (∀ l : Literal, l.string? = some s → (l.agrees (.dtype d) = .ok true ↔ ¬Padded s)) ∧
        ∀ s', parse s' = .ok d ↔ ∃ k, s' = d.spelling k := by
  obtain ⟨hd, k, hs⟩ := spells_iff_exists_spelling.1 (parse_eq_ok_iff.1 h)
  have hname : d.name = s ↔ ¬Padded s := by
    constructor
    · rintro rfl
      exact not_padded_name hd
    · intro hpadded
      rw [hs] at hpadded ⊢
      exact ((spelling_eq_name_or_padded k).resolve_right hpadded).symm
  refine ⟨hname, fun l hl => ?_, fun s' => ?_⟩
  · have hagrees : l.agrees (.dtype d) = .ok (d.name == s) := by
      unfold Literal.agrees
      dsimp only
      rw [hl]
      rfl
    rw [hagrees, ← hname, Except.ok.injEq, beq_iff_eq]
  · rw [parse_eq_ok_iff, spells_iff_exists_spelling]
    exact and_iff_right hd

/-- A lane count behind two zeros. -/
theorem spellings_of_parse_of_two_zeros :
    let s := "uint8x0016"
    let d := vector .uint8 16
    parse s = .ok d ∧ Padded s ∧ d.name ≠ s ∧ (Literal.stringImm s).agrees (.dtype d) ≠ .ok true ∧
      parse (d.spelling 1) = .ok d := by
  intro s d
  have hparse : parse s = .ok d := by decide +kernel
  have hpadded : Padded s := ⟨"uint8", "016", by decide⟩
  obtain ⟨hname, hagrees, hspellings⟩ := spellings_of_parse s d hparse
  refine ⟨hparse, hpadded, fun h => hname.1 h hpadded, fun h => (hagrees _ rfl).1 h hpadded, ?_⟩
  exact (hspellings _).2 ⟨1, rfl⟩

/-- A text that is read need not be the name of what it is read as. -/
theorem name_ne_of_leading_zero :
    let d := vector .int8 4
    parse "int8x04" = .ok d ∧ parse "int8x4" = .ok d ∧ d.name ≠ "int8x04" ∧
      (Literal.string "int8x04").agrees (.dtype d) = .ok false := by
  intro d
  have hread : parse "int8x04" = .ok d ∧ parse "int8x4" = .ok d := by decide +kernel
  exact ⟨hread.1, hread.2, by decide +kernel, rfl⟩

end DType
end Dataflow
