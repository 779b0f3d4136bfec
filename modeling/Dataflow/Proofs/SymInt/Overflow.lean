import Dataflow.Proofs.SymInt.Canonical
/-!
# When polynomial arithmetic gives up

A sum, a difference and a product add terms to a polynomial one at a time, and there is no result as soon as the
coefficient of a term or of the sum so far is no word.  All three are additions of a list of terms with exact
coefficients (`addAll`), and one law says when such a list can be added: every coefficient fits, and for each monomial
so do all sums that its terms pass through (`isSome_addAll_iff`).  A fitting total is not enough.
-/
namespace Dataflow

namespace Word

/-- The integers that are values of signed words. -/
def Fits (x : Int) : Prop := Int64.minValue.toInt ≤ x ∧ x ≤ Int64.maxValue.toInt

instance : DecidablePred Fits := fun _ => inferInstanceAs (Decidable (_ ∧ _))

theorem fits_toInt (w : Int64) : Fits w.toInt :=
  ⟨by rw [Int64.toInt_minValue]; exact Int64.minValue_le_toInt w, by
    rw [Int64.toInt_maxValue]; exact Int64.toInt_le w⟩

theorem fits_zero : Fits 0 := by decide

theorem ofInt?_toInt (w : Int64) : ofInt? w.toInt = some w := ofInt?_eq_some_iff.2 rfl

theorem ofInt?_eq_none {x : Int} (h : ¬Fits x) : ofInt? x = none := by
  unfold Fits at h
  exact ofInt?_eq_none_iff.2 (by omega)

theorem exists_word {x : Int} (h : Fits x) : ∃ w : Int64, w.toInt = x := by
  cases hx : ofInt? x with
  | some w => exact ⟨w, ofInt?_eq_some_iff.1 hx⟩
  | none =>
    have hout := ofInt?_eq_none_iff.1 hx
    unfold Fits at h
    omega

/-! ## Sums on the way -/

/-- Every sum that `start` passes through when the list is added to it fits, itself among them. -/
def SumsFit (start : Int) (cs : List Int) : Prop := ∀ ds, ds <+: cs → Fits (start + ds.sum)

theorem sumsFit_nil {start : Int} : SumsFit start [] ↔ Fits start := by
  unfold SumsFit
  simp

theorem sumsFit_cons {start c : Int} {cs : List Int} :
    SumsFit start (c :: cs) ↔ Fits start ∧ SumsFit (start + c) cs := by
  unfold SumsFit
  constructor
  · intro h
    refine ⟨by simpa using h [] (List.nil_prefix), fun ds hds => ?_⟩
    have := h (c :: ds) (List.cons_prefix_cons.2 ⟨rfl, hds⟩)
    rwa [List.sum_cons, ← Int.add_assoc] at this
  · rintro ⟨hstart, h⟩ ds hds
    rcases List.prefix_cons_iff.1 hds with rfl | ⟨es, rfl, hes⟩
    · simpa using hstart
    · rw [List.sum_cons, ← Int.add_assoc]
      exact h es hes

theorem SumsFit.start {start : Int} {cs : List Int} (h : SumsFit start cs) : Fits start := by
  simpa using h [] (List.nil_prefix)

end Word

namespace Polynomial

open Word (Fits SumsFit)

variable {p q : Polynomial} {m : Monomial}

/-! ## Adding a list of terms -/

/-- The polynomial with terms added from the left. -/
def addAll (p : Polynomial) (ts : List (Monomial × Int)) : Option Polynomial :=
  ts.foldlM (fun sum t => do sum.addTerm t.1 (← Word.ofInt? t.2)) p

/-- What a list adds to the coefficient of a monomial, in the order of the list. -/
def coefficients (m : Monomial) (ts : List (Monomial × Int)) : List Int := (ts.filter (·.1 = m)).map (·.2)

theorem coefficients_cons (t : Monomial × Int) (ts : List (Monomial × Int)) :
    coefficients m (t :: ts) = if t.1 = m then t.2 :: coefficients m ts else coefficients m ts := by
  unfold coefficients
  by_cases h : t.1 = m <;> simp [h]

theorem isSome_addTerm_iff {c : Int64} : (p.addTerm m c).isSome = true ↔ Fits ((p.coeff m).toInt + c.toInt) := by
  rw [addTerm, Word.add?]
  by_cases h : Fits ((p.coeff m).toInt + c.toInt)
  · obtain ⟨s, hs⟩ := Word.exists_word h
    rw [← hs, Word.ofInt?_toInt]
    exact iff_of_true rfl (Word.fits_toInt s)
  · rw [Word.ofInt?_eq_none h]
    exact iff_of_false Bool.false_ne_true h

/-- **When a list of terms can be added**: the coefficient of every term fits, and for each monomial so does every sum
on the way. -/
theorem isSome_addAll_iff : ∀ (ts : List (Monomial × Int)) (p : Polynomial),
    (p.addAll ts).isSome = true ↔ (∀ t ∈ ts, Fits t.2) ∧ ∀ m, SumsFit (p.coeff m).toInt (coefficients m ts)
  | [], p => by
    refine ⟨fun _ => ⟨List.forall_mem_nil _, fun m => ?_⟩, fun _ => rfl⟩
    exact Word.sumsFit_nil.2 (Word.fits_toInt _)
  | (n, c) :: ts, p => by
    have hcons : p.addAll ((n, c) :: ts) = (Word.ofInt? c).bind fun w => (p.addTerm n w).bind (addAll · ts) := by
      rw [addAll, List.foldlM_cons]
      exact Option.bind_assoc ..
    have hhead : ∀ {start : Int}, SumsFit start (coefficients n ((n, c) :: ts)) → Fits (start + c) := fun h => by
      rw [coefficients_cons, if_pos rfl, Word.sumsFit_cons] at h
      exact h.2.start
    rw [hcons]
    by_cases hc : Fits c
    · obtain ⟨w, rfl⟩ := Word.exists_word hc
      rw [Word.ofInt?_toInt, Option.bind_some]
      cases hr : p.addTerm n w with
      | some r =>
        rw [Option.bind_some, isSome_addAll_iff ts, List.forall_mem_cons]
        refine and_congr (by simp [hc]) (forall_congr' fun m => ?_)
        rw [coefficients_cons, coeff_addTerm hr]
        by_cases hm : n = m
        · subst hm
          rw [if_pos rfl, if_pos rfl, Word.sumsFit_cons]
          exact ⟨fun h => ⟨Word.fits_toInt _, h⟩, fun h => h.2⟩
        · rw [if_neg hm, if_neg (Ne.symm hm)]
      | none =>
        have hover : ¬Fits ((p.coeff n).toInt + w.toInt) := by
          rw [← isSome_addTerm_iff, hr]
          exact Bool.false_ne_true
        exact iff_of_false Bool.false_ne_true fun h => hover (hhead (h.2 n))
    · rw [Word.ofInt?_eq_none hc]
      exact iff_of_false Bool.false_ne_true fun h => hc (h.1 (n, c) (by simp))

/-! ## Sums and differences -/

theorem coefficients_map (f : Int64 → Int) (q : Polynomial) (m : Monomial) :
    coefficients m (q.toList.map fun t => (t.1, f t.2)) = q.terms[m]?.toList.map f := by
  have hfilter : (q.toList.filter (·.1 = m)).Perm (q.terms[m]?.toList.map (m, ·)) := by
    refine ((toList_perm q m).filter _).trans ?_
    rw [List.filter_append, others, List.filter_filter]
    cases q.terms[m]? <;> simp
  have heq : q.toList.filter (·.1 = m) = q.terms[m]?.toList.map (m, ·) := by
    cases h : q.terms[m]? with
    | none => rw [h] at hfilter; simpa using hfilter
    | some c => rw [h] at hfilter; simpa using hfilter
  rw [coefficients, List.filter_map, List.map_map]
  exact (congrArg (List.map fun t => f t.2) heq).trans List.map_map

theorem add_eq_addAll (p q : Polynomial) : p.add q = p.addAll (q.toList.map fun t => (t.1, t.2.toInt)) := by
  rw [add, addAll, List.foldlM_map]
  simp only [Word.ofInt?_toInt]
  rfl

theorem sub_eq_addAll (p q : Polynomial) : p.sub q = p.addAll (q.toList.map fun t => (t.1, -t.2.toInt)) := by
  rw [sub, addAll, List.foldlM_map]
  rfl

/-- There is a sum exactly if the exact sum has words for coefficients. -/
theorem isSome_add_iff : (p.add q).isSome = true ↔ ∀ m, Fits ((p.coeff m).toInt + (q.coeff m).toInt) := by
  rw [add_eq_addAll, isSome_addAll_iff]
  have hterms : ∀ t ∈ q.toList.map fun t => (t.1, t.2.toInt), Fits t.2 := by
    intro t ht
    obtain ⟨u, -, rfl⟩ := List.mem_map.1 ht
    exact Word.fits_toInt u.2
  refine (and_iff_right hterms).trans (forall_congr' fun m => ?_)
  rw [coefficients_map, coeff_eq_getD q]
  cases q.terms[m]? with
  | none => simp [Word.sumsFit_nil]
  | some d => simp [Word.sumsFit_cons, Word.sumsFit_nil, Word.fits_toInt]

/-- For a difference the coefficients of the second operand are negated first, so their negatives have to be words
too. -/
theorem isSome_sub_iff :
    (p.sub q).isSome = true ↔
      ∀ m, Fits (-(q.coeff m).toInt) ∧ Fits ((p.coeff m).toInt - (q.coeff m).toInt) := by
  rw [sub_eq_addAll, isSome_addAll_iff, forall_and]
  refine and_congr ?_ (forall_congr' fun m => ?_)
  · constructor
    · intro h m
      rw [coeff_eq_getD q]
      cases hm : q.terms[m]? with
      | none => exact Word.fits_zero
      | some d => exact h (m, -d.toInt) (List.mem_map.2 ⟨(m, d), (mem_toList q m d).2 hm, rfl⟩)
    · intro h t ht
      obtain ⟨⟨m, d⟩, hmem, rfl⟩ := List.mem_map.1 ht
      have := h m
      rwa [coeff_eq_getD q, (mem_toList q m d).1 hmem] at this
  · rw [coefficients_map (fun d => -d.toInt), coeff_eq_getD q]
    cases q.terms[m]? with
    | none => simp [Word.sumsFit_nil, Word.fits_toInt]
    | some d => simp [Word.sumsFit_cons, Word.sumsFit_nil, Word.fits_toInt, Int.sub_eq_add_neg]

/-! ## Products -/

/-- The terms whose sum is a product, those of the first term of the left operand first. -/
def products (p q : Polynomial) : List (Monomial × Int) :=
  p.toList.flatMap fun s => q.toList.map fun t => (s.1.mul t.1, s.2.toInt * t.2.toInt)

theorem foldlM_flatMap {α β : Type} {f : α → List β} {step : Polynomial → β → Option Polynomial} :
    ∀ (as : List α) (p : Polynomial), (as.flatMap f).foldlM step p = as.foldlM (fun p a => (f a).foldlM step p) p
  | [], _ => rfl
  | a :: as, p => by
    rw [List.flatMap_cons, List.foldlM_append, List.foldlM_cons]
    exact congrArg _ (funext fun p => foldlM_flatMap as p)

theorem mul_eq_addAll (p q : Polynomial) : p.mul q = zero.addAll (products p q) := by
  rw [addAll, products, foldlM_flatMap]
  simp only [List.foldlM_map]
  rfl

/-- There is a product exactly if all products of two terms are words and, for each monomial, all sums on the way. -/
theorem isSome_mul_iff :
    (p.mul q).isSome = true ↔
      (∀ s ∈ p.toList, ∀ t ∈ q.toList, Fits (s.2.toInt * t.2.toInt)) ∧
        ∀ m, SumsFit 0 (coefficients m (products p q)) := by
  rw [mul_eq_addAll, isSome_addAll_iff]
  refine and_congr ?_ (forall_congr' fun m => by rw [coeff_zero]; rfl)
  constructor
  · intro h s hs t ht
    exact h (s.1.mul t.1, _) (List.mem_flatMap.2 ⟨s, hs, List.mem_map.2 ⟨t, ht, rfl⟩⟩)
  · intro h t ht
    obtain ⟨s, hs, ht⟩ := List.mem_flatMap.1 ht
    obtain ⟨u, hu, rfl⟩ := List.mem_map.1 ht
    exact h s hs u hu

end Polynomial
end Dataflow
