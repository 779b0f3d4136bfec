import Dataflow.SymInt.Polynomial
import Mathlib.Algebra.MvPolynomial.CommRing
import Mathlib.Algebra.MvPolynomial.Eval
import Mathlib.Tactic.Ring
import Mathlib.Tactic.LinearCombination
/-!
# What a polynomial stands for

A polynomial with word coefficients stands for an integer polynomial whose indeterminates are the atoms
(`denote`).  Its arithmetic gives up when a coefficient on the way is no word; where it answers, the answer is
exact (`denote_add`, `denote_sub`, `denote_mul`).  All of it comes from what setting one coefficient does
(`denote_setCoeff`), because terms that are zero make no difference (`denote_congr`).
-/
namespace Dataflow
namespace Polynomial

open MvPolynomial (C X)

noncomputable def termValue (m : Monomial) (c : Int) : MvPolynomial Atom Int := C c * (m.map X).prod

noncomputable def denote (p : Polynomial) : MvPolynomial Atom Int :=
  (p.toList.map fun t => termValue t.1 t.2.toInt).sum

@[simp] theorem termValue_zero (m : Monomial) : termValue m 0 = 0 := by
  rw [termValue, map_zero, zero_mul]

theorem termValue_add (m : Monomial) (c d : Int) : termValue m (c + d) = termValue m c + termValue m d := by
  rw [termValue, map_add, add_mul]; rfl

theorem termValue_neg (m : Monomial) (c : Int) : termValue m (-c) = -termValue m c := by
  rw [termValue, map_neg, neg_mul]; rfl

theorem termValue_mul (m n : Monomial) (c d : Int) :
    termValue (m.mul n) (c * d) = termValue m c * termValue n d := by
  have hmn : ((m.mul n).map X).prod = ((m.map X).prod * (n.map X).prod : MvPolynomial Atom Int) := by
    rw [Monomial.mul, ((List.merge_perm_append _).map X).prod_eq, List.map_append, List.prod_append]
  rw [termValue, hmn, map_mul]
  simp only [termValue]
  ring

/-! ## The terms of a polynomial -/

theorem mem_toList (p : Polynomial) (m : Monomial) (c : Int64) : (m, c) ∈ p.toList ↔ p.terms[m]? = some c :=
  Std.TreeMap.mem_toList_iff_getElem?_eq_some

theorem nodup_toList (p : Polynomial) : p.toList.Nodup :=
  Std.TreeMap.distinct_keys_toList.imp fun h hab => h (by rw [hab]; exact Std.ReflCmp.compare_self)

theorem mem_toList_setCoeff (p : Polynomial) (m n : Monomial) (c d : Int64) :
    (n, d) ∈ (p.setCoeff m c).toList ↔ if n = m then d = c ∧ c ≠ 0 else (n, d) ∈ p.toList := by
  simp only [mem_toList, setCoeff]
  by_cases hc : c = 0
  · simp only [hc, if_true, Std.TreeMap.getElem?_erase, Std.LawfulEqCmp.compare_eq_iff_eq]
    grind
  · simp only [hc, if_false, Std.TreeMap.getElem?_insert, Std.LawfulEqCmp.compare_eq_iff_eq]
    grind

def others (p : Polynomial) (m : Monomial) : List (Monomial × Int64) := p.toList.filter (·.1 ≠ m)

theorem toList_setCoeff_perm (p : Polynomial) (m : Monomial) (c : Int64) :
    (p.setCoeff m c).toList.Perm ((if c = 0 then [] else [(m, c)]) ++ p.others m) := by
  refine (List.perm_ext_iff_of_nodup (nodup_toList _) ?_).2 ?_
  · refine List.Nodup.append ?_ ((nodup_toList p).filter _) ?_
    · split <;> simp
    · intro t ht hp
      have hm : t.1 = m := by split at ht <;> simp_all
      exact absurd hm (by simpa using (List.mem_filter.1 hp).2)
  · rintro ⟨n, d⟩
    rw [mem_toList_setCoeff, List.mem_append, others, List.mem_filter]
    by_cases hn : n = m <;> by_cases hc : c = 0 <;> simp [hn, hc]

/-- A polynomial is the term of one monomial, if it has one, and the terms of the others. -/
theorem toList_perm (p : Polynomial) (m : Monomial) :
    p.toList.Perm ((p.terms[m]?.toList.map (m, ·)) ++ p.others m) := by
  refine (List.perm_ext_iff_of_nodup (nodup_toList p) ?_).2 ?_
  · refine List.Nodup.append ?_ ((nodup_toList p).filter _) ?_
    · cases p.terms[m]? <;> simp
    · intro t ht hp
      have hm : t.1 = m := by
        obtain ⟨c, -, rfl⟩ := List.mem_map.1 ht
        rfl
      exact absurd hm (by simpa using (List.mem_filter.1 hp).2)
  · rintro ⟨n, d⟩
    rw [mem_toList, List.mem_append, others, List.mem_filter, mem_toList]
    by_cases hn : n = m
    · subst hn; simp
    · simp [hn, Ne.symm hn]

/-! ## The steps of adding a term -/

theorem toList_purge (p : Polynomial) : p.purge.toList = p.toList.filter fun t => t.2 ≠ 0 := Std.TreeMap.toList_filter

theorem mem_toList_purge {p : Polynomial} {t : Monomial × Int64} : t ∈ p.purge.toList ↔ t ∈ p.toList ∧ t.2 ≠ 0 := by
  rw [toList_purge, List.mem_filter, decide_eq_true_eq]

theorem mem_toList_overwrite (p : Polynomial) (m n : Monomial) (c d : Int64) :
    (n, d) ∈ (p.overwrite m c).toList ↔ if n = m then d = c else (n, d) ∈ p.toList := by
  simp only [mem_toList, overwrite, Std.TreeMap.getElem?_insert, Std.LawfulEqCmp.compare_eq_iff_eq]
  grind

/-- The new coefficient is the sum, and if this is zero the terms that are zero are taken out. -/
theorem exists_of_addTerm {p r : Polynomial} {m : Monomial} {c : Int64} (h : p.addTerm m c = some r) :
    ∃ s : Int64, s.toInt = (p.coeff m).toInt + c.toInt ∧
      r = if s = 0 then (p.overwrite m s).purge else p.overwrite m s := by
  obtain ⟨s, hs, hr⟩ := Option.bind_eq_some_iff.1 h
  exact ⟨s, Word.ofInt?_eq_some_iff.1 hs, (Option.some.inj hr).symm⟩

/-- Adding a term changes the coefficient of its monomial and no other. -/
theorem coeff_addTerm {p r : Polynomial} {m : Monomial} {c : Int64} (h : p.addTerm m c = some r) (n : Monomial) :
    (r.coeff n).toInt = if n = m then (p.coeff m).toInt + c.toInt else (p.coeff n).toInt := by
  obtain ⟨s, hs, rfl⟩ := exists_of_addTerm h
  split <;> simp only [coeff_purge, coeff_overwrite] <;> split <;> simp [hs]

/-! ## Arithmetic is exact -/

@[simp] theorem denote_zero : zero.denote = 0 := rfl

theorem denote_eq_of_perm {p : Polynomial} {ts : List (Monomial × Int64)} (h : p.toList.Perm ts) :
    p.denote = (ts.map fun t => termValue t.1 t.2.toInt).sum :=
  (h.map _).sum_eq

/-- **Setting a coefficient trades one term for another.** -/
theorem denote_setCoeff (p : Polynomial) (m : Monomial) (c : Int64) :
    (p.setCoeff m c).denote + termValue m (p.coeff m).toInt = p.denote + termValue m c.toInt := by
  have hnew : (p.setCoeff m c).denote =
      termValue m c.toInt + ((p.others m).map fun t => termValue t.1 t.2.toInt).sum := by
    rw [denote_eq_of_perm (toList_setCoeff_perm p m c), List.map_append, List.sum_append]
    split
    · subst c; simp
    · simp
  have hold : p.denote =
      termValue m (p.coeff m).toInt + ((p.others m).map fun t => termValue t.1 t.2.toInt).sum := by
    rw [denote_eq_of_perm (toList_perm p m), List.map_append, List.sum_append, coeff_eq_getD]
    cases p.terms[m]? <;> simp
  rw [hnew, hold]
  ring

theorem denote_constant (v : Int64) : (constant v).denote = C v.toInt := by
  have h := denote_setCoeff zero [] v
  rw [coeff_zero] at h
  simpa [termValue, constant] using h

theorem denote_atom (a : Atom) : (atom a).denote = X a := by
  have h := denote_setCoeff zero [a] 1
  rw [coeff_zero] at h
  simpa [termValue, atom] using h

theorem denote_purge (p : Polynomial) : p.purge.denote = p.denote := by
  have hsum : ∀ ts : List (Monomial × Int64), ((ts.filter fun t => t.2 ≠ 0).map fun t => termValue t.1 t.2.toInt).sum =
      (ts.map fun t => termValue t.1 t.2.toInt).sum := by
    intro ts
    induction ts with
    | nil => rfl
    | cons t ts ih => by_cases ht : t.2 = 0 <;> simpa [ht] using ih
  rw [denote, denote, toList_purge, hsum]

/-- Polynomials with the same coefficients stand for the same, whichever terms they hold that are zero. -/
theorem denote_congr {p q : Polynomial} (h : ∀ m, p.coeff m = q.coeff m) : p.denote = q.denote := by
  have hmem : ∀ (p : Polynomial) (m : Monomial) (c : Int64), (m, c) ∈ p.purge.toList ↔ c ≠ 0 ∧ p.coeff m = c := by
    intro p m c
    rw [mem_toList_purge, mem_toList, coeff_eq_getD]
    cases p.terms[m]? <;> simp +contextual [and_comm, eq_comm]
  rw [← denote_purge p, ← denote_purge q]
  refine denote_eq_of_perm ((List.perm_ext_iff_of_nodup (nodup_toList _) (nodup_toList _)).2 fun ⟨m, c⟩ => ?_)
  rw [hmem, hmem, h]

theorem denote_addTerm {p r : Polynomial} {m : Monomial} {c : Int64} (h : p.addTerm m c = some r) :
    r.denote = p.denote + termValue m c.toInt := by
  obtain ⟨s, hs⟩ : ∃ s : Int64, s.toInt = (p.coeff m).toInt + c.toInt := (exists_of_addTerm h).imp fun _ => And.left
  have hsame : r.denote = (p.setCoeff m s).denote := denote_congr fun n => by
    rw [← Int64.toInt_inj, coeff_addTerm h, coeff_setCoeff]
    split <;> simp [hs]
  have hset := denote_setCoeff p m s
  rw [hs, termValue_add] at hset
  linear_combination hsame + hset

/-- What is added term by term is added. -/
theorem denote_foldlM {α : Type} (step : Polynomial → α → Option Polynomial) (value : α → MvPolynomial Atom Int)
    (hstep : ∀ p a r, step p a = some r → r.denote = p.denote + value a) :
    ∀ (as : List α) (p r : Polynomial), as.foldlM step p = some r → r.denote = p.denote + (as.map value).sum
  | [], p, r, h => by
    cases h
    simp
  | a :: as, p, r, h => by
    rw [List.foldlM_cons] at h
    obtain ⟨q, hq, hr⟩ := Option.bind_eq_some_iff.1 h
    rw [denote_foldlM step value hstep as q r hr, hstep p a q hq, List.map_cons, List.sum_cons, add_assoc]

theorem denote_add {p q r : Polynomial} (h : p.add q = some r) : r.denote = p.denote + q.denote := by
  have hterm : ∀ (s : Polynomial) (t : Monomial × Int64) (r : Polynomial),
      s.addTerm t.1 t.2 = some r → r.denote = s.denote + termValue t.1 t.2.toInt :=
    fun _ _ _ => denote_addTerm
  exact denote_foldlM _ _ hterm q.toList p r h

theorem denote_sub {p q r : Polynomial} (h : p.sub q = some r) : r.denote = p.denote - q.denote := by
  have hterm : ∀ (s : Polynomial) (t : Monomial × Int64) (r : Polynomial),
      ((Word.neg? t.2).bind fun d => s.addTerm t.1 d) = some r → r.denote = s.denote + -termValue t.1 t.2.toInt := by
    intro s t r ht
    obtain ⟨d, hd, hr⟩ := Option.bind_eq_some_iff.1 ht
    rw [denote_addTerm hr, Word.ofInt?_eq_some_iff.1 hd, termValue_neg]
  have hneg : (q.toList.map fun t => -termValue t.1 t.2.toInt).sum = -q.denote := by
    rw [denote, ← neg_one_mul, ← List.sum_map_mul_left]
    simp only [neg_one_mul]
  rw [denote_foldlM _ _ hterm q.toList p r h, hneg, sub_eq_add_neg]

theorem denote_mul {p q r : Polynomial} (h : p.mul q = some r) : r.denote = p.denote * q.denote := by
  have hterm : ∀ (m : Monomial) (c : Int64) (s : Polynomial) (t : Monomial × Int64) (r : Polynomial),
      ((Word.mul? c t.2).bind fun d => s.addTerm (m.mul t.1) d) = some r →
        r.denote = s.denote + termValue m c.toInt * termValue t.1 t.2.toInt := by
    intro m c s t r ht
    obtain ⟨d, hd, hr⟩ := Option.bind_eq_some_iff.1 ht
    rw [denote_addTerm hr, Word.ofInt?_eq_some_iff.1 hd, termValue_mul]
  have hrow : ∀ (s : Polynomial) (t : Monomial × Int64) (r : Polynomial),
      q.toList.foldlM (fun s u => (Word.mul? t.2 u.2).bind fun d => s.addTerm (t.1.mul u.1) d) s = some r →
        r.denote = s.denote + termValue t.1 t.2.toInt * q.denote := by
    intro s t r hr
    rw [denote_foldlM _ _ (hterm t.1 t.2) _ _ _ hr, List.sum_map_mul_left]
    rfl
  have hsum := denote_foldlM _ _ hrow p.toList zero r h
  rw [hsum, denote_zero, zero_add, List.sum_map_mul_right]
  rfl

theorem denote_of_constant? {p : Polynomial} {v : Int64} (h : p.constant? = some v) : p.denote = C v.toInt := by
  unfold constant? at h
  split at h
  · rename_i he
    cases h
    have : p.toList = [] := by
      rw [toList, ← List.isEmpty_iff, Std.TreeMap.isEmpty_toList]
      exact he
    simp [denote, this]
  · split at h
    · rename_i hs
      have hlen : p.toList.length = 1 := by rw [toList, Std.TreeMap.length_toList]; exact hs
      have hmem := (mem_toList p [] v).2 h
      obtain ⟨t, ht⟩ := List.length_eq_one_iff.1 hlen
      rw [ht, List.mem_singleton] at hmem
      simp [denote, ht, ← hmem, termValue]
    · cases h

end Polynomial
end Dataflow
