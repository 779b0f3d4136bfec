import Dataflow.Proofs.SymInt.Denotation
import Dataflow.Proofs.SymInt.Key
import Dataflow.Proofs.SymInt.Value
/-!
# What normal forms are like

Arithmetic keeps what holds of every monomial and of products of monomials (`HasTerms`).  `Becomes` lists what an
operator applied to two normal forms can be, and `becomes_of_normalForm` says that there is nothing else; what holds of
normal forms is shown from it.
-/
namespace Dataflow

namespace Word

theorem toInt_floorDiv? {a b v : Int64} (h : floorDiv? a b = some v) : v.toInt = a.toInt.fdiv b.toInt := by
  rw [floorDiv?_eq] at h
  split at h
  · cases h
  · exact ofInt?_eq_some_iff.1 h

theorem toInt_floorMod? {a b v : Int64} (h : floorMod? a b = some v) : v.toInt = a.toInt.fmod b.toInt := by
  obtain ⟨d, hd, h⟩ := Option.bind_eq_some_iff.1 h
  obtain ⟨m, hm, h⟩ := Option.bind_eq_some_iff.1 h
  rw [ofInt?_eq_some_iff.1 h, ofInt?_eq_some_iff.1 hm, toInt_floorDiv? hd, Int.fmod_def, mul_comm]

end Word

namespace Polynomial

theorem foldlM_invariant {α β : Type} {step : β → α → Option β} {P : β → Prop} :
    ∀ {as : List α} {b b' : β}, (∀ b a b', a ∈ as → P b → step b a = some b' → P b') → P b →
      as.foldlM step b = some b' → P b'
  | [], _, _, _, hb, h => by cases h; exact hb
  | a :: as, b, b', hstep, hb, h => by
    rw [List.foldlM_cons] at h
    obtain ⟨c, hc, hb'⟩ := Option.bind_eq_some_iff.1 h
    exact foldlM_invariant (fun b a b' ha => hstep b a b' (by simp [ha])) (hstep b a c (by simp) hb hc) hb'

/-! ## What is said of every monomial -/

/-- No term is zero and every monomial is as said. -/
def HasTerms (good : Monomial → Prop) (p : Polynomial) : Prop := ∀ t ∈ p.toList, t.2 ≠ 0 ∧ good t.1

section
variable {good : Monomial → Prop} {p q r : Polynomial} {m : Monomial}

theorem hasTerms_zero : zero.HasTerms good := fun _ h => by cases h

theorem HasTerms.setCoeff (c : Int64) (hp : p.HasTerms good) (hm : good m) : (p.setCoeff m c).HasTerms good := by
  rintro ⟨n, d⟩ h
  rw [mem_toList_setCoeff] at h
  split at h
  · rename_i hn
    subst hn
    exact ⟨h.1 ▸ h.2, hm⟩
  · exact hp _ h

theorem hasTerms_constant (v : Int64) (hempty : good []) : (constant v).HasTerms good := hasTerms_zero.setCoeff v hempty

theorem hasTerms_atom {a : Atom} (ha : good [a]) : (atom a).HasTerms good := hasTerms_zero.setCoeff 1 ha

theorem HasTerms.addTerm {c : Int64} (hp : p.HasTerms good) (hm : good m) (h : p.addTerm m c = some r) :
    r.HasTerms good := by
  obtain ⟨s, -, rfl⟩ := exists_of_addTerm h
  have hfilled : ∀ t ∈ (p.overwrite m s).toList, t = (m, s) ∨ t ∈ p.toList := by
    rintro ⟨n, d⟩ ht
    rw [mem_toList_overwrite] at ht
    split at ht
    · exact .inl (Prod.ext ‹n = m› ht)
    · exact .inr ht
  intro t ht
  split at ht
  · -- only here the term itself can be zero, and it is taken out
    obtain ⟨ht, hnonzero⟩ := mem_toList_purge.1 ht
    rcases hfilled t ht with rfl | ht
    · exact ⟨hnonzero, hm⟩
    · exact hp t ht
  · rcases hfilled t ht with rfl | ht
    · exact ⟨‹¬s = 0›, hm⟩
    · exact hp t ht

theorem HasTerms.add (hp : p.HasTerms good) (hq : q.HasTerms good) (h : p.add q = some r) : r.HasTerms good :=
  foldlM_invariant (fun _ t _ ht hs hr => hs.addTerm (hq t ht).2 hr) hp h

theorem HasTerms.sub (hp : p.HasTerms good) (hq : q.HasTerms good) (h : p.sub q = some r) : r.HasTerms good := by
  refine foldlM_invariant (fun s t r ht hs hr => ?_) hp h
  obtain ⟨d, -, hr⟩ := Option.bind_eq_some_iff.1 hr
  exact hs.addTerm (hq t ht).2 hr

theorem HasTerms.mul (hmul : ∀ m n, good m → good n → good (m.mul n)) (hp : p.HasTerms good) (hq : q.HasTerms good)
    (h : p.mul q = some r) : r.HasTerms good := by
  refine foldlM_invariant (fun s t r ht hs hr => ?_) hasTerms_zero h
  refine foldlM_invariant (fun s u r hu hs hr => ?_) hs hr
  obtain ⟨d, -, hr⟩ := Option.bind_eq_some_iff.1 hr
  exact hs.addTerm (hmul _ _ (hp t ht).2 (hq u hu).2) hr

end

theorem legible_iff_hasTerms {p : Polynomial} : p.Legible ↔ p.HasTerms fun m => ∀ a ∈ m, a.Legible := Iff.rfl

theorem legible_constant (v : Int64) : (constant v).Legible :=
  legible_iff_hasTerms.2 (hasTerms_constant v (List.forall_mem_nil _))

theorem legible_atom {a : Atom} (h : a.Legible) : (atom a).Legible :=
  legible_iff_hasTerms.2 (hasTerms_atom (List.forall_mem_singleton.2 h))

end Polynomial

namespace IntOp

open Dataflow.Polynomial

theorem isName_of_sealName? {op : IntOp} {name : String} (h : op.sealName? = some name) : IsName name := by
  cases op <;> cases h <;> simp [IsName]

theorem sealName?_inj {op op' : IntOp} {name : String} (h : op.sealName? = some name) (h' : op'.sealName? = some name) :
    op = op' := by
  cases op <;> cases h <;> cases op' <;> simp_all [sealName?]

/-- What an operator applied to two normal forms can become: exact arithmetic, a constant, an operand, or a term that
is not looked into. -/
inductive Becomes : IntOp → Polynomial → Polynomial → Polynomial → Prop
  | sum {p q r : Polynomial} : p.add q = some r → Becomes .add p q r
  | difference {p q r : Polynomial} : p.sub q = some r → Becomes .sub p q r
  | product {p q r : Polynomial} : p.mul q = some r → Becomes .mul p q r
  | folded {op : IntOp} {p q : Polynomial} {a b v : Int64} : p.constant? = some a → q.constant? = some b →
      (∀ z, op.eval z a.toInt b.toInt = v.toInt) → Becomes op p q (.constant v)
  | quotientByOne {p q : Polynomial} : q.constant? = some 1 → Becomes .floorDiv p q p
  | remainderByOne {p q : Polynomial} : q.constant? = some 1 → Becomes .floorMod p q .zero
  | minOfEqual {p q : Polynomial} : p == q → Becomes .min p q p
  | maxOfEqual {p q : Polynomial} : p == q → Becomes .max p q p
  | unread {op : IntOp} {p q : Polynomial} {name : String} : op.sealName? = some name →
      Becomes op p q (.sealed name p q)

/-- **Every normal form of an operator is one of these.** -/
theorem becomes_of_normalForm {op : IntOp} {p q r : Polynomial} (h : op.normalForm p q = some r) :
    op.Becomes p q r := by
  cases op with
  | add => exact .sum h
  | sub => exact .difference h
  | mul => exact .product h
  | floorDiv =>
    simp only [normalForm] at h
    split at h
    · rename_i a b ha hb
      split at h
      · rename_i hb0
        obtain ⟨v, hv, rfl⟩ := Option.map_eq_some_iff.1 h
        exact .folded ha hb fun z => by rw [eval, if_neg (Word.toInt_ne_zero hb0), Word.toInt_floorDiv? hv]
      · cases h; exact .unread rfl
    · rename_i hq _
      cases h; exact .quotientByOne hq
    · cases h; exact .unread rfl
  | floorMod =>
    simp only [normalForm] at h
    split at h
    · rename_i a b ha hb
      split at h
      · rename_i hb0
        obtain ⟨v, hv, rfl⟩ := Option.map_eq_some_iff.1 h
        exact .folded ha hb fun z => by rw [eval, if_neg (Word.toInt_ne_zero hb0), Word.toInt_floorMod? hv]
      · cases h; exact .unread rfl
    · rename_i hq _
      cases h; exact .remainderByOne hq
    · cases h; exact .unread rfl
  | min =>
    simp only [normalForm] at h
    split at h
    · rename_i a b ha hb
      cases h
      refine .folded ha hb fun z => ?_
      simp only [eval, ← Int64.le_iff_toInt_le]
      split <;> rfl
    · cases h
      split
      · rename_i hpq
        exact .minOfEqual hpq
      · exact .unread rfl
  | max =>
    simp only [normalForm] at h
    split at h
    · rename_i a b ha hb
      cases h
      refine .folded ha hb fun z => ?_
      simp only [eval, ← Int64.le_iff_toInt_le]
      split <;> rfl
    · cases h
      split
      · rename_i hpq
        exact .maxOfEqual hpq
      · exact .unread rfl

/-- What holds of the monomials of the operands holds of those of the result, if it is kept by products and holds of
the term that is not looked into. -/
theorem Becomes.hasTerms {op : IntOp} {p q r : Polynomial} {good : Monomial → Prop} (h : op.Becomes p q r)
    (hempty : good []) (hmul : ∀ m n, good m → good n → good (m.mul n))
    (hunread : ∀ name, op.sealName? = some name → good [.sealed (sealedKey name p q)]) (hp : p.HasTerms good)
    (hq : q.HasTerms good) : r.HasTerms good := by
  cases h with
  | sum h => exact hp.add hq h
  | difference h => exact hp.sub hq h
  | product h => exact hp.mul hmul hq h
  | folded => exact hasTerms_constant _ hempty
  | quotientByOne => exact hp
  | remainderByOne => exact hasTerms_zero
  | minOfEqual => exact hp
  | maxOfEqual => exact hp
  | unread hname => exact hasTerms_atom (hunread _ hname)

theorem Becomes.hasAtoms {op : IntOp} {p q r : Polynomial} {good : Atom → Prop} (h : op.Becomes p q r)
    (hunread : ∀ name, op.sealName? = some name → good (.sealed (sealedKey name p q)))
    (hp : p.HasTerms fun m => ∀ a ∈ m, good a) (hq : q.HasTerms fun m => ∀ a ∈ m, good a) :
    r.HasTerms fun m => ∀ a ∈ m, good a := by
  refine h.hasTerms (List.forall_mem_nil _) (fun m n hm hn a ha => ?_)
    (fun name hname => List.forall_mem_singleton.2 (hunread name hname)) hp hq
  rcases List.mem_append.1 ((List.merge_perm_append _).mem_iff.1 ha) with ha | ha
  · exact hm a ha
  · exact hn a ha

theorem Becomes.legible {op : IntOp} {p q r : Polynomial} (h : op.Becomes p q r) (hp : p.Legible) (hq : q.Legible) :
    r.Legible := by
  rw [legible_iff_hasTerms] at *
  exact h.hasAtoms (fun _ hname => legible_sealedKey (isName_of_sealName? hname) hp hq) hp hq

end IntOp

/-! ## What is said of every normal form -/

section
variable {P : Polynomial → Prop} (hlit : ∀ v, P (.constant v))
  (hop : ∀ (op : IntOp) (p q r : Polynomial), op.Becomes p q r → P p → P q → P r)

include hlit hop

/-- What holds of the integers and of the variables, and is kept by every operator, holds of every normal form. -/
theorem SymInt.of_normalizeWith {f : SymVar → Option Polynomial} (hf : ∀ v p, f v = some p → P p) :
    ∀ {a : SymInt} {p : Polynomial}, a.normalizeWith f = some p → P p
  | .lit v, _, h => by cases h; exact hlit v
  | .var v, p, h => hf v p h
  | .binary op l r, p, h => by
    obtain ⟨pl, hl, h⟩ := Option.bind_eq_some_iff.1 h
    obtain ⟨pr, hr, h⟩ := Option.bind_eq_some_iff.1 h
    exact hop op pl pr p (IntOp.becomes_of_normalForm h) (of_normalizeWith hf hl) (of_normalizeWith hf hr)

theorem Prover.of_normalizeUpTo {r : Prover} (hvar : ∀ i, P (.atom (.var i))) :
    ∀ (n : Nat) {a : SymInt} {p : Polynomial}, r.normalizeUpTo n a = some p → P p
  | 0, a, p, h => by
    refine SymInt.of_normalizeWith hlit hop (fun v p hv => ?_) h
    cases hv
    exact hvar v.id
  | n + 1, a, p, h => by
    refine SymInt.of_normalizeWith hlit hop (fun v p hv => ?_) h
    split at hv
    · exact of_normalizeUpTo hvar n hv
    · cases hv
      exact hvar v.id

end

theorem SymInt.legible_normalizeWith {f : SymVar → Option Polynomial} (hf : ∀ v p, f v = some p → p.Legible)
    {a : SymInt} {p : Polynomial} (h : a.normalizeWith f = some p) : p.Legible :=
  of_normalizeWith Polynomial.legible_constant (fun _ _ _ _ => IntOp.Becomes.legible) hf h

/-- **Every atom of a normal form is a variable or has a text in which brackets match.** -/
theorem Prover.legible_normalize {r : Prover} {a : SymInt} {p : Polynomial} (h : r.normalize a = some p) : p.Legible :=
  of_normalizeUpTo Polynomial.legible_constant (fun _ _ _ _ => IntOp.Becomes.legible)
    (fun _ => Polynomial.legible_atom trivial) _ h

end Dataflow
