import Dataflow.Proofs.SymInt.NormalForm
import Mathlib
/-!
# The prover is sound

The normal form of a term has the value of the term, whenever the bindings hold (`value_of_normalizeUpTo`).  For
that an atom that stands for a term not looked into has to have the value of that term, and it knows the term only
by a text.  Because texts can be read in one way, such values exist (`exists_faithful`).

All of Mathlib is imported for the equations of strings and look-ups with which `cbv` evaluates concrete terms, here and
in the modules that build on this one.
-/
namespace Dataflow

namespace Polynomial

noncomputable def value (f : Atom → Int) (p : Polynomial) : Int := MvPolynomial.eval f p.denote

theorem value_termValue (f : Atom → Int) (m : Monomial) (c : Int) :
    MvPolynomial.eval f (termValue m c) = c * (m.map f).prod := by
  rw [termValue, map_mul, MvPolynomial.eval_C, map_list_prod, List.map_map]
  congr 2
  exact List.map_congr_left fun a _ => MvPolynomial.eval_X a

theorem value_eq_sum (f : Atom → Int) (p : Polynomial) :
    p.value f = (p.toList.map fun t => t.2.toInt * (t.1.map f).prod).sum := by
  rw [value, denote, map_list_sum, List.map_map]
  congr 2
  exact funext fun t => value_termValue f t.1 t.2.toInt

theorem beq_iff {p q : Polynomial} : (p == q) = true ↔ p.toList = q.toList :=
  beq_iff_eq (a := p.toList) (b := q.toList)

theorem value_eq_of_toList_eq (f : Atom → Int) {p q : Polynomial} (h : p.toList = q.toList) : p.value f = q.value f := by
  rw [value_eq_sum, value_eq_sum, h]

/-- The value depends on the atoms that occur. -/
theorem value_congr {f g : Atom → Int} {p : Polynomial} (h : ∀ t ∈ p.toList, ∀ a ∈ t.1, f a = g a) :
    p.value f = p.value g := by
  rw [value_eq_sum, value_eq_sum]
  refine congrArg List.sum (List.map_congr_left fun t ht => ?_)
  rw [List.map_congr_left (h t ht)]

/-! ## A key is longer than the keys in it -/

theorem length_le_length_flatMap {α β : Type} {f : α → List β} {a : α} {as : List α} (h : a ∈ as) :
    (f a).length ≤ (as.flatMap f).length := by
  rw [List.flatMap_def]
  exact (List.sublist_flatten_of_mem (List.mem_map_of_mem h)).length_le

theorem length_atomKey_le_key {p : Polynomial} {t : Monomial × Int64} {a : Atom} (ht : t ∈ p.toList) (ha : a ∈ t.1) :
    (atomKey a).toList.length ≤ p.key.toList.length := by
  have hterm : (atomKey a).toList.length ≤ (termKey t).toList.length := by
    have := length_le_length_flatMap (f := fun a => (atomKey a).toList) ha
    rw [toList_termKey, List.length_append]
    omega
  cases hp : p.toList with
  | nil => rw [hp] at ht; cases ht
  | cons u us =>
    rw [toList_key_of_cons hp, List.length_append]
    rw [hp, List.mem_cons] at ht
    rcases ht with rfl | ht
    · omega
    · have := length_le_length_flatMap (f := fun u => '+' :: (termKey u).toList) ht
      rw [List.length_cons] at this
      omega

theorem length_lt_key {p : Polynomial} {t : Monomial × Int64} {k : String} (ht : t ∈ p.toList)
    (hk : Atom.sealed k ∈ t.1) : k.toList.length < p.key.toList.length := by
  have hle := length_atomKey_le_key ht hk
  rw [toList_atomKey_sealed] at hle
  simp only [List.length_cons, List.length_append] at hle
  omega

theorem length_key_lt_sealedKey (name : String) (p q : Polynomial) :
    p.key.toList.length < (sealedKey name p q).toList.length ∧
      q.key.toList.length < (sealedKey name p q).toList.length := by
  rw [toList_sealedKey]
  simp only [List.length_cons, List.length_append]
  omega

end Polynomial

open Dataflow.Polynomial

/-! ## Values of the atoms -/

/-- A term that polynomials do not look into. -/
structure SealedTerm where
  op : IntOp
  name : String
  left : Polynomial
  right : Polynomial
  named : op.sealName? = some name
  legible_left : left.Legible
  legible_right : right.Legible

namespace SealedTerm

def key (s : SealedTerm) : String := sealedKey s.name s.left s.right

noncomputable def value (z : ZeroDivision) (f : Atom → Int) (s : SealedTerm) : Int :=
  s.op.eval z (s.left.value f) (s.right.value f)

theorem value_eq_of_key_eq (z : ZeroDivision) (f : Atom → Int) {s t : SealedTerm} (h : s.key = t.key) :
    s.value z f = t.value z f := by
  obtain ⟨hname, hleft, hright⟩ := sealedKey_inj (IntOp.isName_of_sealName? s.named)
    (IntOp.isName_of_sealName? t.named) s.legible_left s.legible_right t.legible_left t.legible_right h
  have hop : s.op = t.op := IntOp.sealName?_inj s.named (hname ▸ t.named)
  rw [value, value, hop, value_eq_of_toList_eq f hleft, value_eq_of_toList_eq f hright]

theorem value_congr (z : ZeroDivision) {f g : Atom → Int} (s : SealedTerm) (hvar : ∀ i, f (.var i) = g (.var i))
    (hsealed : ∀ k : String, k.toList.length < s.key.toList.length → f (.sealed k) = g (.sealed k)) :
    s.value z f = s.value z g := by
  have hatom : ∀ p : Polynomial, p.key.toList.length < s.key.toList.length →
      ∀ t ∈ p.toList, ∀ a ∈ t.1, f a = g a := by
    intro p hp t ht a ha
    cases a with
    | var i => exact hvar i
    | sealed k => exact hsealed k ((length_lt_key ht ha).trans hp)
  obtain ⟨hleft, hright⟩ := length_key_lt_sealedKey s.name s.left s.right
  rw [value, value, Polynomial.value_congr (hatom s.left hleft), Polynomial.value_congr (hatom s.right hright)]

end SealedTerm

/-- Values of the atoms under which a variable has its own value and a sealed term that of its operator. -/
structure Faithful (z : ZeroDivision) (σ : Nat → Int) (f : Atom → Int) : Prop where
  var : ∀ i, f (.var i) = σ i
  sealed : ∀ s : SealedTerm, f (.sealed s.key) = s.value z f

open Classical in
/-- The value of the term that a text stands for, if it stands for one.  The texts inside it are shorter. -/
noncomputable def readKey (z : ZeroDivision) (σ : Nat → Int) (key : String) : Int :=
  if h : ∃ s : SealedTerm, s.key = key then
    h.choose.value z fun
      | .var i => σ i
      | .sealed k => if _shorter : k.toList.length < key.toList.length then readKey z σ k else 0
  else 0
termination_by key.toList.length

theorem exists_faithful (z : ZeroDivision) (σ : Nat → Int) : ∃ f, Faithful z σ f := by
  refine ⟨fun | .var i => σ i | .sealed k => readKey z σ k, fun i => rfl, fun s => ?_⟩
  -- the text of `s` may have been read as another term, but only as one of the same value
  have hs : ∃ t : SealedTerm, t.key = s.key := ⟨s, rfl⟩
  change readKey z σ s.key = _
  rw [readKey, dif_pos hs, SealedTerm.value_eq_of_key_eq z _ hs.choose_spec]
  exact SealedTerm.value_congr z s (fun i => rfl) fun k hk => dif_pos hk

/-! ## Normal forms have the value of their terms -/

section
variable {z : ZeroDivision} {σ : Nat → Int} {f : Atom → Int}

theorem IntOp.Becomes.value_eq {op : IntOp} {p q r : Polynomial} (hf : Faithful z σ f) (h : op.Becomes p q r)
    (hp : p.Legible) (hq : q.Legible) : r.value f = op.eval z (p.value f) (q.value f) := by
  have hconstant : ∀ {p : Polynomial} {v : Int64}, p.constant? = some v → p.value f = v.toInt := by
    intro p v hv
    rw [Polynomial.value, denote_of_constant? hv, MvPolynomial.eval_C]
  cases h with
  | sum h => rw [Polynomial.value, denote_add h, map_add]; rfl
  | difference h => rw [Polynomial.value, denote_sub h, map_sub]; rfl
  | product h => rw [Polynomial.value, denote_mul h, map_mul]; rfl
  | folded ha hb hv =>
    rw [Polynomial.value, denote_constant, MvPolynomial.eval_C, hconstant ha, hconstant hb, hv]
  | quotientByOne hq1 =>
    rw [hconstant hq1, eval]
    exact (Int.fdiv_one _).symm
  | remainderByOne hq1 =>
    rw [hconstant hq1, eval]
    exact (Int.fmod_one _).symm
  | minOfEqual hpq => rw [eval, value_eq_of_toList_eq f (beq_iff.1 hpq), ite_self]
  | maxOfEqual hpq => rw [eval, value_eq_of_toList_eq f (beq_iff.1 hpq), ite_self]
  | unread hname =>
    rw [sealed_eq, Polynomial.value, denote_atom, MvPolynomial.eval_X]
    exact hf.sealed ⟨op, _, p, q, hname, hp, hq⟩

theorem SymInt.value_of_normalizeWith (hf : Faithful z σ f) {g : SymVar → Option Polynomial}
    (hg : ∀ v p, g v = some p → p.Legible ∧ p.value f = σ v.id) :
    ∀ {a : SymInt} {p : Polynomial}, a.normalizeWith g = some p → p.value f = a.eval z σ
  | .lit v, p, h => by
    cases h
    rw [Polynomial.value, denote_constant, MvPolynomial.eval_C, eval]
  | .var v, p, h => (hg v p h).2
  | .binary op l r, p, h => by
    obtain ⟨pl, hl, h⟩ := Option.bind_eq_some_iff.1 h
    obtain ⟨pr, hr, h⟩ := Option.bind_eq_some_iff.1 h
    have hlegible : ∀ {a : SymInt} {p : Polynomial}, a.normalizeWith g = some p → p.Legible :=
      legible_normalizeWith fun v p h => (hg v p h).1
    rw [(IntOp.becomes_of_normalForm h).value_eq hf (hlegible hl) (hlegible hr), value_of_normalizeWith hf hg hl,
      value_of_normalizeWith hf hg hr, eval]

theorem SymInt.legible_and_value_of_normalizeWith (hf : Faithful z σ f) {g : SymVar → Option Polynomial} {a : SymInt}
    {p : Polynomial} (hg : ∀ v p, g v = some p → p.Legible ∧ p.value f = σ v.id) (h : a.normalizeWith g = some p) :
    p.Legible ∧ p.value f = a.eval z σ :=
  ⟨legible_normalizeWith (fun v p h => (hg v p h).1) h, value_of_normalizeWith hf hg h⟩

namespace Prover

theorem value_atom_var (hf : Faithful z σ f) (v : SymVar) :
    (Polynomial.atom (.var v.id)).Legible ∧ (Polynomial.atom (.var v.id)).value f = σ v.id := by
  refine ⟨legible_atom trivial, ?_⟩
  rw [Polynomial.value, denote_atom, MvPolynomial.eval_X, hf.var]

theorem value_of_normalizeUpTo {p : Prover} (hf : Faithful z σ f) (hp : p.HoldsAt z σ) : ∀ (n : Nat) {a : SymInt}
    {q : Polynomial}, p.normalizeUpTo n a = some q → q.Legible ∧ q.value f = a.eval z σ
  | 0, a, q, h => by
    refine SymInt.legible_and_value_of_normalizeWith hf (fun v q hv => ?_) h
    cases hv
    exact value_atom_var hf v
  | n + 1, a, q, h => by
    refine SymInt.legible_and_value_of_normalizeWith hf (fun v q hv => ?_) h
    split at hv
    · rename_i b hb
      obtain ⟨hq, hqb⟩ := value_of_normalizeUpTo hf hp n hv
      exact ⟨hq, by rw [hqb, hp v b hb]⟩
    · cases hv
      exact value_atom_var hf v

theorem eval_eq_of_provesEqual {p : Prover} (hp : p.HoldsAt z σ) {a b : SymInt} (h : p.provesEqual a b = true) :
    a.eval z σ = b.eval z σ := by
  obtain ⟨f, hf⟩ := exists_faithful z σ
  unfold provesEqual at h
  split at h
  · rename_i pa pb ha hb
    rw [← (value_of_normalizeUpTo hf hp _ ha).2, ← (value_of_normalizeUpTo hf hp _ hb).2]
    exact value_eq_of_toList_eq f (beq_iff.1 h)
  · cases h

theorem eval_eq_of_constValue? {p : Prover} (hp : p.HoldsAt z σ) {a : SymInt} {c : Int64}
    (h : p.constValue? a = some c) : a.eval z σ = c.toInt := by
  obtain ⟨f, hf⟩ := exists_faithful z σ
  obtain ⟨q, hq, hc⟩ := Option.bind_eq_some_iff.1 h
  rw [← (value_of_normalizeUpTo hf hp _ hq).2, Polynomial.value, denote_of_constant? hc, MvPolynomial.eval_C]

theorem map_eval_eq_of_shapesEqual {p : Prover} (hp : p.HoldsAt z σ) {xs ys : List SymInt}
    (h : p.oracle.shapesEqual xs ys = true) : xs.map (·.eval z σ) = ys.map (·.eval z σ) := by
  rw [shapesEqual_oracle, Bool.and_eq_true, beq_iff_eq, List.all_eq_true] at h
  obtain ⟨hlen, hall⟩ := h
  refine List.ext_getElem (by simpa using hlen) fun i hi hj => ?_
  rw [List.getElem_map, List.getElem_map]
  have hix : i < xs.length := by simpa using hi
  have hiy : i < ys.length := by simpa using hj
  have hmem : (xs[i], ys[i]) ∈ xs.zip ys := List.mem_iff_getElem.2 ⟨i, by simp [hix, hiy], by simp⟩
  exact eval_eq_of_provesEqual hp (hall _ hmem)

/-- **The prover is sound.**  Where all bindings hold, terms that are proved equal have the same value, a term that
folds has the value it folds to, and shapes that are proved equal have the same dimensions. -/
theorem sound (p : Prover) (z : ZeroDivision) (σ : Nat → Int) (hp : p.HoldsAt z σ) :
    (∀ a b, p.provesEqual a b = true → a.eval z σ = b.eval z σ) ∧
    (∀ a c, p.constValue? a = some c → a.eval z σ = c.toInt) ∧
    (∀ xs ys, p.oracle.shapesEqual xs ys = true → xs.map (·.eval z σ) = ys.map (·.eval z σ)) :=
  ⟨fun _ _ => eval_eq_of_provesEqual hp, fun _ _ => eval_eq_of_constValue? hp,
    fun _ _ => map_eval_eq_of_shapesEqual hp⟩

end Prover

end

namespace Prover

/-- `n` is bound to four times `m`, and `n // k` and `(m * 4) // k` are proved equal, at a point where `k` is zero. -/
theorem sound_of_quotient_by_zero :
    empty.bind ⟨0, "n"⟩ (.binary .mul (.lit 4) (.var ⟨1, "m"⟩)) =
      .ok ⟨[(⟨0, "n"⟩, .binary .mul (.lit 4) (.var ⟨1, "m"⟩))]⟩ ∧
    (⟨[(⟨0, "n"⟩, .binary .mul (.lit 4) (.var ⟨1, "m"⟩))]⟩ : Prover).HoldsAt ⟨fun _ => 7, id⟩
      (fun i => if i = 0 then 12 else if i = 1 then 3 else 0) ∧
    SymInt.eval ⟨fun _ => 7, id⟩ (fun i => if i = 0 then 12 else if i = 1 then 3 else 0)
        (.binary .floorDiv (.var ⟨0, "n"⟩) (.var ⟨2, "k"⟩)) =
      SymInt.eval ⟨fun _ => 7, id⟩ (fun i => if i = 0 then 12 else if i = 1 then 3 else 0)
        (.binary .floorDiv (.binary .mul (.var ⟨1, "m"⟩) (.lit 4)) (.var ⟨2, "k"⟩)) ∧
    SymInt.eval ⟨fun _ => 7, id⟩ (fun i => if i = 0 then 12 else if i = 1 then 3 else 0)
        (.binary .sub (.var ⟨0, "n"⟩) (.binary .mul (.var ⟨1, "m"⟩) (.lit 4))) = Int64.toInt 0 := by
  have hp : (⟨[(⟨0, "n"⟩, .binary .mul (.lit 4) (.var ⟨1, "m"⟩))]⟩ : Prover).HoldsAt ⟨fun _ => 7, id⟩
      (fun i => if i = 0 then 12 else if i = 1 then 3 else 0) := by
    intro v b h
    by_cases hv : v = ⟨0, "n"⟩
    · subst hv
      cases h
      rfl
    · rw [value?, List.lookup_cons, beq_eq_false_iff_ne.2 hv] at h
      cases h
  obtain ⟨hequal, hfold, -⟩ := sound _ _ _ hp
  exact ⟨by decide +kernel, hp, hequal _ _ (by cbv), hfold _ _ (by cbv)⟩

end Prover
end Dataflow
