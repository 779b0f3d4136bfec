import Dataflow.Proofs.SymInt.Soundness
/-!
# Normal forms are known by their keys

A sealed term knows its operands only by their keys.  Nothing is lost by this: two normal forms have the same key only
if they have the same terms (`key_eq_iff`), so an operator that makes a sealed term (`IntOp.Seals`) makes the same one
only for the same operands.  A sealed term that an operator makes is new, because its text is longer than the texts
of all sealed terms in the operands (`not_mentions_sealedKey`).
-/
namespace Dataflow

namespace Polynomial

variable {p q : Polynomial} {k : String}

/-- The normal form of a term under some bindings. -/
def IsNormalForm (p : Polynomial) : Prop := ∃ (r : Prover) (a : SymInt), r.normalize a = some p

theorem IsNormalForm.legible : p.IsNormalForm → p.Legible
  | ⟨_, _, h⟩ => Prover.legible_normalize h

theorem key_congr (h : p.toList = q.toList) : p.key = q.key := by
  cases hp : p.toList with
  | nil => rw [key_of_nil hp, key_of_nil (h ▸ hp)]
  | cons t ts => rw [← String.toList_inj, toList_key_of_cons hp, toList_key_of_cons (h ▸ hp)]

/-- **A key stands for one polynomial.** -/
theorem key_eq_iff (hp : p.Legible) (hq : q.Legible) : p.key = q.key ↔ (p == q) = true := by
  have hend : Opens AfterKey [] := fun c hc => by cases hc
  rw [beq_iff]
  exact ⟨fun h => (key_append_inj hp hq hend hend (by rw [h])).1, key_congr⟩

/-! ## Sealed terms in a polynomial -/

/-- The sealed term with this text occurs. -/
def Mentions (p : Polynomial) (k : String) : Prop := ∃ t ∈ p.toList, Atom.sealed k ∈ t.1

/-- A sealed term does not occur in its own operands. -/
theorem not_mentions_sealedKey (name : String) (p q : Polynomial) :
    ¬p.Mentions (sealedKey name p q) ∧ ¬q.Mentions (sealedKey name p q) := by
  obtain ⟨hleft, hright⟩ := length_key_lt_sealedKey name p q
  refine ⟨fun ⟨t, ht, hk⟩ => ?_, fun ⟨t, ht, hk⟩ => ?_⟩
  · exact Nat.lt_asymm hleft (length_lt_key ht hk)
  · exact Nat.lt_asymm hright (length_lt_key ht hk)

theorem mentions_sealed (name : String) (p q : Polynomial) :
    (Polynomial.sealed name p q).Mentions (sealedKey name p q) := by
  have hmem : ([.sealed (sealedKey name p q)], 1) ∈ (Polynomial.sealed name p q).toList := by
    rw [sealed_eq, atom, mem_toList_setCoeff, if_pos rfl]
    exact ⟨rfl, by decide⟩
  exact ⟨_, hmem, List.mem_singleton.2 rfl⟩

end Polynomial

namespace IntOp

open Dataflow.Polynomial

variable {op : IntOp} {p q : Polynomial} {k : String}

/-- An operator makes a sealed term with this text: its normal form has one, and neither operand has. -/
def Seals (op : IntOp) (p q : Polynomial) (k : String) : Prop :=
  ∃ r, op.normalForm p q = some r ∧ r.Mentions k ∧ ¬p.Mentions k ∧ ¬q.Mentions k

theorem seals_of_normalForm {name : String} (h : op.normalForm p q = some (.sealed name p q)) :
    op.Seals p q (sealedKey name p q) :=
  ⟨_, h, mentions_sealed name p q, not_mentions_sealedKey name p q⟩

/-- A new sealed term is the one that the operator makes of its operands. -/
theorem Seals.exists_name (h : op.Seals p q k) (hp : p.Legible) (hq : q.Legible) :
    ∃ name, op.sealName? = some name ∧ k = sealedKey name p q := by
  obtain ⟨r, hr, ⟨t, ht, hkt⟩, hkp, hkq⟩ := h
  have hfree : ∀ {p : Polynomial}, p.Legible → ¬p.Mentions k → p.HasTerms fun m => ∀ a ∈ m, a ≠ .sealed k :=
    fun hp hk t ht => ⟨(hp t ht).1, fun a ha hak => hk ⟨t, ht, hak ▸ ha⟩⟩
  by_contra hnone
  have hother : ∀ name, op.sealName? = some name → Atom.sealed (sealedKey name p q) ≠ .sealed k :=
    fun name hname hk => hnone ⟨name, hname, (Atom.sealed.inj hk).symm⟩
  exact ((becomes_of_normalForm hr).hasAtoms hother (hfree hp hkp) (hfree hq hkq) t ht).2 _ hkt rfl

end IntOp

namespace Polynomial

/-- **Keys are unambiguous.**  Normal forms, of terms of any depth and under any bindings, have the same key exactly if
they are the same, and operators make sealed terms with the same text exactly if they are the same operator and their
operands have the same normal forms. -/
theorem keys_unambiguous {p q p' q' : Polynomial} (hp : p.IsNormalForm) (hq : q.IsNormalForm) (hp' : p'.IsNormalForm)
    (hq' : q'.IsNormalForm) :
    (p.key = p'.key ↔ (p == p') = true) ∧
      ∀ {op op' : IntOp} {k k' : String}, op.Seals p q k → op'.Seals p' q' k' →
        (k = k' ↔ op = op' ∧ (p == p') = true ∧ (q == q') = true) := by
  refine ⟨key_eq_iff hp.legible hp'.legible, fun {op op' k k'} h h' => ?_⟩
  obtain ⟨name, hname, rfl⟩ := h.exists_name hp.legible hq.legible
  obtain ⟨name', hname', rfl⟩ := h'.exists_name hp'.legible hq'.legible
  rw [← key_eq_iff hp.legible hp'.legible, ← key_eq_iff hq.legible hq'.legible]
  constructor
  · intro h
    obtain ⟨rfl, hleft, hright⟩ := sealedKey_inj (IntOp.isName_of_sealName? hname) (IntOp.isName_of_sealName? hname')
      hp.legible hq.legible hp'.legible hq'.legible h
    exact ⟨IntOp.sealName?_inj hname hname', key_congr hleft, key_congr hright⟩
  · rintro ⟨rfl, hleft, hright⟩
    obtain rfl : name = name' := Option.some.inj (hname.symm.trans hname')
    rw [sealedKey, sealedKey, hleft, hright]

/-- `n // m + n` and `n + n // m` have the same key and make the same sealed term as operands of `min`, with `-2 * n % m`
for the other operand.  With the operands in the other order it is another one. -/
theorem keys_unambiguous_of_nested_quotients :
    let quotient := Atom.sealed "floordiv(1*v0,1*v1)"
    let remainder := Atom.sealed "floormod(-2*v0,1*v1)"
    let p := (atom quotient).overwrite [.var 0] 1
    let p' := (atom (.var 0)).overwrite [quotient] 1
    let q := atom remainder
    p.IsNormalForm ∧ p'.IsNormalForm ∧ q.IsNormalForm ∧ p.key = p'.key ∧
      IntOp.min.Seals p q (sealedKey "min" p q) ∧ IntOp.min.Seals p' q (sealedKey "min" p' q) ∧
      IntOp.min.Seals q p (sealedKey "min" q p) ∧ sealedKey "min" p q = sealedKey "min" p' q ∧
      sealedKey "min" p q ≠ sealedKey "min" q p := by
  intro quotient remainder p p' q
  let n := SymInt.var ⟨0, "n"⟩
  let m := SymInt.var ⟨1, "m"⟩
  have hp : p.IsNormalForm := ⟨.empty, .binary .add (.binary .floorDiv n m) n, by cbv⟩
  have hp' : p'.IsNormalForm := ⟨.empty, .binary .add n (.binary .floorDiv n m), by cbv⟩
  have hq : q.IsNormalForm := ⟨.empty, .binary .floorMod (.binary .mul (.lit (-2)) n) m, by cbv⟩
  have hpq : IntOp.min.Seals p q (sealedKey "min" p q) := IntOp.seals_of_normalForm (by cbv)
  have hpq' : IntOp.min.Seals p' q (sealedKey "min" p' q) := IntOp.seals_of_normalForm (by cbv)
  have hqp : IntOp.min.Seals q p (sealedKey "min" q p) := IntOp.seals_of_normalForm (by cbv)
  have hsame : (p == p') = true := by cbv
  have hother : (p == q) = false := by cbv
  obtain ⟨hkey, hseals⟩ := keys_unambiguous hp hq hp' hq
  refine ⟨hp, hp', hq, hkey.2 hsame, hpq, hpq', hqp, (hseals hpq hpq').2 ⟨rfl, hsame, beq_iff.2 rfl⟩, fun h => ?_⟩
  have hswapped := ((keys_unambiguous hp hq hq hp).2 hpq hqp).1 h
  rw [hother] at hswapped
  exact Bool.false_ne_true hswapped.2.1

end Polynomial
end Dataflow
