import Dataflow.Proofs.SymInt.Completeness
import Dataflow.Proofs.SymInt.FirstBinding
/-!
# Normal forms of resolved terms

Bindings are taken into account in two ways: a term can be resolved, or its normal form can be taken under the bindings,
which goes to the value of a bound variable when it comes to one.  As long as no references lead back, both go through
the same terms, and the normal form of the resolved term without bindings is the normal form under them
(`Acyclic.normalize_eq_resolve`), overflow included.  So what the prover answers under bindings, it answers without them
of the resolved terms (`Acyclic.answers_resolved`).
-/
namespace Dataflow

namespace SymInt

theorem subst_eq_self {a : SymInt} {f : SymVar → SymInt} (h : ∀ v, a.mentions v = true → f v = .var v) :
    a.subst f = a := by
  rw [subst_congr h, subst_var]

end SymInt

namespace Prover

open SymInt

variable {p : Prover} {a b : SymInt} {v : SymVar}

/-- A term without bound variables is its own resolved term. -/
theorem Acyclic.resolve_eq_self (hp : p.Acyclic) (h : ∀ v, a.mentions v = true → p.value? v = none) :
    p.resolve a = a := by
  rw [hp.resolve_eq]
  refine subst_eq_self fun v hv => ?_
  rw [h v hv, Option.elim_none]

theorem Acyclic.resolve_resolve (hp : p.Acyclic) (a : SymInt) : p.resolve (p.resolve a) = p.resolve a :=
  hp.resolve_eq_self fun v hv => ((hp.mentions_resolve_iff a v).1 hv).1

/-- **The normal form under bindings is that of the resolved term without them.**  The induction follows what is
resolved in order to resolve a term: its operands, and the value of a bound variable. -/
theorem Acyclic.normalize_eq_resolve (hp : p.Acyclic) (a : SymInt) : p.normalize a = empty.normalize (p.resolve a) := by
  induction a using ((acyclic_iff_wellFounded p).1 hp).induction with
  | _ a ih =>
    cases a with
    | lit v =>
      rw [hp.resolve_eq, SymInt.subst, normalize_lit, normalize_lit]
    | var v =>
      rw [hp.normalize_eq, hp.resolve_eq, normalizeWith, SymInt.subst]
      cases hb : p.value? v with
      | none => rfl
      | some b => exact ih b (.value hb)
    | binary op l r =>
      rw [normalize_binary, resolve_binary, normalize_binary, ih l .left, ih r .right]

/-- A bound variable is proved equal to its resolved value, if that has a normal form. -/
theorem Acyclic.provesEqual_resolve (hp : p.Acyclic) (hb : p.value? v = some b) (h : (p.normalize b).isSome = true) :
    p.provesEqual (.var v) (p.resolve b) = true := by
  obtain ⟨f, hf⟩ := Option.isSome_iff_exists.1 h
  have hvar : p.normalize (.var v) = p.normalize b := by
    rw [hp.normalize_eq, normalizeWith, hb, Option.elim_some]
  have hresolved : p.normalize (p.resolve b) = p.normalize b := by
    rw [hp.normalize_eq_resolve, hp.resolve_resolve, ← hp.normalize_eq_resolve]
  exact (provesEqual_iff_toList_eq (hvar.trans hf) (hresolved.trans hf)).2 rfl

/-- **What the prover answers under bindings, it answers without them of the resolved terms.**  If no references lead
back, a resolved term mentions no bound variable, and it has the normal form without bindings that the term has under
them, or neither has one.  So the same folds to a word and the same is proved equal, and a bound variable is proved
equal to its resolved value if the value has a normal form. -/
theorem Acyclic.answers_resolved (p : Prover) (hp : p.Acyclic) :
    (∀ a v, (p.resolve a).mentions v = true → p.value? v = none) ∧
    (∀ a, p.normalize a = empty.normalize (p.resolve a)) ∧
    (∀ a, p.constValue? a = empty.constValue? (p.resolve a)) ∧
    (∀ a b, p.provesEqual a b = empty.provesEqual (p.resolve a) (p.resolve b)) ∧
    ∀ v b, p.value? v = some b → (p.normalize b).isSome = true →
      ∃ c, p.boundValue? v = some c ∧ p.provesEqual (.var v) c = true := by
  refine ⟨fun a v hv => ((hp.mentions_resolve_iff a v).1 hv).1, hp.normalize_eq_resolve, fun a => ?_, fun a b => ?_,
    fun v b hb hnormal => ⟨p.resolve b, ?_, hp.provesEqual_resolve hb hnormal⟩⟩
  · rw [constValue?, hp.normalize_eq_resolve, constValue?]
  · rw [provesEqual, hp.normalize_eq_resolve a, hp.normalize_eq_resolve b, provesEqual]
  · rw [boundValue?, hb, Option.map_some]

/-- With `n` bound to `m * 2` and `m` to `k + 1`, `n - 2` is proved equal to `k + k` because `(k + 1) * 2 - 2` is,
`n - k * 2` folds to 2, and `n` is proved equal to `(k + 1) * 2`.  The greatest word times `n` has no normal form,
resolved or not. -/
theorem Acyclic.answers_resolved_of_chain :
    let n : SymVar := ⟨0, "n"⟩
    let m : SymVar := ⟨1, "m"⟩
    let k : SymVar := ⟨2, "k"⟩
    let twice (a : SymInt) := SymInt.binary .mul a (.lit 2)
    let next (a : SymInt) := SymInt.binary .add a (.lit 1)
    let less (a b : SymInt) := SymInt.binary .sub a b
    let large (a : SymInt) := SymInt.binary .mul (.lit Int64.maxValue) a
    let value := twice (next (.var k))
    let p : Prover := ⟨[(m, next (.var k)), (n, twice (.var m))]⟩
    p.Acyclic ∧ p.resolve (.var n) = value ∧
      p.normalize (large (.var n)) = empty.normalize (large value) ∧ empty.normalize (large value) = none ∧
      p.provesEqual (less (.var n) (.lit 2)) (.binary .add (.var k) (.var k)) =
        empty.provesEqual (less value (.lit 2)) (.binary .add (.var k) (.var k)) ∧
      p.constValue? (less (.var n) (twice (.var k))) = empty.constValue? (less value (twice (.var k))) ∧
      empty.constValue? (less value (twice (.var k))) = some 2 ∧
      p.value? n = some (twice (.var m)) ∧ (p.normalize (twice (.var m))).isSome = true ∧
      p.boundValue? n = some value ∧ p.provesEqual (.var n) value = true := by
  intro n m k twice next less large value p
  have hp : p.Acyclic := by
    have hfirst : BoundOnce ⟨[(n, twice (.var m))]⟩ := .bind (v := n) (a := twice (.var m)) .empty rfl rfl
    exact (BoundOnce.bind (v := m) (a := next (.var k)) hfirst (by decide +kernel) (by rfl)).acyclic
  obtain ⟨-, hnormal, hfolds, hequal, hbound⟩ := Acyclic.answers_resolved p hp
  have hn : p.value? n = some (twice (.var m)) := by decide +kernel
  have hvalue : (p.normalize (twice (.var m))).isSome = true := by
    rw [hnormal, show p.resolve (twice (.var m)) = value from rfl]
    cbv
  have hgiven : p.boundValue? n = some value := by rfl
  obtain ⟨c, hc, hproved⟩ := hbound n _ hn hvalue
  obtain rfl := Option.some.inj (hgiven.symm.trans hc)
  exact ⟨hp, by rfl, hnormal _, by cbv, hequal _ _, hfolds _, by cbv, hn, hvalue, hgiven, hproved⟩

end Prover
end Dataflow
