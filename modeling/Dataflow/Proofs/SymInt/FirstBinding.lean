import Dataflow.Proofs.SymInt.Acyclic
/-!
# Binding a variable for the first time

A prover in which every variable was bound once has no chain of references that comes back to where it began
(`BoundOnce.acyclic`).  The check that comes before a binding does not follow references: it resolves the value and
looks for the variable in it.  For a variable that is not bound yet this is exact: the binding is accepted if and only
if the references stay without cycles once the variable refers to what its value mentions (`BoundOnce.bind_exact`).
-/
namespace Dataflow

open Relation (TransGen ReflTransGen)

namespace Prover

/-- What accepted bindings of variables that were not bound before lead to from the empty prover. -/
inductive BoundOnce : Prover → Prop
  | empty : BoundOnce empty
  | bind {p q : Prover} {v : SymVar} {a : SymInt} : BoundOnce p → p.value? v = none → p.bind v a = .ok q → BoundOnce q

/-- The references there are once `v` refers to the variables of `a` as well. -/
def RefersAlso (p : Prover) (v : SymVar) (a : SymInt) (x y : SymVar) : Prop :=
  p.Refers x y ∨ x = v ∧ a.mentions y = true

variable {p q : Prover} {a : SymInt} {v w : SymVar}

/-- **A first binding keeps the references acyclic.** -/
theorem BoundOnce.acyclic (hp : p.BoundOnce) : p.Acyclic := by
  induction hp with
  | empty => exact acyclic_empty
  | @bind p q v a _ hv hbind ih =>
    have hleads : ¬p.LeadsTo a v := (ih.bind_isOk_iff v a).1 ⟨q, hbind⟩ hv
    exact (ih.acyclic_bind_iff hbind).2 hleads

/-- There is a chain from `v` back to `v` exactly if the value leads there by the references as they were. -/
theorem Acyclic.refersAlso_acyclic_iff (hp : p.Acyclic) (hv : p.value? v = none) :
    (∀ u, ¬TransGen (p.RefersAlso v a) u u) ↔ ¬p.LeadsTo a v := by
  have hsame : ∀ x y, x ≠ v → (p.RefersAlso v a x y ↔ p.Refers x y) := fun x y hx =>
    or_iff_left fun h => hx h.1
  have hnew : ∀ y, p.RefersAlso v a v y ↔ a.mentions y = true := fun y => by
    rw [RefersAlso, Refers, hv]
    simp
  rw [acyclic_iff_of_agree hp hsame, LeadsTo]
  simp only [hnew]

theorem bind_eq_error {e : CyclicBinding} (h : p.bind v a = .error e) : e = ⟨v, a⟩ := by
  unfold bind at h
  split at h
  · cases h
    rfl
  · cases h

/-- The binding of an unbound variable stands before the others, which stay as they are. -/
theorem bindings_of_bind (hv : p.value? v = none) (h : p.bind v a = .ok q) : q.bindings = (v, a) :: p.bindings := by
  unfold bind at h
  split at h
  · cases h
  · cases h
    have hothers : ∀ c ∈ p.bindings, decide (c.1 ≠ v) = true := fun c hc => by
      have hne : (v == c.1) = false := by simpa using List.lookup_eq_none_iff.1 hv c hc
      simpa using Ne.symm (beq_eq_false_iff_ne.1 hne)
    rw [List.filter_eq_self.2 hothers]

theorem bindAll_singleton (p : Prover) (v : SymVar) (a : SymInt) : p.bindAll [(v, a)] = match p.bind v a with
    | .ok q => q
    | .error _ => p :=
  bindAll_concat p [] v a

/-- **The check of a first binding is exact.**  In a prover whose variables were bound once each, an unbound variable is
bound to a value if and only if no chain of references comes back to where it began once the variable refers to the
variables of the value.  A refusal names the variable and the value and changes nothing.  After a binding there is one
entry more, resolving any term comes to an end still, with the values of bound variables in their places, and the value
that is given for a bound variable mentions no bound variable. -/
theorem BoundOnce.bind_exact (p : Prover) (hp : p.BoundOnce) (v : SymVar) (hv : p.value? v = none) (a : SymInt) :
    ((∃ q, p.bind v a = .ok q) ↔ ∀ u, ¬TransGen (p.RefersAlso v a) u u) ∧
    (∀ e, p.bind v a = .error e → e = ⟨v, a⟩ ∧ p.bindAll [(v, a)] = p) ∧
    ∀ q, p.bind v a = .ok q →
      p.bindAll [(v, a)] = q ∧ q.bindings = (v, a) :: p.bindings ∧ WellFounded q.Resolves ∧
      (∀ b, q.resolve b = b.subst (fun w => (q.value? w).elim (.var w) q.resolve) ∧
        q.normalize b = b.normalizeWith fun w => (q.value? w).elim (some (.atom (.var w.id))) q.normalize) ∧
      ∀ w b, q.value? w = some b → ∃ c, q.boundValue? w = some c ∧ ∀ u, c.mentions u = true → q.value? u = none := by
  have hacyclic := hp.acyclic
  refine ⟨?_, fun e he => ⟨bind_eq_error he, by rw [bindAll_singleton, he]⟩, fun q hq => ?_⟩
  · rw [hacyclic.bind_isOk_iff, hacyclic.refersAlso_acyclic_iff hv]
    exact ⟨fun h => h hv, fun h _ => h⟩
  · have hq' : q.Acyclic := (hp.bind hv hq).acyclic
    refine ⟨by rw [bindAll_singleton, hq], bindings_of_bind hv hq, (acyclic_iff_wellFounded q).1 hq',
      fun b => ⟨hq'.resolve_eq b, hq'.normalize_eq b⟩, fun w b hb => ⟨q.resolve b, ?_, fun u hu => ?_⟩⟩
    · rw [boundValue?, hb, Option.map_some]
    · exact ((hq'.mentions_resolve_iff b u).1 hu).1

/-- With `n` bound to `m * 2` and `m` to `k + 1`, `k` is refused the value `min(n, 3)`, which leads back by way of both.
It takes the value 4, and then the value of `n` is `(4 + 1) * 2`. -/
theorem BoundOnce.bind_exact_of_chain :
    let n : SymVar := ⟨0, "n"⟩
    let m : SymVar := ⟨1, "m"⟩
    let k : SymVar := ⟨2, "k"⟩
    let twice (a : SymInt) := SymInt.binary .mul a (.lit 2)
    let next (a : SymInt) := SymInt.binary .add a (.lit 1)
    let least := SymInt.binary .min (.var n) (.lit 3)
    let p : Prover := ⟨[(m, next (.var k)), (n, twice (.var m))]⟩
    let q : Prover := ⟨[(k, .lit 4), (m, next (.var k)), (n, twice (.var m))]⟩
    p.BoundOnce ∧ p.value? k = none ∧ p.bind k least = .error ⟨k, least⟩ ∧ p.bindAll [(k, least)] = p ∧
      (¬∀ u, ¬TransGen (p.RefersAlso k least) u u) ∧ p.bind k (.lit 4) = .ok q ∧
      (∀ u, ¬TransGen (p.RefersAlso k (.lit 4)) u u) ∧ WellFounded q.Resolves ∧
      q.boundValue? n = some (twice (next (.lit 4))) ∧
      ∀ u, (twice (next (.lit 4))).mentions u = true → q.value? u = none := by
  intro n m k twice next least p q
  have hp : p.BoundOnce := by
    have hfirst : BoundOnce ⟨[(n, twice (.var m))]⟩ := .bind (v := n) (a := twice (.var m)) .empty rfl rfl
    exact .bind (v := m) (a := next (.var k)) hfirst (by decide +kernel) (by rfl)
  have hk : p.value? k = none := by decide +kernel
  have hrefused : p.bind k least = .error ⟨k, least⟩ := by rfl
  have hbound : p.bind k (.lit 4) = .ok q := by rfl
  obtain ⟨hcycle, hunchanged, -⟩ := BoundOnce.bind_exact p hp k hk least
  obtain ⟨hfree, -, hadded⟩ := BoundOnce.bind_exact p hp k hk (.lit 4)
  obtain ⟨-, -, hends, -, hvalues⟩ := hadded q hbound
  have hn : q.boundValue? n = some (twice (next (.lit 4))) := by rfl
  refine ⟨hp, hk, hrefused, (hunchanged _ hrefused).2, fun h => ?_, hbound, hfree.1 ⟨q, hbound⟩, hends, hn, ?_⟩
  · obtain ⟨q', hq'⟩ := hcycle.2 h
    rw [hrefused] at hq'
    cases hq'
  · obtain ⟨c, hc, hmentions⟩ := hvalues n (twice (.var m)) (by decide +kernel)
    obtain rfl := Option.some.inj (hn.symm.trans hc)
    exact hmentions

end Prover
end Dataflow
