import Dataflow.SymInt.Prover
import Mathlib.Data.List.Chain
import Mathlib.Data.List.Induction
import Mathlib.Data.List.Perm.Subperm
import Mathlib.Logic.Relation
import Mathlib.Order.WellFounded
/-!
# Bindings that lead nowhere back

A bound variable refers to the variables of its value.  As long as no chain of references comes back to where it began
(`Acyclic`), and only then, resolving a term comes to an end (`acyclic_iff_wellFounded`): a chain is no longer than the
list of bindings, so the bounded `resolve` and `normalize` are the unbounded ones (`resolve_eq`, `normalize_eq`).

Binding a variable looks for it in the resolved value.  A variable that is bound already is never found there, because
resolving replaces it.  So a first binding keeps the references acyclic, and a repeated one keeps them so if and only if
the value does not lead back (`acyclic_bind_iff`, `acyclic_bindAll_iff`).
-/
namespace Dataflow

open Relation (TransGen ReflTransGen)

namespace SymInt

variable {a : SymInt} {f g : SymVar → SymInt} {v : SymVar}

theorem mentions_binary_iff {op : IntOp} {l r : SymInt} :
    (binary op l r).mentions v = true ↔ l.mentions v = true ∨ r.mentions v = true := by
  rw [mentions, Bool.or_eq_true]

theorem mentions_var_iff {w : SymVar} : (var w).mentions v = true ↔ w = v := by
  rw [mentions, beq_iff_eq]

theorem mentions_subst_iff (a : SymInt) :
    (a.subst f).mentions v = true ↔ ∃ w, a.mentions w = true ∧ (f w).mentions v = true := by
  induction a with
  | lit => simp [subst, mentions]
  | var u => simp [subst, mentions_var_iff]
  | binary op l r hl hr =>
    simp only [subst, mentions_binary_iff, hl, hr, or_and_right, exists_or]

theorem subst_congr (h : ∀ w, a.mentions w = true → f w = g w) : a.subst f = a.subst g := by
  induction a with
  | lit => rfl
  | var u => exact h u (mentions_var_iff.2 rfl)
  | binary op l r hl hr =>
    rw [subst, subst, hl fun w hw => h w (mentions_binary_iff.2 (.inl hw)),
      hr fun w hw => h w (mentions_binary_iff.2 (.inr hw))]

theorem normalizeWith_congr {f g : SymVar → Option Polynomial} (h : ∀ w, a.mentions w = true → f w = g w) :
    a.normalizeWith f = a.normalizeWith g := by
  induction a with
  | lit => rfl
  | var u => exact h u (mentions_var_iff.2 rfl)
  | binary op l r hl hr =>
    rw [normalizeWith, normalizeWith, hl fun w hw => h w (mentions_binary_iff.2 (.inl hw)),
      hr fun w hw => h w (mentions_binary_iff.2 (.inr hw))]

end SymInt

namespace Prover

open SymInt

/-! ## References -/

/-- `v` is bound to a value that mentions `w`. -/
def Refers (p : Prover) (v w : SymVar) : Prop := ∃ b, p.value? v = some b ∧ b.mentions w = true

/-- No chain of references comes back to where it began. -/
def Acyclic (p : Prover) : Prop := ∀ v, ¬TransGen p.Refers v v

/-- The term mentions `v`, or a variable from which references lead to `v`. -/
def LeadsTo (p : Prover) (a : SymInt) (v : SymVar) : Prop := ∃ w, a.mentions w = true ∧ ReflTransGen p.Refers w v

/-- What is resolved in order to resolve a term: its operands, or the value of a bound variable. -/
inductive Resolves (p : Prover) : SymInt → SymInt → Prop
  | left {op : IntOp} {l r : SymInt} : Resolves p l (.binary op l r)
  | right {op : IntOp} {l r : SymInt} : Resolves p r (.binary op l r)
  | value {v : SymVar} {b : SymInt} : p.value? v = some b → Resolves p b (.var v)

/-- The prover after a series of calls, of which those that are refused change nothing. -/
def bindAll (p : Prover) (calls : List (SymVar × SymInt)) : Prover :=
  calls.foldl (fun p call => match p.bind call.1 call.2 with
    | .ok q => q
    | .error _ => p) p

variable {p q : Prover} {a b : SymInt} {v w : SymVar}

theorem refers_iff_of_value? (h : p.value? v = some b) : p.Refers v w ↔ b.mentions w = true := by
  simp [Refers, h]

/-! ## Chains of references are no longer than the list of bindings -/

/-- Every chain of references from `v` leaves the bound variables within `n` steps. -/
def EndsWithin (p : Prover) : Nat → SymVar → Prop
  | 0, v => p.value? v = none
  | n + 1, v => ∀ w, p.Refers v w → p.EndsWithin n w

theorem mem_of_value? (h : p.value? v = some b) : v ∈ p.bindings.map (·.1) := by
  unfold value? at h
  generalize p.bindings = bs at h
  induction bs with
  | nil => cases h
  | cons c cs ih =>
    rw [List.lookup_cons] at h
    split at h
    · rename_i hv
      exact List.mem_map.2 ⟨c, List.mem_cons_self, (beq_iff_eq.1 hv).symm⟩
    · exact List.mem_cons_of_mem _ (ih h)

/-- A chain that does not leave the bound variables within `n` steps has more than `n` of them. -/
theorem exists_chain_of_not_endsWithin : ∀ {n : Nat} {v : SymVar}, ¬p.EndsWithin n v →
    ∃ vs : List SymVar, vs.length = n ∧ (v :: vs).IsChain p.Refers ∧ ∀ w ∈ v :: vs, p.value? w ≠ none
  | 0, v, h => ⟨[], rfl, List.isChain_singleton v, by simpa [EndsWithin] using h⟩
  | n + 1, v, h => by
    rw [EndsWithin] at h
    push Not at h
    obtain ⟨w, hvw, hw⟩ := h
    obtain ⟨vs, hlength, hchain, hbound⟩ := exists_chain_of_not_endsWithin hw
    refine ⟨w :: vs, by rw [List.length_cons, hlength], List.isChain_cons_cons.2 ⟨hvw, hchain⟩, ?_⟩
    refine List.forall_mem_cons.2 ⟨?_, hbound⟩
    obtain ⟨b, hb, -⟩ := hvw
    rw [hb]
    exact Option.some_ne_none b

theorem Acyclic.endsWithin (hp : p.Acyclic) (v : SymVar) : p.EndsWithin p.bindings.length v := by
  by_contra h
  obtain ⟨vs, hlength, hchain, hbound⟩ := exists_chain_of_not_endsWithin h
  -- the variables of a chain are different, so it has no more of them than there are bindings
  have hpairwise : (v :: vs).Pairwise (TransGen p.Refers) :=
    List.isChain_iff_pairwise.1 (hchain.imp fun _ _ => TransGen.single)
  have hne : ∀ u w, TransGen p.Refers u w → u ≠ w := by
    rintro u _ huw rfl
    exact hp u huw
  have hnodup : (v :: vs).Nodup := hpairwise.imp fun huw => hne _ _ huw
  have hsubset : v :: vs ⊆ p.bindings.map (·.1) := fun w hw => by
    obtain ⟨b, hb⟩ := Option.ne_none_iff_exists'.1 (hbound w hw)
    exact mem_of_value? hb
  have hle := (hnodup.subperm hsubset).length_le
  rw [List.length_cons, List.length_map, hlength] at hle
  omega

/-! ## Resolving comes to an end -/

theorem resolveUpTo_eq : ∀ {n m : Nat} {a : SymInt}, n ≤ m → (∀ v, a.mentions v = true → p.EndsWithin n v) →
    p.resolveUpTo m a = p.resolveUpTo n a
  | 0, 0, _, _, _ => rfl
  | 0, m + 1, a, _, ha => by
    have hfree : ∀ v, a.mentions v = true → p.value? v = none := ha
    rw [resolveUpTo, resolveUpTo, ← subst_var a, subst_congr (g := var), subst_var]
    intro v hv
    rw [hfree v (by rwa [subst_var] at hv)]
  | n + 1, m + 1, a, hnm, ha => by
    rw [resolveUpTo, resolveUpTo]
    refine subst_congr fun v hv => ?_
    cases hb : p.value? v with
    | none => rfl
    | some b => exact resolveUpTo_eq (Nat.le_of_succ_le_succ hnm) fun w hw => ha v hv w ⟨b, hb, hw⟩

theorem normalizeUpTo_eq : ∀ {n m : Nat} {a : SymInt}, n ≤ m → (∀ v, a.mentions v = true → p.EndsWithin n v) →
    p.normalizeUpTo m a = p.normalizeUpTo n a
  | 0, 0, _, _, _ => rfl
  | 0, m + 1, a, _, ha => by
    rw [normalizeUpTo, normalizeUpTo]
    refine normalizeWith_congr fun v hv => ?_
    have hfree : p.value? v = none := ha v hv
    rw [hfree]
  | n + 1, m + 1, a, hnm, ha => by
    rw [normalizeUpTo, normalizeUpTo]
    refine normalizeWith_congr fun v hv => ?_
    cases hb : p.value? v with
    | none => rfl
    | some b => exact normalizeUpTo_eq (Nat.le_of_succ_le_succ hnm) fun w hw => ha v hv w ⟨b, hb, hw⟩

/-- Resolving replaces a bound variable by its value and resolves that in turn. -/
theorem Acyclic.resolve_eq (hp : p.Acyclic) (a : SymInt) :
    p.resolve a = a.subst fun v => (p.value? v).elim (.var v) p.resolve := by
  have hmore := resolveUpTo_eq (a := a) (Nat.le_succ p.bindings.length) fun v _ => hp.endsWithin v
  rw [resolve, ← hmore, resolveUpTo]
  refine subst_congr fun v _ => ?_
  cases p.value? v <;> rfl

/-- The normal form of a bound variable is that of its value. -/
theorem Acyclic.normalize_eq (hp : p.Acyclic) (a : SymInt) :
    p.normalize a = a.normalizeWith fun v => (p.value? v).elim (some (.atom (.var v.id))) p.normalize := by
  have hmore := normalizeUpTo_eq (a := a) (Nat.le_succ p.bindings.length) fun v _ => hp.endsWithin v
  rw [normalize, ← hmore, normalizeUpTo]
  refine normalizeWith_congr fun v _ => ?_
  cases p.value? v <;> rfl

/-- Resolving a term comes to an end if it does for the values of the variables in it. -/
theorem acc_of_values (h : ∀ v b, a.mentions v = true → p.value? v = some b → Acc p.Resolves b) : Acc p.Resolves a := by
  induction a with
  | lit => exact ⟨_, fun _ hb => by cases hb⟩
  | var v =>
    refine ⟨_, fun b hb => ?_⟩
    cases hb with
    | value hb => exact h v b (mentions_var_iff.2 rfl) hb
  | binary op l r hl hr =>
    refine ⟨_, fun b hb => ?_⟩
    cases hb with
    | left => exact hl fun v b hv => h v b (mentions_binary_iff.2 (.inl hv))
    | right => exact hr fun v b hv => h v b (mentions_binary_iff.2 (.inr hv))

theorem acc_resolves : ∀ {n : Nat} {a : SymInt}, (∀ v, a.mentions v = true → p.EndsWithin n v) → Acc p.Resolves a
  | 0, a, ha => acc_of_values fun v b hv hb => by
    have hfree : p.value? v = none := ha v hv
    rw [hfree] at hb
    cases hb
  | n + 1, a, ha => acc_of_values fun v b hv hb => acc_resolves fun w hw => ha v hv w ⟨b, hb, hw⟩

/-- A term is resolved after the variables in it. -/
theorem reflTransGen_resolves_of_mentions (h : a.mentions v = true) : ReflTransGen p.Resolves (.var v) a := by
  induction a with
  | lit => cases h
  | var w => rw [mentions_var_iff.1 h]
  | binary op l r hl hr =>
    rcases mentions_binary_iff.1 h with h | h
    · exact (hl h).tail .left
    · exact (hr h).tail .right

theorem transGen_resolves_of_refers (h : TransGen p.Refers v w) : TransGen p.Resolves (.var w) (.var v) := by
  have hstep : ∀ {v w}, p.Refers v w → TransGen p.Resolves (.var w) (.var v) := fun ⟨b, hb, hw⟩ =>
    TransGen.tail' (reflTransGen_resolves_of_mentions hw) (.value hb)
  induction h with
  | single h => exact hstep h
  | tail _ h ih => exact (hstep h).trans ih

/-- **Resolving comes to an end for every term if and only if no references lead back.** -/
theorem acyclic_iff_wellFounded (p : Prover) : p.Acyclic ↔ WellFounded p.Resolves := by
  constructor
  · exact fun hp => ⟨fun a => acc_resolves fun v _ => hp.endsWithin v⟩
  · exact fun h v hv => h.transGen.irrefl.irrefl _ (transGen_resolves_of_refers hv)

/-! ## Binding a variable -/

theorem reaches_iff_of_unbound (h : p.value? w = none) : ReflTransGen p.Refers w v ↔ w = v := by
  rw [ReflTransGen.cases_head_iff]
  refine or_iff_left ?_
  rintro ⟨u, ⟨b, hb, -⟩, -⟩
  rw [h] at hb
  cases hb

theorem reaches_iff_of_value? (h : p.value? w = some b) : ReflTransGen p.Refers w v ↔ w = v ∨ p.LeadsTo b v := by
  rw [ReflTransGen.cases_head_iff, LeadsTo]
  simp only [refers_iff_of_value? h]

/-- A resolved term mentions the unbound variables that the references from it lead to. -/
theorem mentions_resolveUpTo_iff : ∀ {n : Nat} {a : SymInt}, (∀ w, a.mentions w = true → p.EndsWithin n w) →
    ((p.resolveUpTo n a).mentions v = true ↔ p.value? v = none ∧ p.LeadsTo a v)
  | 0, a, ha => by
    have hfree : ∀ w, a.mentions w = true → p.value? w = none := ha
    rw [resolveUpTo, LeadsTo]
    constructor
    · exact fun hv => ⟨hfree v hv, v, hv, .refl⟩
    · rintro ⟨-, w, hw, hwv⟩
      rwa [← (reaches_iff_of_unbound (hfree w hw)).1 hwv]
  | n + 1, a, ha => by
    have hvalue : ∀ w, a.mentions w = true → ((p.resolveUpTo (n + 1) (.var w)).mentions v = true ↔
        p.value? v = none ∧ ReflTransGen p.Refers w v) := by
      intro w hw
      rw [resolveUpTo, SymInt.subst]
      cases hb : p.value? w with
      | none =>
        rw [mentions_var_iff, reaches_iff_of_unbound hb]
        exact ⟨fun h => ⟨h ▸ hb, h⟩, fun h => h.2⟩
      | some b =>
        rw [mentions_resolveUpTo_iff fun u hu => ha w hw u ⟨b, hb, hu⟩, reaches_iff_of_value? hb]
        refine and_congr_right fun hv => (or_iff_right ?_).symm
        rintro rfl
        rw [hb] at hv
        cases hv
    rw [resolveUpTo, mentions_subst_iff]
    constructor
    · rintro ⟨w, hw, hv⟩
      obtain ⟨hfree, hwv⟩ := (hvalue w hw).1 hv
      exact ⟨hfree, w, hw, hwv⟩
    · rintro ⟨hfree, w, hw, hwv⟩
      exact ⟨w, hw, (hvalue w hw).2 ⟨hfree, hwv⟩⟩

theorem Acyclic.mentions_resolve_iff (hp : p.Acyclic) (a : SymInt) (v : SymVar) :
    (p.resolve a).mentions v = true ↔ p.value? v = none ∧ p.LeadsTo a v :=
  mentions_resolveUpTo_iff fun w _ => hp.endsWithin w

/-- Only an unbound variable is ever refused, and it is if the value leads back to it. -/
theorem Acyclic.bind_isOk_iff (hp : p.Acyclic) (v : SymVar) (a : SymInt) :
    (∃ q, p.bind v a = .ok q) ↔ (p.value? v = none → ¬p.LeadsTo a v) := by
  have hresolve := hp.mentions_resolve_iff a v
  rw [bind]
  split
  · rename_i hmentions
    obtain ⟨hfree, hleads⟩ := hresolve.1 hmentions
    exact ⟨fun ⟨q, hq⟩ => absurd hq (by simp), fun h => absurd hleads (h hfree)⟩
  · rename_i hmentions
    exact ⟨fun _ hfree hleads => hmentions (hresolve.2 ⟨hfree, hleads⟩), fun _ => ⟨_, rfl⟩⟩

theorem refers_iff_of_bind (h : p.bind v a = .ok q) (u w : SymVar) :
    q.Refers u w ↔ if u = v then a.mentions w = true else p.Refers u w := by
  rw [Refers, Refers, value?_of_bind h]
  split <;> simp

section
variable {α : Type} {r s : α → α → Prop} {x y z : α}

/-- A way to `z` is also one for a relation that only differs in what it says of `z`. -/
theorem reaches_of_agree (h : ∀ x y, x ≠ z → r x y → s x y) (hxz : ReflTransGen r x z) : ReflTransGen s x z := by
  induction hxz using ReflTransGen.head_induction_on with
  | refl => exact .refl
  | @head x y hxy _ ih =>
    by_cases hx : x = z
    · rw [hx]
    · exact ih.head (h x y hx hxy)

/-- A way passes `z`, or is also one for a relation that only differs in what it says of `z`. -/
theorem passes_or_agrees (h : ∀ x y, x ≠ z → r x y → s x y) (hxy : TransGen r x y) :
    TransGen s x y ∨ (ReflTransGen r x z ∧ TransGen r z y) := by
  induction hxy with
  | @single y hxy =>
    by_cases hx : x = z
    · exact .inr ⟨hx ▸ .refl, .single (hx ▸ hxy)⟩
    · exact .inl (.single (h x y hx hxy))
  | @tail y w hxy hyw ih =>
    by_cases hy : y = z
    · exact .inr ⟨hy ▸ hxy.to_reflTransGen, .single (hy ▸ hyw)⟩
    · rcases ih with ih | ⟨hxz, hzy⟩
      · exact .inl (ih.tail (h y w hy hyw))
      · exact .inr ⟨hxz, hzy.tail hyw⟩

/-- A relation without cycles that is changed in what it says of `z` has none still if and only if nothing that `z` is
related to now leads back to `z`. -/
theorem acyclic_iff_of_agree (hr : ∀ x, ¬TransGen r x x) (h : ∀ x y, x ≠ z → (s x y ↔ r x y)) :
    (∀ x, ¬TransGen s x x) ↔ ¬∃ y, s z y ∧ ReflTransGen r y z := by
  constructor
  · rintro hs ⟨y, hzy, hyz⟩
    exact hs z (TransGen.head' hzy (reaches_of_agree (fun x y hx => (h x y hx).2) hyz))
  · intro hleads x hx
    rcases passes_or_agrees (fun x y hx => (h x y hx).1) hx with hx | ⟨hxz, hzx⟩
    · exact hr x hx
    · obtain ⟨y, hzy, hyz⟩ := TransGen.head'_iff.1 (hzx.trans_left hxz)
      exact hleads ⟨y, hzy, reaches_of_agree (fun x y hx => (h x y hx).1) hyz⟩

end

/-- **A binding keeps the references acyclic if and only if the value does not lead back to the variable.** -/
theorem Acyclic.acyclic_bind_iff (hp : p.Acyclic) (h : p.bind v a = .ok q) : q.Acyclic ↔ ¬p.LeadsTo a v := by
  have hrefers := refers_iff_of_bind h
  have hsame : ∀ u w, u ≠ v → (q.Refers u w ↔ p.Refers u w) := fun u w hu => by rw [hrefers, if_neg hu]
  have hnew : ∀ w, q.Refers v w ↔ a.mentions w = true := fun w => by rw [hrefers, if_pos rfl]
  rw [Acyclic, acyclic_iff_of_agree hp hsame, LeadsTo]
  simp only [hnew]

/-! ## Series of calls -/

theorem acyclic_empty : empty.Acyclic := fun v hv => by
  obtain ⟨w, ⟨b, hb, -⟩, -⟩ := TransGen.head'_iff.1 hv
  cases hb

theorem bindAll_concat (p : Prover) (calls : List (SymVar × SymInt)) (v : SymVar) (a : SymInt) :
    p.bindAll (calls ++ [(v, a)]) = match (p.bindAll calls).bind v a with
      | .ok q => q
      | .error _ => p.bindAll calls := by
  rw [bindAll, List.foldl_append]
  rfl

/-- After one more call the references are acyclic still, unless it gives a bound variable a value that leads back. -/
theorem Acyclic.acyclic_bindAll_concat_iff {calls : List (SymVar × SymInt)} (hp : (p.bindAll calls).Acyclic)
    (v : SymVar) (a : SymInt) : (p.bindAll (calls ++ [(v, a)])).Acyclic ↔
      ((p.bindAll calls).value? v ≠ none → ¬(p.bindAll calls).LeadsTo a v) := by
  have hok := hp.bind_isOk_iff v a
  rw [bindAll_concat]
  split
  · rename_i q hq
    have hunbound := hok.1 ⟨q, hq⟩
    rw [hp.acyclic_bind_iff hq]
    exact ⟨fun h _ => h, fun h => (em _).elim hunbound h⟩
  · rename_i hrefused
    refine ⟨fun _ hbound => absurd (hok.2 fun hfree => absurd hfree hbound) ?_, fun _ => hp⟩
    rintro ⟨q, hq⟩
    rw [hrefused] at hq
    cases hq

/-- **What keeps bindings from leading back.**  In a series of calls on an empty prover the references are acyclic all
the time if and only if no call gives a variable that is bound already a value that leads back to it; first bindings do
no harm, and neither do calls that are refused.  As long as they are acyclic, and only then, resolving any term comes to
an end, and resolved terms and normal forms take the values of the bound variables in turn. -/
theorem acyclic_bindAll_iff (calls : List (SymVar × SymInt)) :
    ((∀ before, before <+: calls → (empty.bindAll before).Acyclic) ↔
      ∀ before v a, before ++ [(v, a)] <+: calls → (empty.bindAll before).value? v ≠ none →
        ¬(empty.bindAll before).LeadsTo a v) ∧
    (∀ p : Prover, p.Acyclic ↔ WellFounded p.Resolves) ∧
    ∀ p : Prover, p.Acyclic → ∀ a,
      p.resolve a = a.subst (fun v => (p.value? v).elim (.var v) p.resolve) ∧
      p.normalize a = a.normalizeWith fun v => (p.value? v).elim (some (.atom (.var v.id))) p.normalize := by
  refine ⟨⟨fun h before v a hbefore => ?_, fun h before => ?_⟩, acyclic_iff_wellFounded,
    fun p hp a => ⟨hp.resolve_eq a, hp.normalize_eq a⟩⟩
  · exact ((h before ((List.prefix_append _ _).trans hbefore)).acyclic_bindAll_concat_iff v a).1 (h _ hbefore)
  · induction before using List.reverseRecOn with
    | nil => exact fun _ => acyclic_empty
    | append_singleton before call ih =>
      intro hbefore
      have hacyclic := ih ((List.prefix_append _ _).trans hbefore)
      exact (hacyclic.acyclic_bindAll_concat_iff call.1 call.2).2 (h before call.1 call.2 hbefore)

/-- `n` is bound to `m`, which is then refused `n + 1`, and `n` is bound again to 5: nothing leads back at any time, and
`n + m` is resolved to `5 + m` in the end. -/
theorem acyclic_bindAll_of_harmless_rebinding :
    let n : SymVar := ⟨0, "n"⟩
    let m : SymVar := ⟨1, "m"⟩
    let next := SymInt.binary .add (.var n) (.lit 1)
    let calls := [(n, .var m), (m, next), (n, .lit 5)]
    (∀ before, before <+: calls → (empty.bindAll before).Acyclic) ∧ empty.bindAll calls = ⟨[(n, .lit 5)]⟩ ∧
      WellFounded (empty.bindAll calls).Resolves ∧
      (empty.bindAll calls).resolve (.binary .add (.var n) (.var m)) = .binary .add (.lit 5) (.var m) := by
  intro n m next calls
  obtain ⟨hcalls, hwellFounded, hequations⟩ := acyclic_bindAll_iff calls
  have hbinds : empty.bindAll calls = ⟨[(n, .lit 5)]⟩ := by decide +kernel
  have hacyclic : ∀ before, before <+: calls → (empty.bindAll before).Acyclic := by
    refine hcalls.2 fun before v a hbefore hbound => ?_
    rcases before with _ | ⟨first, _ | ⟨second, _ | ⟨third, rest⟩⟩⟩
    · exact absurd rfl hbound
    · simp only [calls, List.cons_append, List.nil_append, List.cons_prefix_cons, Prod.mk.injEq] at hbefore
      obtain ⟨rfl, ⟨rfl, rfl⟩, -⟩ := hbefore
      exact absurd (by decide +kernel) hbound
    · simp only [calls, List.cons_append, List.nil_append, List.cons_prefix_cons, Prod.mk.injEq] at hbefore
      obtain ⟨rfl, rfl, ⟨rfl, rfl⟩, -⟩ := hbefore
      rintro ⟨w, hw, -⟩
      cases hw
    · have hlength := hbefore.length_le
      simp only [calls, List.length_append, List.length_cons, List.length_nil] at hlength
      omega
  have hlast := hacyclic calls (List.prefix_refl _)
  refine ⟨hacyclic, hbinds, (hwellFounded _).1 hlast, ?_⟩
  rw [(hequations _ hlast _).1, hbinds]
  rfl

/-- A repeated binding that leads back is accepted.  With `n` bound to 5 and `m` to `n`, the value `m` is resolved to 5
before it replaces the 5, and then resolving either variable does not come to an end. -/
theorem bindAll_not_acyclic :
    let n : SymVar := ⟨0, "n"⟩
    let m : SymVar := ⟨1, "m"⟩
    let calls := [(n, .lit 5), (m, .var n), (n, .var m)]
    (empty.bindAll [(n, .lit 5), (m, .var n)]).bind n (.var m) = .ok (empty.bindAll calls) ∧
      empty.bindAll calls = ⟨[(n, .var m), (m, .var n)]⟩ ∧ ¬(empty.bindAll calls).Acyclic ∧
      ¬WellFounded (empty.bindAll calls).Resolves := by
  intro n m calls
  have hbinds : empty.bindAll calls = ⟨[(n, .var m), (m, .var n)]⟩ := by decide +kernel
  have hcyclic : ¬(empty.bindAll calls).Acyclic := by
    have hn : (empty.bindAll calls).Refers n m := ⟨.var m, by rw [hbinds]; rfl, by decide⟩
    have hm : (empty.bindAll calls).Refers m n := ⟨.var n, by rw [hbinds]; decide +kernel, by decide⟩
    exact fun h => h n (.head hn (.single hm))
  exact ⟨by rfl, hbinds, hcyclic, fun h => hcyclic ((acyclic_iff_wellFounded _).2 h)⟩

end Prover
end Dataflow
