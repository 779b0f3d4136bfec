import Dataflow.Match.Reassociate
import Mathlib.Data.List.Nodup
import Mathlib.Tactic.Common
/-!
# The parts of a pattern and their identities

The patterns that a matcher is given have identities of their own, one for each (`Numbered`).  During a match there
are also patterns made by re-association; `Plain n` says of a pattern that nothing in it has the identity of something
it is made of, and that the identities made during the match are below `n`.  Re-association with new identities keeps
that (`plain_of_mem_reassociations`).
-/
namespace Dataflow
namespace Pattern

inductive Reaches (root : Pattern) : Pattern → Prop
  | refl : Reaches root root
  | child {p q : Pattern} : Reaches root p → q ∈ p.children → Reaches root q

/-- Identities as they are before a match: all given, and each to one pattern. -/
structure Numbered (root : Pattern) : Prop where
  given : ∀ p, root.Reaches p → ∃ n, p.id = .given n
  coherent : ∀ p q, root.Reaches p → root.Reaches q → p.id = q.id → p = q

section
variable {p q r d : Pattern}

theorem Reaches.trans (hp : p.Reaches q) (hq : q.Reaches d) : p.Reaches d := by
  induction hq with
  | refl => exact hp
  | child _ hc ih => exact .child ih hc

theorem reaches_iff : p.Reaches d ↔ d = p ∨ ∃ q ∈ p.children, q.Reaches d := by
  constructor
  · intro h
    induction h with
    | refl => exact .inl rfl
    | child _ hc ih =>
      rcases ih with rfl | ⟨q, hq, hqd⟩
      · exact .inr ⟨_, hc, .refl⟩
      · exact .inr ⟨q, hq, .child hqd hc⟩
  · rintro (rfl | ⟨q, hq, hqd⟩)
    · exact .refl
    · exact (Reaches.refl.child hq).trans hqd

theorem Reaches.mem_of_closed {ps : List Pattern} (h : p.Reaches q) (hp : p ∈ ps)
    (hps : ∀ q ∈ ps, ∀ r ∈ q.children, r ∈ ps) : q ∈ ps := by
  induction h with
  | refl => exact hp
  | child _ hc ih => exact hps _ ih _ hc

/-- A pattern is numbered when it stands in a list that holds everything its patterns are made of, and in which no
identity occurs twice or was made during a match. -/
theorem numbered_of_closed {ps : List Pattern} (hp : p ∈ ps) (hps : ∀ q ∈ ps, ∀ r ∈ q.children, r ∈ ps)
    (hgiven : ∀ q ∈ ps, ∃ n, q.id = .given n) (hid : (ps.map Pattern.id).Nodup) : p.Numbered :=
  ⟨fun q hq => hgiven q (hq.mem_of_closed hp hps),
    fun _ _ hq hr => List.inj_on_of_nodup_map hid (hq.mem_of_closed hp hps) (hr.mem_of_closed hp hps)⟩

theorem size_le_sizes_of_mem : ∀ {ps : List Pattern}, p ∈ ps → p.size ≤ sizes ps
  | _ :: _, .head _ => Nat.le_add_right ..
  | _ :: _, .tail _ h => Nat.le_trans (size_le_sizes_of_mem h) (Nat.le_add_left ..)

theorem size_lt_of_mem_children (h : q ∈ p.children) : q.size < p.size := by
  have := size_le_sizes_of_mem h
  have := p.sizes_children
  omega

theorem Reaches.size_le (h : p.Reaches d) : d.size ≤ p.size := by
  induction h with
  | refl => exact Nat.le_refl _
  | child _ hc ih => exact Nat.le_trans (Nat.le_of_lt (size_lt_of_mem_children hc)) ih

theorem Reaches.antisymm (h : p.Reaches d) (h' : d.Reaches p) : p = d := by
  rcases reaches_iff.1 h with rfl | ⟨q, hq, hqd⟩
  · rfl
  · have := size_lt_of_mem_children hq
    have := hqd.size_le
    have := h'.size_le
    omega

theorem anyContainsDominator_of_mem : ∀ {ps : List Pattern}, q ∈ ps → q.containsDominator = true →
    anyContainsDominator ps = true
  | _ :: _, .head _, h => by rw [anyContainsDominator, h, Bool.or_true]
  | _ :: _, .tail _ hq, h => by rw [anyContainsDominator, anyContainsDominator_of_mem hq h, Bool.true_or]

theorem containsDominator_of_mem_children (hq : q ∈ p.children) (h : q.containsDominator = true) :
    p.containsDominator = true := by
  cases p with
  | dominator => rw [containsDominator]
  | tuple _ ps => exact anyContainsDominator_of_mem hq h
  | call _ callee ps =>
    rcases List.mem_cons.1 hq with rfl | hq
    · rw [containsDominator, h, Bool.or_true]
    · rw [containsDominator, anyContainsDominator_of_mem hq h, Bool.true_or]
  | function _ ps body =>
    rcases List.mem_append.1 hq with hq | hq
    · rw [containsDominator, anyContainsDominator_of_mem hq h, Bool.or_true]
    · obtain rfl := List.mem_singleton.1 hq
      rw [containsDominator, h, Bool.true_or]
  | either | both | negation | item | anyFunction | cond | anyCall | hasAttrs | hasType | hasShape | hasDType =>
    simp only [children, List.mem_cons, List.not_mem_nil, or_false] at hq
    grind [containsDominator]
  | _ => cases hq

theorem containsDominator_eq_false_of_mem_children (hq : q ∈ p.children) (h : p.containsDominator = false) :
    q.containsDominator = false := by
  by_contra hd
  rw [containsDominator_of_mem_children hq (by simpa using hd)] at h
  cases h

theorem containsDominator_eq_false_of_reaches (hd : p.Reaches d) (h : p.containsDominator = false) :
    d.containsDominator = false := by
  induction hd with
  | refl => exact h
  | child _ hc ih => exact containsDominator_eq_false_of_mem_children hc ih

theorem exists_mem_of_anyContainsDominator : ∀ {ps : List Pattern}, anyContainsDominator ps = true →
    ∃ q ∈ ps, q.containsDominator = true
  | p :: ps, h => by
    rw [anyContainsDominator, Bool.or_eq_true] at h
    rcases h with h | h
    · obtain ⟨q, hq, hd⟩ := exists_mem_of_anyContainsDominator h
      exact ⟨q, List.mem_cons_of_mem p hq, hd⟩
    · exact ⟨p, List.mem_cons_self, h⟩

/-- Where a dominator pattern is counted, there is one. -/
theorem exists_reaches_of_containsDominator {p : Pattern} (h : p.containsDominator = true) :
    ∃ i child path parent, p.Reaches (.dominator i child path parent) := by
  have hpart : ∀ q ∈ p.children, q.containsDominator = true →
      ∃ i child path parent, p.Reaches (.dominator i child path parent) := fun q hq hd => by
    obtain ⟨i, child, path, parent, hr⟩ := exists_reaches_of_containsDominator hd
    exact ⟨i, child, path, parent, (Reaches.refl.child hq).trans hr⟩
  have hall : ∀ {ps : List Pattern}, (∀ q ∈ ps, q ∈ p.children) → anyContainsDominator ps = true →
      ∃ i child path parent, p.Reaches (.dominator i child path parent) := fun hps hd => by
    obtain ⟨q, hq, hd⟩ := exists_mem_of_anyContainsDominator hd
    exact hpart q (hps q hq) hd
  cases p with
  | dominator i child path parent => exact ⟨i, child, path, parent, .refl⟩
  | tuple => exact hall (fun _ hq => hq) h
  | call | function =>
    rw [containsDominator, Bool.or_eq_true] at h
    rcases h with h | h
    all_goals first
    | exact hpart _ (by simp [children]) h
    | exact hall (fun q hq => by simp [children, hq]) h
  | either | both =>
    rw [containsDominator, Bool.or_eq_true] at h
    rcases h with h | h <;> exact hpart _ (by simp [children]) h
  | cond =>
    rw [containsDominator, Bool.or_eq_true, Bool.or_eq_true] at h
    rcases h with h | h | h <;> exact hpart _ (by simp [children]) h
  | negation | item | anyFunction | anyCall | hasAttrs | hasType | hasShape | hasDType =>
    exact hpart _ (List.mem_singleton_self _) h
  | _ => cases h
termination_by p.size
decreasing_by exact size_lt_of_mem_children hq

def Uses (p : Pattern) (i : PatternId) : Prop := ∃ d, p.Reaches d ∧ d.id = i

/-- The identity is that of something a pattern is made of. -/
def UsesWithin (p : Pattern) (i : PatternId) : Prop := ∃ q ∈ p.children, q.Uses i

theorem uses_iff {i : PatternId} : p.Uses i ↔ i = p.id ∨ p.UsesWithin i := by
  constructor
  · rintro ⟨d, hd, rfl⟩
    exact (reaches_iff.1 hd).imp (fun h => by rw [h]) fun ⟨q, hq, hqd⟩ => ⟨q, hq, d, hqd, rfl⟩
  · rintro (rfl | ⟨q, hq, d, hqd, rfl⟩)
    · exact ⟨p, .refl, rfl⟩
    · exact ⟨d, reaches_iff.2 (.inr ⟨q, hq, hqd⟩), rfl⟩

/-- Something a pattern is made of. -/
def Within (p d : Pattern) : Prop := ∃ q ∈ p.children, q.Reaches d

theorem Within.reaches (h : p.Within d) : p.Reaches d := by
  obtain ⟨q, hq, hd⟩ := h
  exact reaches_iff.2 (.inr ⟨q, hq, hd⟩)

theorem not_within_self (p : Pattern) : ¬p.Within p := by
  rintro ⟨q, hq, hd⟩
  have hsmaller := size_lt_of_mem_children hq
  have hle := hd.size_le
  omega

/-! ## Identities during a match -/

/-- A pattern to be matched when the identities made so far are below `n`. -/
structure Plain (n : Nat) (p : Pattern) : Prop where
  noDominator : p.containsDominator = false
  below : ∀ k, p.Uses (.derived k) → k < n
  apart : ∀ q, p.Reaches q → ¬q.UsesWithin q.id

variable {m n k : Nat}

theorem Plain.mono (h : p.Plain m) (hmn : m ≤ n) : p.Plain n :=
  ⟨h.noDominator, fun k hk => Nat.lt_of_lt_of_le (h.below k hk) hmn, h.apart⟩

theorem Plain.child (h : p.Plain n) (hq : q ∈ p.children) : q.Plain n := by
  refine ⟨containsDominator_eq_false_of_mem_children hq h.noDominator, fun k hk => ?_, fun d hd => ?_⟩
  · exact h.below k (uses_iff.2 (.inr ⟨q, hq, hk⟩))
  · exact h.apart d (reaches_iff.2 (.inr ⟨q, hq, hd⟩))

theorem Numbered.reaches (h : p.Numbered) (hq : p.Reaches q) : q.Numbered :=
  ⟨fun d hd => h.given d (hq.trans hd), fun d r hd hr => h.coherent d r (hq.trans hd) (hq.trans hr)⟩

/-- A pattern from outside is not made of itself. -/
theorem Numbered.not_usesWithin (h : p.Numbered) : ¬p.UsesWithin p.id := by
  rintro ⟨q, hq, d, hd, hid⟩
  obtain rfl := h.coherent d p ((Reaches.refl.child hq).trans hd) .refl hid
  exact d.not_within_self ⟨q, hq, hd⟩

theorem Numbered.not_uses_derived (h : p.Numbered) (k : Nat) : ¬p.Uses (.derived k) := by
  rintro ⟨d, hd, hid⟩
  obtain ⟨j, hj⟩ := h.given d hd
  rw [hj] at hid
  cases hid

theorem id_derive (k : Nat) (callee a b : Pattern) : (derive k callee a b).id = .derived k := rfl

theorem children_derive (k : Nat) (callee a b : Pattern) : (derive k callee a b).children = [callee, a, b] := rfl

theorem reaches_derive {callee a b : Pattern} : (derive k callee a b).Reaches d ↔
    d = derive k callee a b ∨ callee.Reaches d ∨ a.Reaches d ∨ b.Reaches d := by
  rw [reaches_iff, children_derive]
  simp

theorem uses_derive {callee a b : Pattern} {i : PatternId} :
    (derive k callee a b).Uses i ↔ i = .derived k ∨ callee.Uses i ∨ a.Uses i ∨ b.Uses i := by
  rw [uses_iff, UsesWithin, children_derive]
  simp [id_derive]

theorem Plain.derive {callee a b : Pattern} (hc : callee.Plain m) (ha : a.Plain m) (hb : b.Plain m) (hm : m ≤ k) :
    (derive k callee a b).Plain (k + 1) := by
  have hparts : ∀ j, (callee.Uses (.derived j) ∨ a.Uses (.derived j) ∨ b.Uses (.derived j)) → j < m := by
    rintro j (h | h | h)
    · exact hc.below j h
    · exact ha.below j h
    · exact hb.below j h
  refine ⟨?_, fun j hj => ?_, fun q hq hw => ?_⟩
  · simp [Pattern.derive, containsDominator, anyContainsDominator, hc.noDominator, ha.noDominator, hb.noDominator]
  · rcases uses_derive.1 hj with hj | hj
    · cases hj
      omega
    · have := hparts j hj
      omega
  · rcases reaches_iff.1 hq with rfl | ⟨r, hr, hrq⟩
    · have : k < m := hparts k (by simpa [UsesWithin, children_derive, id_derive] using hw)
      omega
    · simp only [children_derive, List.mem_cons, List.not_mem_nil, or_false] at hr
      rcases hr with rfl | rfl | rfl
      · exact hc.apart q hrq hw
      · exact ha.apart q hrq hw
      · exact hb.apart q hrq hw

theorem Within.usesWithin {i : PatternId} (h : p.Within d) (hd : d.Uses i) : p.UsesWithin i := by
  obtain ⟨q, hq, hqd⟩ := h
  obtain ⟨b, hb, hid⟩ := hd
  exact ⟨q, hq, b, hqd.trans hb, hid⟩

theorem Plain.reaches (h : p.Plain n) (hd : p.Reaches d) : d.Plain n := by
  induction hd with
  | refl => exact h
  | child _ hc ih => exact ih.child hc

theorem children_of_operands? {name : String} {callee a b : Pattern} (h : p.operands? name = some (callee, a, b)) :
    p.children = [callee, a, b] := by
  unfold operands? at h
  split at h
  · split at h
    · cases h
      rfl
    · cases h
  · cases h

theorem callee_of_operands? {name : String} {i : PatternId} {callee f a b : Pattern} {ps : List Pattern}
    (h : (call i callee ps).operands? name = some (f, a, b)) : callee = f :=
  (List.cons.inj (children_of_operands? h)).1

theorem isSome_operator?_of_operands? {name : String} {callee a b : Pattern}
    (h : p.operands? name = some (callee, a, b)) : callee.operator?.isSome = true := by
  obtain ⟨o, ho, -⟩ := (Option.any_eq_true _ _).1 (operator?_of_operands? h)
  rw [ho, Option.isSome_some]

/-- The operands of a pattern and those of one of them are within it. -/
theorem within_of_operands? {name name' : String} {callee a b callee' a' b' : Pattern}
    (hp : p.operands? name = some (callee, a, b)) (hq : q ∈ [a, b])
    (hq' : q.operands? name' = some (callee', a', b')) : ∀ d ∈ [callee, a, b, callee', a', b'], p.Within d := by
  have hchild : ∀ d ∈ [callee, a, b], p.Within d := fun d hd => ⟨d, children_of_operands? hp ▸ hd, .refl⟩
  have hinner : ∀ d ∈ [callee', a', b'], p.Within d := fun d hd =>
    ⟨q, children_of_operands? hp ▸ List.mem_cons_of_mem _ hq, Reaches.refl.child (children_of_operands? hq' ▸ hd)⟩
  exact List.forall_mem_append.2 ⟨hchild, hinner⟩

/-- The patterns that re-association makes, with the identities that they take. -/
inductive Reassociated (n : Nat) (p : Pattern) : Pattern → Prop
  | second {divOp mulOp product a b c : Pattern} : p.operands? "divide" = some (divOp, product, c) →
      product.operands? "multiply" = some (mulOp, a, b) →
      Reassociated n p (derive (n + 1) mulOp b (derive n divOp a c))
  | first {divOp mulOp product a b c : Pattern} : p.operands? "divide" = some (divOp, product, c) →
      product.operands? "multiply" = some (mulOp, a, b) →
      Reassociated n p (derive (n + 3) mulOp a (derive (n + 2) divOp b c))
  | left {divOp mulOp quotient a b c : Pattern} : p.operands? "multiply" = some (mulOp, quotient, c) →
      quotient.operands? "divide" = some (divOp, a, b) →
      Reassociated n p (derive (n + 1) divOp (derive n mulOp a c) b)
  | right {divOp mulOp quotient a b c : Pattern} : p.operands? "multiply" = some (mulOp, c, quotient) →
      quotient.operands? "divide" = some (divOp, a, b) →
      Reassociated n p (derive (n + 1) divOp (derive n mulOp a c) b)

theorem reassociated_of_mem {e : Expr} (h : q ∈ reassociations n p e) : Reassociated n p q := by
  unfold reassociations at h
  split at h
  · rename_i hp
    split at h
    · rename_i hm
      split at h
      · simp only [List.mem_cons, List.not_mem_nil, or_false] at h
        rcases h with rfl | rfl
        · exact .second hp hm
        · exact .first hp hm
      · cases h
    · cases h
  · split at h
    · rename_i hp
      split at h
      · split at h
        · rename_i hd
          obtain rfl := List.mem_singleton.1 h
          exact .left hp hd
        · rename_i hd
          obtain rfl := List.mem_singleton.1 h
          exact .right hp hd
        · cases h
      · cases h
    · cases h

/-- Only calls of an operator that the pattern refers to literally have re-associations. -/
theorem operator?_of_mem_reassociations {i : PatternId} {callee : Pattern} {ps : List Pattern} {e : Expr}
    (h : q ∈ reassociations n (call i callee ps) e) : callee.operator?.isSome = true := by
  cases reassociated_of_mem h with
  | second hp | first hp | left hp | right hp =>
    rw [callee_of_operands? hp]
    exact isSome_operator?_of_operands? hp

/-- A re-association has two new calls, one inside the other, and is made of what the pattern is made of. -/
theorem exists_derive_of_mem_reassociations {e : Expr} (h : q ∈ reassociations n p e) :
    ∃ k f g x y z, n ≤ k ∧ k + 2 ≤ n + reassociationIds ∧ (∀ d ∈ [f, g, x, y, z], p.Within d) ∧
      (q = derive (k + 1) f x (derive k g y z) ∨ q = derive (k + 1) f (derive k g x y) z) := by
  cases reassociated_of_mem h with
  | @second divOp mulOp product a b c hp hm =>
    have hw := within_of_operands? hp (by simp) hm
    exact ⟨n, mulOp, divOp, b, a, c, by omega, by simp [reassociationIds], by grind, .inl rfl⟩
  | @first divOp mulOp product a b c hp hm =>
    have hw := within_of_operands? hp (by simp) hm
    exact ⟨n + 2, mulOp, divOp, a, b, c, by omega, by simp [reassociationIds], by grind, .inl rfl⟩
  | @left divOp mulOp quotient a b c hp hd | @right divOp mulOp quotient a b c hp hd =>
    have hw := within_of_operands? hp (by simp) hd
    exact ⟨n, divOp, mulOp, a, c, b, by omega, by simp [reassociationIds], by grind, .inr rfl⟩

/-- Besides its two new calls, a re-association is made of what is within the pattern. -/
theorem reaches_of_mem_reassociations {e : Expr} (h : q ∈ reassociations n p e) :
    ∃ k f a b g x y, n ≤ k ∧ k + 2 ≤ n + reassociationIds ∧ q = derive (k + 1) f a b ∧
      ∀ d, q.Reaches d → d = q ∨ d = derive k g x y ∨ p.Within d := by
  obtain ⟨k, f, g, x, y, z, hnk, hk, hw, hq⟩ := exists_derive_of_mem_reassociations h
  have hwithin : ∀ r ∈ [f, g, x, y, z], ∀ d, r.Reaches d → p.Within d := fun r hr d hd => by
    obtain ⟨s, hs, hsr⟩ := hw r hr
    exact ⟨s, hs, hsr.trans hd⟩
  simp only [List.forall_mem_cons, List.not_mem_nil, false_implies, implies_true, and_true] at hwithin
  obtain ⟨hf, hg, hx, hy, hz⟩ := hwithin
  rcases hq with rfl | rfl
  · refine ⟨k, f, x, derive k g y z, g, y, z, hnk, hk, rfl, fun d hd => ?_⟩
    rcases reaches_derive.1 hd with rfl | hd | hd | hd
    · exact .inl rfl
    · exact .inr (.inr (hf d hd))
    · exact .inr (.inr (hx d hd))
    · exact .inr ((reaches_derive.1 hd).imp_right fun h => h.elim (hg d) fun h => h.elim (hy d) (hz d))
  · refine ⟨k, f, derive k g x y, z, g, x, y, hnk, hk, rfl, fun d hd => ?_⟩
    rcases reaches_derive.1 hd with rfl | hd | hd | hd
    · exact .inl rfl
    · exact .inr (.inr (hf d hd))
    · exact .inr ((reaches_derive.1 hd).imp_right fun h => h.elim (hg d) fun h => h.elim (hx d) (hy d))
    · exact .inr (.inr (hz d hd))

/-- What a re-association is made of besides calls that are new, the pattern is made of. -/
theorem reaches_or_call_of_mem_reassociations {e : Expr} (h : q ∈ reassociations n p e) (hd : q.Reaches d) :
    p.Reaches d ∨ ∃ k callee args, d = call (.derived k) callee args := by
  obtain ⟨k, f, a, b, g, x, y, -, -, rfl, hreach⟩ := reaches_of_mem_reassociations h
  rcases hreach d hd with rfl | rfl | ⟨r, hr, hrd⟩
  · exact .inr ⟨_, _, _, rfl⟩
  · exact .inr ⟨_, _, _, rfl⟩
  · exact .inl ((Reaches.refl.child hr).trans hrd)

theorem reaches_of_mem_reassociations_of_ne_call {e : Expr} (h : q ∈ reassociations n p e) (hd : q.Reaches d)
    (hne : ∀ i callee args, d ≠ call i callee args) : p.Reaches d :=
  (reaches_or_call_of_mem_reassociations h hd).resolve_right fun ⟨_, callee, args, hcall⟩ => hne _ callee args hcall

theorem containsDominator_eq_false_of_mem_reassociations {e : Expr} (h : q ∈ reassociations n p e)
    (hp : p.containsDominator = false) : q.containsDominator = false := by
  obtain ⟨k, f, g, x, y, z, -, -, hw, hq⟩ := exists_derive_of_mem_reassociations h
  have hparts : ∀ d ∈ [f, g, x, y, z], d.containsDominator = false := fun d hd => by
    obtain ⟨r, hr, hrd⟩ := hw d hd
    exact containsDominator_eq_false_of_reaches hrd (containsDominator_eq_false_of_mem_children hr hp)
  simp only [List.forall_mem_cons, List.not_mem_nil, false_implies, implies_true, and_true] at hparts
  rcases hq with rfl | rfl <;> simp [derive, containsDominator, anyContainsDominator, hparts]

/-- What identities a re-association uses are new or used within the pattern. -/
theorem uses_of_mem_reassociations {e : Expr} (h : q ∈ reassociations n p e) :
    ∀ i, q.Uses i → p.UsesWithin i ∨ ∃ j, i = .derived j ∧ n ≤ j ∧ j < n + reassociationIds := by
  obtain ⟨k, f, g, x, y, z, hnk, hk, hw, hq⟩ := exists_derive_of_mem_reassociations h
  have huses : ∀ i, q.Uses i → i = .derived k ∨ i = .derived (k + 1) ∨ ∃ d ∈ [f, g, x, y, z], d.Uses i := by
    intro i hi
    simp only [List.exists_mem_cons_iff, List.not_mem_nil, false_and, exists_false, or_false]
    rcases hq with rfl | rfl <;> simp only [uses_derive] at hi <;> tauto
  intro i hi
  rcases huses i hi with rfl | rfl | ⟨d, hd, hi⟩
  · exact .inr ⟨k, rfl, hnk, by omega⟩
  · exact .inr ⟨k + 1, rfl, by omega, by omega⟩
  · exact .inl ((hw d hd).usesWithin hi)

/-- **A re-association with new identities can be matched like the parts of the pattern.** -/
theorem plain_of_mem_reassociations {e : Expr} (hp : ∀ d, p.Within d → d.Plain n) (h : q ∈ reassociations n p e) :
    q.Plain (n + reassociationIds) := by
  obtain ⟨k, f, g, x, y, z, hnk, hk, hw, hq⟩ := exists_derive_of_mem_reassociations h
  have hplain : ∀ d ∈ [f, g, x, y, z], d.Plain n := fun d hd => hp d (hw d hd)
  have hinner : ∀ d ∈ [f, g, x, y, z], d.Plain (k + 1) := fun d hd => (hplain d hd).mono (by omega)
  rcases hq with rfl | rfl
  · have hnew := Plain.derive (hplain g (by simp)) (hplain y (by simp)) (hplain z (by simp)) hnk
    exact (Plain.derive (hinner f (by simp)) (hinner x (by simp)) hnew (Nat.le_refl _)).mono hk
  · have hnew := Plain.derive (hplain g (by simp)) (hplain x (by simp)) (hplain y (by simp)) hnk
    exact (Plain.derive (hinner f (by simp)) hnew (hinner z (by simp)) (Nat.le_refl _)).mono hk

end
end Pattern
end Dataflow
