import Dataflow.Proofs.Expr.Alpha
import Dataflow.Proofs.Expr.Comparison
/-!
# Structural equality decides alikeness

Where scopes do not overlap, two expressions are structurally equal exactly when they differ at most in the names of
parameters (`equal_iff_alike`).  A step of the comparison `Decides` a statement if from a sound table it answers
whether the statement holds, and leaves a sound table when it does.  A pair in the table was found outside every
function, so no parameter is free in it, and inside a function it is alike as well.
-/
namespace Dataflow

open Dataflow.Expr

namespace Pairing

variable {pairing outer : Pairing} {v w : Nat}

theorem lookup_eq_some_iff (h : (pairing.map Prod.fst).Nodup) : pairing.lookup v = some w ↔ (v, w) ∈ pairing := by
  induction pairing with
  | nil => simp
  | cons x pairing ih =>
    obtain ⟨x, y⟩ := x
    rw [List.map_cons, List.nodup_cons] at h
    have hmem : (v, w) ∈ pairing → v ≠ x := fun hm hv => h.1 (List.mem_map.2 ⟨(v, w), hm, hv⟩)
    rw [List.lookup_cons, List.mem_cons, Prod.mk.injEq]
    by_cases hv : v = x
    · subst hv
      simp only [beq_self_eq_true, Option.some.injEq]
      constructor
      · exact fun hw => .inl ⟨trivial, hw.symm⟩
      · rintro (⟨-, hw⟩ | hm)
        · exact hw.symm
        · exact absurd rfl (hmem hm)
    · have : (v == x) = false := by simpa using hv
      simp [this, hv, ih h.2]

/-- Looking a variable up on one side tells its partner, when no variable is paired twice and a variable that is bound
on the right is not free on the left. -/
theorem relates_iff {v w : Var} (hperm : pairing.Perm outer) (hfst : (outer.map Prod.fst).Nodup)
    (hsnd : (outer.map Prod.snd).Nodup) (hapart : v.id ∉ outer.map Prod.fst → v.id ∉ outer.map Prod.snd) :
    pairing.relates v w = true ↔ outer.Pairs v.id w.id := by
  have hlookup : ∀ {y}, pairing.lookup v.id = some y ↔ (v.id, y) ∈ outer := by
    intro y
    rw [lookup_eq_some_iff ((hperm.map Prod.fst).nodup_iff.2 hfst), hperm.mem_iff]
  rw [relates, beq_iff_eq, pairs_iff hfst hsnd]
  cases hv : pairing.lookup v.id with
  | some y =>
    have hy : (v.id, y) ∈ outer := hlookup.1 hv
    have hin : v.id ∈ outer.map Prod.fst := List.mem_map_of_mem hy
    rw [Option.getD_some, ← hlookup, hv, Option.some.injEq]
    tauto
  | none =>
    have hpair : ∀ y, (v.id, y) ∉ outer := fun y hy => by
      rw [hlookup.2 hy] at hv
      cases hv
    have hout : v.id ∉ outer.map Prod.fst := fun hm => by
      obtain ⟨x, hx, hxv⟩ := List.mem_map.1 hm
      exact hpair x.2 (hxv ▸ hx)
    rw [Option.getD_none]
    constructor
    · exact fun hw => .inr ⟨hw, hout, hw ▸ hapart hout⟩
    · rintro (hm | ⟨hw, -⟩)
      · exact absurd hm (hpair w.id)
      · exact hw

theorem enter_perm : ∀ {ps qs : List Expr} {pairing : Pairing}, ps.length = qs.length →
    (∀ p ∈ ps, p.var?.isSome = true) → (∀ q ∈ qs, q.var?.isSome = true) → (varIds ps).Nodup →
      (varIds ps).Disjoint (pairing.map Prod.fst) →
        (pairing.enter ps qs).Perm ((varIds ps).zip (varIds qs) ++ pairing)
  | [], [], pairing, _, _, _, _, _ => .refl _
  | p :: ps, q :: qs, pairing, hlength, hps, hqs, hnodup, hdisjoint => by
    obtain ⟨hp, hps⟩ := List.forall_mem_cons.1 hps
    obtain ⟨hq, hqs⟩ := List.forall_mem_cons.1 hqs
    obtain ⟨v, hv⟩ := Option.isSome_iff_exists.1 hp
    obtain ⟨w, hw⟩ := Option.isSome_iff_exists.1 hq
    have hvs : varIds (p :: ps) = v.id :: varIds ps := by simp [varIds, hv]
    have hws : varIds (q :: qs) = w.id :: varIds qs := by simp [varIds, hw]
    rw [hvs, List.nodup_cons] at hnodup
    rw [hvs, List.disjoint_cons_left] at hdisjoint
    have hnew : pairing.lookup v.id = none := by
      rw [List.lookup_eq_none_iff]
      intro x hx
      have : v.id ≠ x.1 := fun hvx => hdisjoint.1 (List.mem_map.2 ⟨x, hx, hvx.symm⟩)
      simpa using this
    rw [enter, hvs, hws]
    simp only [hv, hw, hnew, Option.isNone_none, if_true, List.zip_cons_cons, List.cons_append]
    refine (enter_perm (Nat.succ.inj hlength) hps hqs hnodup.2 ?_).trans List.perm_middle
    rw [List.map_cons, List.disjoint_cons_right]
    exact ⟨hnodup.1, hdisjoint.2⟩

end Pairing
variable {taken : Nat → Prop} {a₀ b₀ : Expr}

/-- What is recorded holds: the nodes are alike, and no parameter is free in them. -/
def Proven.Sound (taken : Nat → Prop) (a₀ b₀ : Expr) (t : Proven) : Prop :=
  ∀ a b, a₀.Reaches a → b₀.Reaches b → t.contains (a.id, b.id) = true →
    Alike [] a b ∧ ∀ v, taken v → ¬a.Free v ∧ ¬b.Free v

/-- From a sound table, a step answers whether a statement holds; the table stays sound if it does. -/
def Decides (taken : Nat → Prop) (a₀ b₀ : Expr) (m : StateM Proven Bool) (A : Prop) : Prop :=
  ∀ t : Proven, t.Sound taken a₀ b₀ →
    ((m.run t).1 = true ↔ A) ∧ ((m.run t).1 = true → (m.run t).2.Sound taken a₀ b₀)

namespace Decides

variable {m m' : StateM Proven Bool} {A A' : Prop} {answer : Bool}

theorem congr (h : Decides taken a₀ b₀ m A) (hA : A ↔ A') : Decides taken a₀ b₀ m A' := fun t ht =>
  ⟨(h t ht).1.trans hA, (h t ht).2⟩

theorem pure (h : answer = true ↔ A) : Decides taken a₀ b₀ (Pure.pure answer) A := fun _ ht => ⟨h, fun _ => ht⟩

theorem no (h : ¬A) : Decides taken a₀ b₀ (Pure.pure false) A := .pure (by simp [h])

theorem guard (h : answer = true → Decides taken a₀ b₀ m A) :
    Decides taken a₀ b₀ (if answer then m else Pure.pure false) (answer = true ∧ A) := by
  cases answer with
  | true => exact (h rfl).congr (and_iff_right rfl).symm
  | false => exact no fun ha => Bool.false_ne_true ha.1

theorem and (h : Decides taken a₀ b₀ m A) (h' : Decides taken a₀ b₀ m' A') :
    Decides taken a₀ b₀ (m >>= fun equal => if equal then m' else Pure.pure false) (A ∧ A') := by
  intro t ht
  have hrun : (m >>= fun equal => if equal then m' else Pure.pure false).run t =
      (if (m.run t).1 then m' else Pure.pure false).run (m.run t).2 := rfl
  obtain ⟨hanswer, hsound⟩ := h t ht
  rw [hrun]
  cases heq : (m.run t).1 with
  | true =>
    obtain ⟨hanswer', hsound'⟩ := h' _ (hsound heq)
    rw [if_pos rfl, hanswer']
    exact ⟨(and_iff_right (hanswer.1 heq)).symm, fun ha => hsound' (hanswer'.2 ha)⟩
  | false =>
    have hA : ¬A := fun ha => by simp [hanswer.2 ha] at heq
    exact ⟨iff_of_false Bool.false_ne_true fun ha => hA ha.1, fun hfalse => absurd hfalse Bool.false_ne_true⟩

theorem all {pairing : Pairing} {R : Expr → Expr → Prop} : ∀ {as bs : List Expr}, as.length = bs.length →
    (∀ a ∈ as, ∀ b ∈ bs, Decides taken a₀ b₀ (a.equalUnder pairing b) (R a b)) →
      Decides taken a₀ b₀ (equalAllUnder pairing as bs) (List.Forall₂ R as bs)
  | [], [], _, _ => .pure (by simp)
  | a :: as, b :: bs, hlength, h => by
    rw [equalAllUnder, List.forall₂_cons]
    refine .and (h a (by simp) b (by simp)) (.all (Nat.succ.inj hlength) fun a ha b hb => ?_)
    exact h a (by simp [ha]) b (by simp [hb])

end Decides

/-- A comparison with a memory decides what the comparison decides. -/
theorem Decides.remember {pairing : Pairing} {a b : Expr} {check : StateM Proven Bool} {A : Prop}
    (hcoherent : CoherentAll [a₀, b₀]) (ha : a₀.Reaches a) (hb : b₀.Reaches b) (hself : a = b → pairing = [] → A)
    (hrecorded : Alike [] a b → (∀ v, taken v → ¬a.Free v ∧ ¬b.Free v) → A)
    (hrecord : A → pairing = [] → Alike [] a b ∧ ∀ v, taken v → ¬a.Free v ∧ ¬b.Free v)
    (h : Decides taken a₀ b₀ check A) : Decides taken a₀ b₀ (Proven.remember pairing a b check) A := by
  intro t ht
  rw [Proven.run_remember]
  split
  · rename_i hknown
    refine ⟨iff_of_true rfl ?_, fun _ => ht⟩
    rcases hknown with hsame | hin
    · rw [Bool.and_eq_true, beq_iff_eq, List.isEmpty_iff] at hsame
      exact hself (hcoherent a b ⟨a₀, by simp, ha⟩ ⟨b₀, by simp, hb⟩ hsame.1) hsame.2
    · obtain ⟨halike, hfree⟩ := ht a b ha hb hin
      exact hrecorded halike hfree
  · obtain ⟨hanswer, hsound⟩ := h t ht
    refine ⟨hanswer, fun heq => ?_⟩
    dsimp only at heq ⊢
    split
    · rename_i hempty
      rw [Bool.and_eq_true, List.isEmpty_iff] at hempty
      exact Proven.forall_of_insert hcoherent ha hb (hrecord (hanswer.1 heq) hempty.2) (hsound heq)
    · exact hsound heq

/-- What is compared at two nodes, besides their inputs. -/
theorem formsAgree_and_attrsEqual_iff {a b : Expr} (pairing : Pairing) (h : a.var? = none ∨ b.var? = none) :
    (a.formsAgree pairing b && a.attrsEqual b) = true ↔ a.SameHead b ∧ a.children.length = b.children.length := by
  cases a with
  | var =>
    cases b with
    | var => simp [var?] at h
    | _ => simp [formsAgree, SameHead]
  | _ =>
    cases b <;> simp [formsAgree, attrsEqual, SameHead, children] <;> tauto

/-- Nodes are compared below the pairing of their parameters. -/
theorem decides_node {a b : Expr} {pairing outer : Pairing} (hleft : ∀ v, a₀.Binds v → taken v)
    (hright : ∀ v, b₀.Binds v → taken v) (hperm : pairing.Perm outer) (ha : Inside taken a₀ (outer.map Prod.fst) a)
    (hb : Inside taken b₀ (outer.map Prod.snd) b)
    (ih : ∀ c ∈ a.children, ∀ {d : Expr} {pairing outer : Pairing}, pairing.Perm outer →
      Inside taken a₀ (outer.map Prod.fst) c → Inside taken b₀ (outer.map Prod.snd) d →
        Decides taken a₀ b₀ (c.equalUnder pairing d) (Alike outer c d)) :
    Decides taken a₀ b₀
      (if (a.formsAgree pairing b && a.attrsEqual b) = true then
        equalAllUnder (pairing.enter a.params b.params) a.children b.children
      else pure false)
      (Alike outer a b) := by
  obtain ⟨hps, hnodup, hdisjoint, -⟩ := ha.scopes
  obtain ⟨hqs, -, -, -⟩ := hb.scopes
  have hbinders : a.params.length = b.params.length → a.binders.length = b.binders.length := fun hlength =>
    (length_varIds hps).trans (hlength.trans (length_varIds hqs).symm)
  have hpart : a.params.length = b.params.length → ∀ c ∈ a.children, ∀ d ∈ b.children,
      Decides taken a₀ b₀ (c.equalUnder (pairing.enter a.params b.params) d)
        (Alike (a.binders.zip b.binders ++ outer) c d) := by
    intro hlength c hc d hd
    have hapart : (varIds a.params).Disjoint (pairing.map Prod.fst) := fun v hv hm =>
      hdisjoint hv ((hperm.map Prod.fst).mem_iff.1 hm)
    have hc' := ha.child hleft hc
    have hd' := hb.child hright hd
    refine ih c hc ?_ ?_ ?_
    · exact (Pairing.enter_perm hlength hps hqs hnodup hapart).trans (hperm.append_left _)
    · rwa [List.map_append, List.map_fst_zip (Nat.le_of_eq (hbinders hlength))]
    · rwa [List.map_append, List.map_snd_zip (Nat.le_of_eq (hbinders hlength).symm)]
  by_cases hvars : a.var? = none ∨ b.var? = none
  · have hnodes := formsAgree_and_attrsEqual_iff pairing hvars
    have hparams : (a.formsAgree pairing b && a.attrsEqual b) = true → a.params.length = b.params.length := fun hsame =>
      length_params_of_formsAgree (Bool.and_eq_true_iff.1 hsame).1
    refine Decides.congr (.guard fun hsame => .all (hnodes.1 hsame).2 (hpart (hparams hsame)))
      (Iff.trans ?_ (alike_iff hvars).symm)
    constructor
    · rintro ⟨hsame, hchildren⟩
      exact ⟨(hnodes.1 hsame).1, hbinders (hparams hsame), hchildren⟩
    · rintro ⟨hhead, -, hchildren⟩
      exact ⟨hnodes.2 ⟨hhead, hchildren.length_eq⟩, hchildren⟩
  · obtain ⟨i, v, rfl⟩ := exists_eq_var (not_or.1 hvars).1
    obtain ⟨j, w, rfl⟩ := exists_eq_var (not_or.1 hvars).2
    refine Decides.congr (.guard fun _ => .all rfl (hpart rfl)) ?_
    rw [alike_var_iff, ← Pairing.relates_iff hperm ha.nodup hb.nodup
      fun hv hw => hv (ha.free v.id (.var rfl) (hb.bound _ hw))]
    simp [formsAgree, attrsEqual, children]

theorem decides_equalUnder (hcoherent : CoherentAll [a₀, b₀]) (hleft : ∀ v, a₀.Binds v → taken v)
    (hright : ∀ v, b₀.Binds v → taken v) (a : Expr) : ∀ {b : Expr} {pairing outer : Pairing}, pairing.Perm outer →
      Inside taken a₀ (outer.map Prod.fst) a → Inside taken b₀ (outer.map Prod.snd) b →
        Decides taken a₀ b₀ (a.equalUnder pairing b) (Alike outer a b) := by
  induction a using children_induction with
  | step a ih =>
    intro b pairing outer hperm ha hb
    rw [equalUnder_eq]
    refine .remember hcoherent ha.reaches hb.reaches ?_ ?_ ?_ (decides_node hleft hright hperm ha hb ih)
    · rintro rfl rfl
      obtain rfl := hperm.nil_eq
      exact alike_self (List.forall_mem_nil _)
    · intro halike hfree
      refine halike.congr fun v w hv hw hvw => (Pairing.pairs_iff ha.nodup hb.nodup).2 (.inr ⟨hvw, ?_, ?_⟩)
      · exact fun hm => (hfree v (ha.bound v hm)).1 hv
      · exact fun hm => (hfree w (hb.bound w hm)).2 hw
    · rintro halike rfl
      obtain rfl := hperm.nil_eq
      refine ⟨halike, fun v hv => ⟨fun hfree => ?_, fun hfree => ?_⟩⟩
      · exact List.not_mem_nil (ha.free v hfree hv)
      · exact List.not_mem_nil (hb.free v hfree hv)

theorem sound_empty : Proven.Sound taken a₀ b₀ ∅ := fun _ _ _ _ hin => by simp at hin

theorem decides_equal {a b : Expr} (hcoherent : CoherentAll [a, b]) (hscopes : WellScoped [a, b]) :
    Decides (fun v => ∃ e ∈ [a, b], e.Binds v) a b (a.equalUnder [] b) (Alike [] a b) := by
  have ha := inside_root hscopes (List.mem_cons_self ..)
  have hb := inside_root hscopes (List.mem_cons_of_mem a (List.mem_singleton_self b))
  exact decides_equalUnder hcoherent (fun v hv => ⟨a, by simp, hv⟩) (fun v hv => ⟨b, by simp, hv⟩) a (.refl []) ha hb

namespace Expr

/-- **Structural equality is equality up to the names of parameters**, for expressions whose scopes do not overlap. -/
theorem equal_iff_alike (a b : Expr) (hcoherent : CoherentAll [a, b]) (hscopes : WellScoped [a, b]) :
    a.equal b = true ↔ Alike [] a b :=
  (decides_equal hcoherent hscopes ∅ sound_empty).1

/-- A function of a function, twice, against itself beside a copy in which the parameters have each other's names. -/
theorem equal_iff_alike_of_swapped_names :
    let x := Expr.var ⟨0, none, none⟩ ⟨0, "x"⟩
    let y := Expr.var ⟨1, none, none⟩ ⟨1, "y"⟩
    let pair := Expr.tuple ⟨2, none, none⟩ [x, y]
    let inner := Expr.function ⟨3, none, none⟩ [y] pair .empty
    let f := Expr.function ⟨4, none, none⟩ [x] inner .empty
    let pair' := Expr.tuple ⟨5, none, none⟩ [y, x]
    let inner' := Expr.function ⟨6, none, none⟩ [x] pair' .empty
    let f' := Expr.function ⟨7, none, none⟩ [y] inner' .empty
    let a := Expr.tuple ⟨8, none, none⟩ [f, f]
    let b := Expr.tuple ⟨9, none, none⟩ [f, f']
    CoherentAll [a, b] ∧ WellScoped [a, b] ∧ a.equal b = true ∧ Alike [] a b := by
  intro x y pair inner f pair' inner' f' a b
  have hcoherent : CoherentAll [a, b] := by
    refine @coherentAll_of_closed [a, b] [a, b, f, f', inner, inner', pair, pair', x, y] (by simp) ?_ (by decide)
    simp [a, b, f, f', inner, inner', pair, pair', x, y, children]
  have hscopes : WellScoped [a, b] := by
    have hclosed : ∀ e ∈ [a, b], ∀ v, ¬e.Free v := by
      simp [a, b, f, f', inner, inner', pair, pair', x, y, free_tuple_iff, free_function_iff, free_var_iff,
        varIds, var?]
      constructor <;> intro v <;> omega
    refine ⟨?_, fun _ _ e he v _ => hclosed e he v⟩
    simp [a, b, f, f', inner, inner', pair, pair', x, y, scoped_tuple_iff, scoped_function_iff, scoped_var,
      varIds, var?]
  have hequal : a.equal b = true := by decide +kernel
  exact ⟨hcoherent, hscopes, hequal, (equal_iff_alike a b hcoherent hscopes).1 hequal⟩

/-- An expression, one in the attributes of what it reaches, one in the attributes of that, and so on. -/
inductive Holds (root : Expr) : Expr → Prop
  | refl : Holds root root
  | attr {c d x : Expr} : Holds root c → c.Reaches d → x ∈ d.attrExprs → Holds root x

theorem Holds.trans {a b c : Expr} (hab : a.Holds b) (hbc : b.Holds c) : a.Holds c := by
  induction hbc with
  | refl => exact hab
  | attr _ hr hx ih => exact .attr ih hr hx

theorem Reaches.sizeOf_le {a b : Expr} (h : a.Reaches b) : sizeOf b ≤ sizeOf a := by
  induction h with
  | refl => exact Nat.le_refl _
  | child _ hc ih => exact Nat.le_trans (Nat.le_of_lt (sizeOf_lt_of_mem_children hc)) ih

/-- **Structural equality is symmetric** where scopes do not overlap, neither in the expressions nor in those that their
attributes hold. -/
theorem equal_comm_of_wellScoped (a b : Expr)
    (h : ∀ x y, a.Holds x → b.Holds y → CoherentAll [x, y] ∧ WellScoped [x, y]) : a.equal b = b.equal a := by
  -- What an attribute holds is smaller than the node that carries it, wherever in the tree that is.
  induction hn : sizeOf a using Nat.strong_induction_on generalizing a b with
  | _ n ih =>
    have hattrs : ∀ c, a.Reaches c → ∀ d, b.Reaches d →
        ∀ x ∈ c.attrExprs, ∀ y ∈ d.attrExprs, x.equal y = y.equal x := by
      intro c hc d hd x hx y hy
      have hsize : sizeOf x < n := hn ▸ Nat.lt_of_lt_of_le (sizeOf_lt_of_mem_attrExprs hx) hc.sizeOf_le
      refine ih _ hsize x y (fun x' y' hx' hy' => ?_) rfl
      exact h x' y' ((Holds.refl.attr hc hx).trans hx') ((Holds.refl.attr hd hy).trans hy')
    obtain ⟨hcoherent, hscopes⟩ := h a b .refl .refl
    have hswap : ∀ e ∈ [b, a], e ∈ [a, b] := by simp
    have hab := (decides_equal hcoherent hscopes ∅ sound_empty).1
    have hba := (decides_equal (hcoherent.mono hswap) (hscopes.mono hswap) ∅ sound_empty).1
    rw [Bool.eq_iff_iff, Expr.equal, Expr.equal, hab, hba]
    constructor
    · exact fun halike => halike.symm hattrs
    · exact fun halike => halike.symm fun d hd c hc y hy x hx => (hattrs c hc d hd x hx y hy).symm

/-- Two functions whose attributes hold the same function under different names of its parameter. -/
theorem equal_comm_of_held_functions :
    let x := Expr.var ⟨0, none, none⟩ ⟨0, "x"⟩
    let y := Expr.var ⟨1, none, none⟩ ⟨1, "y"⟩
    let z := Expr.var ⟨2, none, none⟩ ⟨2, "z"⟩
    let f := Expr.function ⟨3, none, none⟩ [x] x .empty
    let g := Expr.function ⟨4, none, none⟩ [y] y .empty
    let a := Expr.function ⟨5, none, none⟩ [] z ⟨[("step", .expr f)]⟩
    let b := Expr.function ⟨6, none, none⟩ [] z ⟨[("step", .expr g)]⟩
    (∀ x y, a.Holds x → b.Holds y → CoherentAll [x, y] ∧ WellScoped [x, y]) ∧ a.equal b = b.equal a := by
  intro x y z f g a b
  have hclosed : ∀ e ∈ [a, b, f, g, x, y, z], ∀ c ∈ e.children, c ∈ [a, b, f, g, x, y, z] := by
    simp [a, b, f, g, x, y, z, children]
  have hheld : ∀ e ∈ [a, b, f, g, x, y, z], ∀ c ∈ e.attrExprs, c ∈ [a, b, f, g] := by
    simp [a, b, f, g, x, y, z, attrExprs, Dict.exprs, Literal.exprs, Dict.empty]
  have hall : ∀ e ∈ [a, b, f, g], e ∈ [a, b, f, g, x, y, z] := by simp +contextual
  have hmem : ∀ r ∈ [a, b, f, g], ∀ e, r.Holds e → e ∈ [a, b, f, g] := by
    intro r hr e he
    induction he with
    | refl => exact hr
    | attr _ hd hx ih => exact hheld _ (hd.mem_of_closed (hall _ ih) hclosed) _ hx
  have hscoped : ∀ e ∈ [a, b, f, g], e.Scoped [] := by
    simp [a, b, f, g, x, y, z, scoped_function_iff, scoped_var, varIds, var?]
  have hfree : ∀ e ∈ [a, b, f, g], ∀ v, e.Free v → v = 2 := by
    simp [a, b, f, g, x, y, z, free_function_iff, free_var_iff, varIds, var?]
    constructor <;> intro v <;> omega
  have hbinds : ∀ e ∈ [a, b, f, g], ∀ v, e.Binds v → v ≠ 2 := by
    rintro e he v ⟨d, hd, hv⟩
    have hbinders : ∀ d ∈ [a, b, f, g, x, y, z], 2 ∉ d.binders := by decide
    exact fun h => hbinders d (hd.mem_of_closed (hall e he) hclosed) (h ▸ hv)
  have h : ∀ c d, a.Holds c → b.Holds d → CoherentAll [c, d] ∧ WellScoped [c, d] := by
    intro c d hc hd
    have hcd : ∀ e ∈ [c, d], e ∈ [a, b, f, g] := by
      rw [List.forall_mem_cons, List.forall_mem_singleton]
      exact ⟨hmem a (by simp) c hc, hmem b (by simp) d hd⟩
    refine ⟨coherentAll_of_closed (fun e he => hall e (hcd e he)) hclosed (by decide), ?_, ?_⟩
    · exact fun e he => hscoped e (hcd e he)
    · exact fun e he e' he' v hb hf => hbinds e (hcd e he) v hb (hfree e' (hcd e' he') v hf)
  exact ⟨h, equal_comm_of_wellScoped a b h⟩

/-- Without that it need not be: a function that returns its parameter equals one that returns another variable, when
it is on the right and the free variable there is the parameter of the left one. -/
theorem equal_ne_of_captured :
    let x := Expr.var ⟨0, none, none⟩ ⟨0, "x"⟩
    let y := Expr.var ⟨1, none, none⟩ ⟨1, "y"⟩
    let f := Expr.function ⟨2, none, none⟩ [x] x .empty
    let h := Expr.function ⟨3, none, none⟩ [y] x .empty
    CoherentAll [f, h] ∧ f.equal h = false ∧ h.equal f = true := by
  intro x y f h
  refine ⟨?_, by decide +kernel, by decide +kernel⟩
  refine @coherentAll_of_closed [f, h] [f, h, x, y] (by simp) ?_ (by decide)
  simp [f, h, x, y, children]

end Expr
end Dataflow
