import Dataflow.Proofs.Expr.Attribute
import Dataflow.Proofs.Expr.Scope
import Mathlib.Data.List.Zip
/-!
# Expressions that are alike up to the names of parameters

Two expressions are alike when the trees that they span have the same heads and differ at most in the variables that
functions bind: a variable stands for the one that is bound at the same place, and one that is not bound stands for
itself.  Numbers of nodes, sharing and annotations play no part.  What a pairing says of variables that are not free
does not matter (`Alike.congr`), every expression is like itself (`alike_self`), and alikeness is symmetric where the
attributes are (`Alike.symm`).
-/
namespace Dataflow
namespace Pairing

/-- Whether two variables stand for each other.  The innermost pair with one of them decides; without any, a variable
stands for itself. -/
def Pairs : Pairing → Nat → Nat → Prop
  | [], v, w => v = w
  | (x, y) :: outer, v, w => (v = x ∧ w = y) ∨ (v ≠ x ∧ w ≠ y ∧ Pairs outer v w)

variable {pairing pairing' inner : Pairing} {v w : Nat}

theorem pairs_append_imp
    (h : v ∉ inner.map Prod.fst → w ∉ inner.map Prod.snd → pairing.Pairs v w → pairing'.Pairs v w) :
    Pairs (inner ++ pairing) v w → Pairs (inner ++ pairing') v w := by
  induction inner with
  | nil => exact h (by simp) (by simp)
  | cons x inner ih =>
    rintro (hx | ⟨hv, hw, hrest⟩)
    · exact .inl hx
    · refine .inr ⟨hv, hw, ih (fun hvi hwi => h ?_ ?_) hrest⟩
      · rw [List.map_cons, List.mem_cons, not_or]
        exact ⟨hv, hvi⟩
      · rw [List.map_cons, List.mem_cons, not_or]
        exact ⟨hw, hwi⟩

/-- Where no variable is paired twice, variables stand for each other when they are a pair, and otherwise they are one
variable without a partner. -/
theorem pairs_iff (hfst : (pairing.map Prod.fst).Nodup) (hsnd : (pairing.map Prod.snd).Nodup) :
    pairing.Pairs v w ↔
      (v, w) ∈ pairing ∨ (v = w ∧ v ∉ pairing.map Prod.fst ∧ w ∉ pairing.map Prod.snd) := by
  induction pairing with
  | nil => simp [Pairs]
  | cons x pairing ih =>
    obtain ⟨x, y⟩ := x
    rw [List.map_cons, List.nodup_cons] at hfst hsnd
    have hmem : (v, w) ∈ pairing → v ≠ x ∧ w ≠ y := fun h =>
      ⟨fun hv => hfst.1 (List.mem_map.2 ⟨(v, w), h, hv⟩), fun hw => hsnd.1 (List.mem_map.2 ⟨(v, w), h, hw⟩)⟩
    rw [Pairs, ih hfst.2 hsnd.2]
    simp only [List.mem_cons, Prod.mk.injEq, List.map_cons, not_or]
    tauto

theorem pairs_swap : Pairs (pairing.map Prod.swap) w v ↔ pairing.Pairs v w := by
  induction pairing with
  | nil => exact eq_comm
  | cons x pairing ih =>
    rw [List.map_cons, Pairs, Pairs, ih]
    tauto

theorem pairs_self (h : ∀ x ∈ pairing, x.1 = x.2) : pairing.Pairs v v := by
  induction pairing with
  | nil => rfl
  | cons x pairing ih =>
    obtain ⟨hx, hrest⟩ := List.forall_mem_cons.1 h
    by_cases hv : v = x.1
    · exact .inl ⟨hv, hv.trans hx⟩
    · exact .inr ⟨hv, hx ▸ hv, ih hrest⟩

end Pairing

namespace Expr

/-- Whether two nodes are of one form and have the same data besides their inputs.  A variable has no data. -/
def SameHead : Expr → Expr → Prop
  | .constant _ c, .constant _ d => c = d
  | .external _ s, .external _ t => s = t
  | .op _ o, .op _ p => o.name = p.name
  | .call _ _ _ attrs, .call _ _ _ bttrs => sameAttrs attrs bttrs = true
  | .tuple .., .tuple .. => True
  | .item _ _ k, .item _ _ l => k = l
  | .function _ _ _ attrs, .function _ _ _ bttrs => attrs.equal bttrs = true
  | .cond .., .cond .. => True
  | .dims _ ds, .dims _ es => ds = es
  | _, _ => False

/-- Whether two expressions differ at most in the names of parameters, below functions that bind the variables of a
pairing. -/
inductive Alike : Pairing → Expr → Expr → Prop
  | var {pairing : Pairing} {i j : NodeInfo} {v w : Var} :
      pairing.Pairs v.id w.id → Alike pairing (.var i v) (.var j w)
  | node {pairing : Pairing} {a b : Expr} : a.SameHead b → a.binders.length = b.binders.length →
      a.children.length = b.children.length →
      (∀ x ∈ a.children.zip b.children, Alike (a.binders.zip b.binders ++ pairing) x.1 x.2) → Alike pairing a b

variable {pairing pairing' : Pairing} {a b : Expr}

theorem exists_eq_var {e : Expr} (h : e.var? ≠ none) : ∃ i v, e = .var i v := by
  cases e with
  | var i v => exact ⟨i, v, rfl⟩
  | _ => exact absurd rfl h

theorem alike_var_iff {i j : NodeInfo} {v w : Var} :
    Alike pairing (.var i v) (.var j w) ↔ pairing.Pairs v.id w.id := by
  constructor
  · intro h
    cases h with
    | var h => exact h
    | node h => exact h.elim
  · exact .var

theorem alike_iff (h : a.var? = none ∨ b.var? = none) : Alike pairing a b ↔ a.SameHead b ∧
    a.binders.length = b.binders.length ∧
      List.Forall₂ (Alike (a.binders.zip b.binders ++ pairing)) a.children b.children := by
  rw [List.forall₂_iff_zip]
  constructor
  · intro halike
    cases halike with
    | var => simp [var?] at h
    | node hhead hbinders hlength hchildren => exact ⟨hhead, hbinders, hlength, fun hx => hchildren _ hx⟩
  · rintro ⟨hhead, hbinders, hlength, hchildren⟩
    exact .node hhead hbinders hlength fun _ hx => hchildren hx

/-- Only what a pairing says of free variables counts. -/
theorem Alike.congr (h : Alike pairing a b)
    (hfree : ∀ v w, a.Free v → b.Free w → pairing.Pairs v w → pairing'.Pairs v w) : Alike pairing' a b := by
  induction h generalizing pairing' with
  | var h => exact .var (hfree _ _ (.var rfl) (.var rfl) h)
  | @node pairing a b hhead hbinders hlength _ ih =>
    refine .node hhead hbinders hlength fun x hx => ih x hx fun v w hv hw => ?_
    obtain ⟨ha, hb⟩ := List.of_mem_zip hx
    refine Pairing.pairs_append_imp fun hva hwb => hfree v w (.child ha hv ?_) (.child hb hw ?_)
    · rwa [List.map_fst_zip (Nat.le_of_eq hbinders)] at hva
    · rwa [List.map_snd_zip (Nat.le_of_eq hbinders.symm)] at hwb

theorem sameHead_self (h : a.var? = none) : a.SameHead a := by
  cases a with
  | var => cases h
  | call => exact sameAttrs_self _
  | function => exact Dict.equal_self _
  | tuple | cond => trivial
  | _ => rfl

theorem SameHead.symm (h : a.SameHead b) (hattrs : ∀ x ∈ a.attrExprs, ∀ y ∈ b.attrExprs, x.equal y = y.equal x) :
    b.SameHead a := by
  unfold SameHead at h
  split at h
  case h_4 => exact (sameAttrs_comm hattrs).symm.trans h
  case h_5 | h_8 => trivial
  case h_7 => exact (Dict.equal_comm hattrs).symm.trans h
  case h_10 => exact h.elim
  all_goals exact Eq.symm h

theorem alike_self (h : ∀ x ∈ pairing, x.1 = x.2) : Alike pairing a a := by
  induction a using children_induction generalizing pairing with
  | step a ih =>
    cases hv : a.var? with
    | some v =>
      cases a with
      | var => exact .var (Pairing.pairs_self h)
      | _ => cases hv
    | none =>
      refine .node (sameHead_self hv) rfl rfl fun x hx => ?_
      have hzip : ∀ {α : Type} {l : List α} {x : α × α}, x ∈ l.zip l → x.1 ∈ l ∧ x.1 = x.2 := fun hx => by
        rw [List.zip_eq_zipWith, List.zipWith_self, List.mem_map] at hx
        obtain ⟨y, hy, rfl⟩ := hx
        exact ⟨hy, rfl⟩
      obtain ⟨hx, hx'⟩ := hzip hx
      rw [← hx']
      refine ih x.1 hx fun y hy => ?_
      rcases List.mem_append.1 hy with hy | hy
      · exact (hzip hy).2
      · exact h y hy

theorem Alike.symm (h : Alike pairing a b) (hattrs : ∀ c, a.Reaches c → ∀ d, b.Reaches d →
    ∀ x ∈ c.attrExprs, ∀ y ∈ d.attrExprs, x.equal y = y.equal x) : Alike (pairing.map Prod.swap) b a := by
  induction h with
  | var h => exact .var (Pairing.pairs_swap.2 h)
  | @node pairing a b hhead hbinders hlength _ ih =>
    refine .node (hhead.symm (hattrs a .refl b .refl)) hbinders.symm hlength.symm fun x hx => ?_
    have hx' : x.swap ∈ a.children.zip b.children := by
      rw [← List.zip_swap]
      exact List.mem_map_of_mem hx
    obtain ⟨ha, hb⟩ := List.of_mem_zip hx'
    have := ih x.swap hx' fun c hc d hd =>
      hattrs c ((Reaches.refl.child ha).trans hc) d ((Reaches.refl.child hb).trans hd)
    rwa [List.map_append, List.zip_swap] at this

end Expr
end Dataflow
