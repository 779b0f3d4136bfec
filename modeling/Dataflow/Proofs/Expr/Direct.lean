import Dataflow.Proofs.Expr.Comparison
import Mathlib.Data.List.Forall2
/-!
# Structural equality without a memory

`Expr.direct` compares as `Expr.equal` does, in the same order and below the same pairings, and compares every pair of
nodes it meets: it remembers none that was found equal, neither for the expressions nor for those in their attributes.
What it finds equal is structurally equal, whatever has been remembered (`equal_of_direct`).
-/
namespace Dataflow

mutual
/-- Compares as `Expr.equalUnder` does, and remembers nothing. -/
def Expr.directUnder (pairing : Pairing) (a b : Expr) : Bool :=
  a.id == b.id && pairing.isEmpty ||
    match a, b with
    | .constant _ c, .constant _ d => c == d
    | .var _ v, .var _ w => pairing.relates v w
    | .external _ s, .external _ t => s == t
    | .op _ o, .op _ p => o.name == p.name
    | .call _ f args attrs, .call _ g brgs bttrs =>
      let sameAttrs := match attrs, bttrs with
        | none, none => true
        | some ⟨key, fields⟩, some ⟨key', fields'⟩ =>
          key == key' && fields.length == fields'.length && AttrValue.directFields fields fields'
        | _, _ => false
      args.length == brgs.length && sameAttrs && (f.directUnder pairing g && Expr.directAllUnder pairing args brgs)
    | .tuple _ fs, .tuple _ gs => fs.length == gs.length && Expr.directAllUnder pairing fs gs
    | .item _ t k, .item _ u l => k == l && t.directUnder pairing u
    | .function _ ps body ⟨entries⟩, .function _ qs cody ⟨entries'⟩ =>
      ps.length == qs.length && entries.length == entries'.length && Literal.directEntries entries entries' &&
        (Expr.directAllUnder (pairing.enter ps qs) ps qs && body.directUnder (pairing.enter ps qs) cody)
    | .cond _ c t e, .cond _ c' t' e' =>
      c.directUnder pairing c' && (t.directUnder pairing t' && e.directUnder pairing e')
    | .dims _ ds, .dims _ es => ds.length == es.length && ds == es
    | _, _ => false
termination_by structural a

def Expr.directAllUnder (pairing : Pairing) : List Expr → List Expr → Bool
  | [], [] => true
  | a :: as, b :: bs => a.directUnder pairing b && Expr.directAllUnder pairing as bs
  | _, _ => false
termination_by structural as => as

def Literal.direct : Literal → Literal → Bool
  | .int v, .int w => v == w
  | .float v, .float w => v == w
  | .stringImm s, .stringImm t => s == t
  | .string s, .string t => s == t
  | .dtype d, .dtype e => d == e
  | .prim a, .prim b => a == b
  | .type t, .type u => t == u
  | .expr a, .expr b => a.directUnder [] b
  | .array xs, .array ys => xs.length == ys.length && Literal.directAll xs ys
  | _, _ => false
termination_by structural l => l

def Literal.directAll : List Literal → List Literal → Bool
  | [], [] => true
  | x :: xs, y :: ys => x.direct y && Literal.directAll xs ys
  | _, _ => false
termination_by structural xs => xs

def Literal.directEntries : List (String × Literal) → List (String × Literal) → Bool
  | [], [] => true
  | (n, x) :: xs, (m, y) :: ys => n == m && (x.direct y && Literal.directEntries xs ys)
  | _, _ => false
termination_by structural xs => xs

def AttrValue.direct : AttrValue → AttrValue → Bool
  | .null, .null => true
  | .int v, .int w => v == w
  | .float v, .float w => v == w
  | .string s, .string t => s == t
  | .dtype d, .dtype e => d == e
  | .literal l, .literal m => l.direct m
  | .handle n, .handle m => n == m
  | _, _ => false
termination_by structural v => v

def AttrValue.directFields : List (String × AttrValue) → List (String × AttrValue) → Bool
  | [], [] => true
  | (n, x) :: xs, (m, y) :: ys => n == m && (x.direct y && AttrValue.directFields xs ys)
  | _, _ => false
termination_by structural xs => xs
end

/-- Structural equality without a memory. -/
def Expr.direct (a b : Expr) : Bool := a.directUnder [] b

/-! ## The two comparisons of attributes -/

section
variable {ρ : Bool → Bool → Prop} (hrefl : ∀ a, ρ a a) (hand : ∀ {a a' b b'}, ρ a a' → ρ b b' → ρ (a && b) (a' && b'))
include hrefl hand

mutual
theorem Literal.direct_equal : ∀ l m : Literal, (∀ x ∈ l.exprs, ∀ y ∈ m.exprs, ρ (x.direct y) (x.equal y)) →
    ρ (l.direct m) (l.equal m)
  | .int _, m, _ | .float _, m, _ | .stringImm _, m, _ | .string _, m, _ | .dtype _, m, _ | .prim _, m, _
  | .type _, m, _ => by
    cases m <;> exact hrefl _
  | .expr x, m, h => by
    cases m with
    | expr y => exact h x (by simp [Literal.exprs]) y (by simp [Literal.exprs])
    | _ => exact hrefl _
  | .array ls, m, h => by
    cases m with
    | array ms => exact hand (hrefl _) (Literal.directAll_equalAll ls ms h)
    | _ => exact hrefl _
theorem Literal.directAll_equalAll : ∀ ls ms : List Literal,
    (∀ x ∈ Literal.exprsAll ls, ∀ y ∈ Literal.exprsAll ms, ρ (x.direct y) (x.equal y)) →
      ρ (Literal.directAll ls ms) (Literal.equalAll ls ms)
  | [], [], _ | [], _ :: _, _ | _ :: _, [], _ => hrefl _
  | l :: ls, m :: ms, h => by
    have hhead := l.direct_equal m fun x hx y hy => h x (List.mem_append_left _ hx) y (List.mem_append_left _ hy)
    have htail := Literal.directAll_equalAll ls ms fun x hx y hy =>
      h x (List.mem_append_right _ hx) y (List.mem_append_right _ hy)
    exact hand hhead htail
end

theorem Literal.directEntries_equalEntries : ∀ xs ys : List (String × Literal),
    (∀ x ∈ xs.flatMap fun entry => entry.2.exprs, ∀ y ∈ ys.flatMap fun entry => entry.2.exprs,
      ρ (x.direct y) (x.equal y)) → ρ (Literal.directEntries xs ys) (Literal.equalEntries xs ys)
  | [], [], _ | [], _ :: _, _ | _ :: _, [], _ => hrefl _
  | (n, l) :: xs, (k, m) :: ys, h => by
    have hhead := Literal.direct_equal hrefl hand l m fun x hx y hy =>
      h x (List.mem_append_left _ hx) y (List.mem_append_left _ hy)
    have htail := Literal.directEntries_equalEntries xs ys fun x hx y hy =>
      h x (List.mem_append_right _ hx) y (List.mem_append_right _ hy)
    exact hand (hrefl _) (hand hhead htail)

theorem AttrValue.direct_equal (v w : AttrValue) (h : ∀ x ∈ v.exprs, ∀ y ∈ w.exprs, ρ (x.direct y) (x.equal y)) :
    ρ (v.direct w) (v.equal w) := by
  cases v with
  | literal l =>
    cases w with
    | literal m => exact Literal.direct_equal hrefl hand l m h
    | _ => exact hrefl _
  | _ => cases w <;> exact hrefl _

theorem AttrValue.directFields_equalFields : ∀ xs ys : List (String × AttrValue),
    (∀ x ∈ xs.flatMap fun field => field.2.exprs, ∀ y ∈ ys.flatMap fun field => field.2.exprs,
      ρ (x.direct y) (x.equal y)) → ρ (AttrValue.directFields xs ys) (AttrValue.equalFields xs ys)
  | [], [], _ | [], _ :: _, _ | _ :: _, [], _ => hrefl _
  | (n, v) :: xs, (k, w) :: ys, h => by
    have hhead := AttrValue.direct_equal hrefl hand v w fun x hx y hy =>
      h x (List.mem_append_left _ hx) y (List.mem_append_left _ hy)
    have htail := AttrValue.directFields_equalFields xs ys fun x hx y hy =>
      h x (List.mem_append_right _ hx) y (List.mem_append_right _ hy)
    exact hand (hrefl _) (hand hhead htail)

end

/-- The comparison of the attributes of two calls without a memory. -/
def directAttrs : Option Attrs → Option Attrs → Bool
  | none, none => true
  | some r, some s =>
    r.typeKey == s.typeKey && r.fields.length == s.fields.length && AttrValue.directFields r.fields s.fields
  | _, _ => false

/-- Whether two nodes of one form have attributes that are equal without a memory. -/
def Expr.attrsDirect : Expr → Expr → Bool
  | .call _ _ _ attrs, .call _ _ _ bttrs => directAttrs attrs bttrs
  | .function _ _ _ d, .function _ _ _ e =>
    d.entries.length == e.entries.length && Literal.directEntries d.entries e.entries
  | _, _ => true

/-- A relation that the comparisons have for the expressions in the attributes of two nodes they have for the
attributes. -/
theorem Expr.attrsDirect_attrsEqual {ρ : Bool → Bool → Prop} (hrefl : ∀ a, ρ a a)
    (hand : ∀ {a a' b b'}, ρ a a' → ρ b b' → ρ (a && b) (a' && b')) {a b : Expr}
    (h : ∀ x ∈ a.attrExprs, ∀ y ∈ b.attrExprs, ρ (x.direct y) (x.equal y)) : ρ (a.attrsDirect b) (a.attrsEqual b) := by
  cases a with
  | call _ _ _ attrs =>
    cases b with
    | call _ _ _ bttrs =>
      cases attrs with
      | none => cases bttrs <;> exact hrefl _
      | some r =>
        cases bttrs with
        | none => exact hrefl _
        | some s => exact hand (hrefl _) (AttrValue.directFields_equalFields hrefl hand _ _ h)
    | _ => exact hrefl _
  | function _ _ _ d =>
    cases b with
    | function _ _ _ e => exact hand (hrefl _) (Literal.directEntries_equalEntries hrefl hand _ _ h)
    | _ => exact hrefl _
  | _ => exact hrefl _

namespace Expr

variable {pairing : Pairing} {a b : Expr}

/-! ## One step -/

theorem directAllUnder_concat (a b : Expr) : ∀ {as bs : List Expr}, as.length = bs.length →
    directAllUnder pairing (as ++ [a]) (bs ++ [b]) = (directAllUnder pairing as bs && a.directUnder pairing b)
  | [], [], _ => by simp [directAllUnder]
  | x :: as, y :: bs, h => by
    simp only [List.cons_append, directAllUnder, directAllUnder_concat a b (Nat.succ.inj h), Bool.and_assoc]

theorem directAllUnder_iff : ∀ {as bs : List Expr},
    directAllUnder pairing as bs = true ↔ List.Forall₂ (fun a b => a.directUnder pairing b = true) as bs
  | [], [] => by simp [directAllUnder]
  | [], _ :: _ | _ :: _, [] => by simp [directAllUnder]
  | a :: as, b :: bs => by rw [directAllUnder, Bool.and_eq_true, List.forall₂_cons, directAllUnder_iff]

/-- What is done at two nodes. -/
theorem directUnder_eq (pairing : Pairing) (a b : Expr) : a.directUnder pairing b =
    (a.id == b.id && pairing.isEmpty || (a.formsAgree pairing b && a.attrsDirect b &&
      directAllUnder (pairing.enter a.params b.params) a.children b.children)) := by
  rw [directUnder.eq_def]
  congr 1
  cases a with
  | constant | var | external | op =>
    cases b with
    | constant | var | external | op => simp [formsAgree, attrsDirect, children, directAllUnder]
    | _ => rfl
  | dims _ ds =>
    cases b with
    | dims _ es =>
      have hlength : (ds.length == es.length && ds == es) = (ds == es) := by
        rw [Bool.and_eq_right_iff_imp]
        simp +contextual
      simp [formsAgree, attrsDirect, children, directAllUnder, hlength]
    | _ => rfl
  | call _ f args attrs =>
    cases b with
    | call _ g brgs bttrs =>
      cases attrs <;> cases bttrs <;> simp [formsAgree, attrsDirect, directAttrs, children, directAllUnder] <;> rfl
    | _ => rfl
  | tuple _ fs =>
    cases b with
    | tuple _ gs =>
      simp only [formsAgree, attrsDirect, children, Bool.and_true]
      rfl
    | _ => rfl
  | item _ t k =>
    cases b with
    | item _ u l =>
      simp only [formsAgree, attrsDirect, children, directAllUnder, Bool.and_true]
      rfl
    | _ => rfl
  | cond _ c t e =>
    cases b with
    | cond =>
      simp only [formsAgree, attrsDirect, children, directAllUnder, Bool.and_true, Bool.true_and]
      rfl
    | _ => rfl
  | function _ ps body attrs =>
    cases b with
    | function _ qs cody bttrs =>
      simp only [formsAgree, attrsDirect, children]
      by_cases hlength : ps.length = qs.length
      · simp only [directAllUnder_concat _ _ hlength, Bool.and_assoc]
        rfl
      · have hfalse : (ps.length == qs.length) = false := by simpa using hlength
        show (ps.length == qs.length && _ && _ && _) = _
        rw [hfalse]
        rfl
    | _ => rfl

/-- Two nodes are equal without a memory when they are one node outside every function, or agree in what they are and in
all their inputs. -/
theorem directUnder_iff : a.directUnder pairing b = true ↔ (a.id = b.id ∧ pairing = []) ∨
    ((a.formsAgree pairing b && a.attrsDirect b) = true ∧
      List.Forall₂ (fun c d => c.directUnder (pairing.enter a.params b.params) d = true) a.children b.children) := by
  rw [directUnder_eq, Bool.or_eq_true, Bool.and_eq_true, Bool.and_eq_true, beq_iff_eq, List.isEmpty_iff,
    directAllUnder_iff]

/-! ## The memory takes nothing away -/

/-- The answer is yes, whatever is remembered. -/
def Affirms (m : StateM Proven Bool) : Prop := ∀ t : Proven, (m.run t).1 = true

theorem affirms_equalAllUnder : ∀ {as bs : List Expr},
    List.Forall₂ (fun a b => Affirms (a.equalUnder pairing b)) as bs → Affirms (equalAllUnder pairing as bs)
  | [], [], .nil => fun _ => rfl
  | a :: as, b :: bs, .cons hhead htail => fun t => by
    have hrun : (equalAllUnder pairing (a :: as) (b :: bs)).run t =
        (if ((a.equalUnder pairing b).run t).1 then equalAllUnder pairing as bs else pure false).run
          ((a.equalUnder pairing b).run t).2 := rfl
    rw [hrun, hhead t, if_pos rfl]
    exact affirms_equalAllUnder htail _

theorem affirms_remember {check : StateM Proven Bool}
    (h : (a.id = b.id ∧ pairing = []) ∨ Affirms check) : Affirms (Proven.remember pairing a b check) := by
  intro t
  rw [Proven.run_remember]
  split
  · rfl
  · rename_i hunknown
    rcases h with ⟨hid, hempty⟩ | h
    · exact absurd (.inl (by simp [hid, hempty])) hunknown
    · exact h t

/-- **What is equal without a memory is structurally equal**, whatever is remembered. -/
theorem affirms_of_directUnder (h : a.directUnder pairing b = true) : Affirms (a.equalUnder pairing b) := by
  induction hn : sizeOf a using Nat.strongRecOn generalizing a b pairing with
  | ind n ih =>
    subst hn
    have hattrs : a.attrsDirect b = true → a.attrsEqual b = true := by
      refine attrsDirect_attrsEqual (ρ := fun direct equal => direct = true → equal = true) (fun _ h => h) ?_ ?_
      · intro p p' q q' hp hq hpq
        rw [Bool.and_eq_true] at hpq ⊢
        exact ⟨hp hpq.1, hq hpq.2⟩
      · exact fun x hx y _ hxy => ih _ (sizeOf_lt_of_mem_attrExprs hx) hxy rfl ∅
    rw [equalUnder_eq]
    refine affirms_remember ((directUnder_iff.1 h).imp_right fun ⟨hnodes, hchildren⟩ => ?_)
    rw [Bool.and_eq_true] at hnodes
    rw [if_pos (by rw [hnodes.1, hattrs hnodes.2]; rfl)]
    have hmem := (List.forall₂_and_left _ _).2 ⟨fun c hc => hc, hchildren⟩
    exact affirms_equalAllUnder (hmem.imp fun c d ⟨hc, hcd⟩ => ih _ (sizeOf_lt_of_mem_children hc) hcd rfl)

theorem equal_of_direct (h : a.direct b = true) : a.equal b = true := affirms_of_directUnder h ∅

end Expr
end Dataflow
