import Dataflow.Proofs.Expr.Attribute
import Dataflow.Proofs.Expr.Scope
import Mathlib.Data.List.Forall2
/-!
# One step of structural equality

What the comparison does at two nodes, in one equation (`equalUnder_eq`): unless its memory answers, it looks at the
nodes without their inputs, at their attributes, and then at the inputs one by one, below the pairing of the parameters
if the nodes are functions.  A comparison `Upholds` a statement if from a memory of related nodes it answers yes only
when the statement holds, and then leaves a memory of related nodes; so what passes from inputs to nodes holds of all
that is structurally equal, in every scope (`related_of_equal`).
-/
namespace Dataflow

/-! ## The memory -/

theorem Proven.contains_insert_iff {t : Proven} {x y : Nat × Nat} :
    (t.insert x).contains y = true ↔ x = y ∨ t.contains y = true := by
  rw [Std.TreeSet.contains_insert, Bool.or_eq_true, beq_iff_eq]
  simp [compareLex, compareOn, Ordering.then_eq_eq, Prod.ext_iff]

/-- What holds of all pairs that are recorded holds of them and a new one together. -/
theorem Proven.forall_of_insert {a₀ b₀ a b : Expr} {R : Expr → Expr → Prop} {t : Proven}
    (hcoherent : Expr.CoherentAll [a₀, b₀]) (ha : a₀.Reaches a) (hb : b₀.Reaches b) (hnew : R a b)
    (h : ∀ c d, a₀.Reaches c → b₀.Reaches d → t.contains (c.id, d.id) = true → R c d) :
    ∀ c d, a₀.Reaches c → b₀.Reaches d → (t.insert (a.id, b.id)).contains (c.id, d.id) = true → R c d := by
  intro c d hc hd hin
  rcases contains_insert_iff.1 hin with hid | hin
  · obtain ⟨hac, hbd⟩ := Prod.mk.inj hid
    obtain rfl := hcoherent a c ⟨a₀, by simp, ha⟩ ⟨a₀, by simp, hc⟩ hac
    obtain rfl := hcoherent b d ⟨b₀, by simp, hb⟩ ⟨b₀, by simp, hd⟩ hbd
    exact hnew
  · exact h c d hc hd hin

theorem Proven.run_remember (pairing : Pairing) (a b : Expr) (check : StateM Proven Bool) (t : Proven) :
    (remember pairing a b check).run t =
      if (a.id == b.id && pairing.isEmpty) = true ∨ t.contains (a.id, b.id) = true then (true, t)
      else ((check.run t).1,
        if ((check.run t).1 && pairing.isEmpty) = true then (check.run t).2.insert (a.id, b.id)
        else (check.run t).2) := by
  unfold remember
  by_cases hsame : (a.id == b.id && pairing.isEmpty) = true
  · rw [if_pos hsame, if_pos (.inl hsame)]
    rfl
  · rw [if_neg hsame]
    have hget : ∀ m : Proven → StateM Proven Bool, (get >>= m).run t = (m t).run t := fun _ => rfl
    rw [hget]
    by_cases hin : t.contains (a.id, b.id) = true
    · rw [if_pos hin, if_pos (.inr hin)]
      rfl
    · rw [if_neg hin, if_neg (by tauto)]
      show (if ((check.run t).1 && List.isEmpty pairing) = true then _ else _ : StateM Proven Bool).run _ = _
      by_cases hrecord : ((check.run t).1 && List.isEmpty pairing) = true
      · rw [if_pos hrecord, if_pos hrecord]
        rfl
      · rw [if_neg hrecord, if_neg hrecord]
        rfl

/-! ## Nodes -/

namespace Expr

/-- Whether two nodes are of one form, have as many inputs and, attributes aside, the same data.  Variables have to be
partners. -/
def formsAgree (pairing : Pairing) : Expr → Expr → Bool
  | constant _ c, constant _ d => c == d
  | var _ v, var _ w => pairing.relates v w
  | external _ s, external _ t => s == t
  | op _ o, op _ p => o.name == p.name
  | call _ _ args _, call _ _ brgs _ => args.length == brgs.length
  | tuple _ fs, tuple _ gs => fs.length == gs.length
  | item _ _ k, item _ _ l => k == l
  | function _ ps _ _, function _ qs _ _ => ps.length == qs.length
  | cond .., cond .. => true
  | dims _ ds, dims _ es => ds == es
  | _, _ => false

/-- Whether two nodes of one form have structurally equal attributes. -/
def attrsEqual : Expr → Expr → Bool
  | call _ _ _ attrs, call _ _ _ bttrs => sameAttrs attrs bttrs
  | function _ _ _ attrs, function _ _ _ bttrs => attrs.equal bttrs
  | _, _ => true

variable {pairing : Pairing}

theorem length_params_of_formsAgree {a b : Expr} (h : a.formsAgree pairing b = true) :
    a.params.length = b.params.length := by
  cases a with
  | function =>
    cases b with
    | function => exact beq_iff_eq.1 h
    | _ => cases h
  | _ =>
    cases b with
    | function => cases h
    | _ => rfl

theorem if_then_true_else_false (m : StateM Proven Bool) : (do if ← m then return true else return false) = m := by
  have hpure : (fun equal => if equal = true then pure true else pure false : Bool → StateM Proven Bool) = pure := by
    funext equal
    cases equal <;> rfl
  rw [hpure, bind_pure]

theorem equalAllUnder_concat (a b : Expr) : ∀ {as bs : List Expr}, as.length = bs.length →
    equalAllUnder pairing (as ++ [a]) (bs ++ [b]) = (do
      if ← equalAllUnder pairing as bs then a.equalUnder pairing b else return false)
  | [], [], _ => by
    have hnil : equalAllUnder pairing [] [] = pure true := rfl
    rw [List.nil_append, List.nil_append, hnil, pure_bind, if_pos rfl, equalAllUnder, hnil, if_then_true_else_false]
  | x :: as, y :: bs, h => by
    simp only [List.cons_append, equalAllUnder, equalAllUnder_concat a b (Nat.succ.inj h), bind_assoc]
    congr 1
    funext equal
    cases equal <;> simp

theorem pure_eq_equalAllUnder_nil (equal : Bool) :
    (pure equal : StateM Proven Bool) = if (equal && true) = true then equalAllUnder pairing [] [] else pure false := by
  cases equal <;> rfl

/-- **What is done at two nodes.** -/
theorem equalUnder_eq (pairing : Pairing) (a b : Expr) :
    a.equalUnder pairing b = Proven.remember pairing a b
      (if (a.formsAgree pairing b && a.attrsEqual b) = true then
        equalAllUnder (pairing.enter a.params b.params) a.children b.children
      else pure false) := by
  rw [equalUnder.eq_def]
  congr 1
  cases a with
  | constant | var | external | op =>
    cases b with
    | constant | var | external | op => exact pure_eq_equalAllUnder_nil _
    | _ => rfl
  | dims _ ds =>
    cases b with
    | dims _ es =>
      have hlength : (ds.length == es.length && ds == es) = (ds == es) := by
        rw [Bool.and_eq_right_iff_imp]
        simp +contextual
      show pure (ds.length == es.length && ds == es) = _
      rw [hlength]
      exact pure_eq_equalAllUnder_nil _
    | _ => rfl
  | call _ f args attrs =>
    cases b with
    | call _ g brgs bttrs =>
      cases attrs <;> cases bttrs <;>
        simp [formsAgree, attrsEqual, sameAttrs, Record.equal, children, equalAllUnder] <;> rfl
    | _ => rfl
  | tuple _ fs =>
    cases b with
    | tuple _ gs => simp [formsAgree, attrsEqual, children] ; rfl
    | _ => rfl
  | item _ t k =>
    cases b with
    | item _ u l =>
      simp only [formsAgree, attrsEqual, children, equalAllUnder, if_then_true_else_false, Bool.and_true]
      rfl
    | _ => rfl
  | cond _ c t e =>
    cases b with
    | cond =>
      simp only [formsAgree, attrsEqual, children, equalAllUnder, if_then_true_else_false]
      rfl
    | _ => rfl
  | function _ ps body attrs =>
    cases b with
    | function _ qs cody bttrs =>
      simp only [formsAgree, attrsEqual, children, Dict.equal]
      by_cases hlength : ps.length = qs.length
      · rw [equalAllUnder_concat _ _ hlength]
        simp [hlength]
        rfl
      · simp [hlength]
    | _ => rfl

/-! ## What an answer confirms -/

variable {R : Expr → Expr → Prop} {a₀ b₀ a b : Expr} {m : StateM Proven Bool} {A A' : Prop}

/-- Nodes that are recorded as a pair are related. -/
def RecordsWithin (R : Expr → Expr → Prop) (a₀ b₀ : Expr) (t : Proven) : Prop :=
  ∀ a b, a₀.Reaches a → b₀.Reaches b → t.contains (a.id, b.id) = true → R a b

/-- From a memory of related nodes a step answers yes only if a statement holds, and then leaves such a memory. -/
def Upholds (R : Expr → Expr → Prop) (a₀ b₀ : Expr) (m : StateM Proven Bool) (A : Prop) : Prop :=
  ∀ t : Proven, RecordsWithin R a₀ b₀ t → (m.run t).1 = true → A ∧ RecordsWithin R a₀ b₀ (m.run t).2

theorem recordsWithin_empty : RecordsWithin R a₀ b₀ ∅ := fun _ _ _ _ hin => by simp at hin

theorem Upholds.imp (h : Upholds R a₀ b₀ m A) (hA : A → A') : Upholds R a₀ b₀ m A' :=
  fun t ht hanswer => (h t ht hanswer).imp_left hA

theorem Upholds.guard {answer : Bool} (h : answer = true → Upholds R a₀ b₀ m A) :
    Upholds R a₀ b₀ (if answer then m else pure false) (answer = true ∧ A) := by
  intro t ht hanswer
  cases answer with
  | true => exact (h rfl t ht hanswer).imp_left fun hA => ⟨rfl, hA⟩
  | false => cases hanswer

theorem upholds_equalAllUnder {S : Expr → Expr → Prop} : ∀ {as bs : List Expr},
    (∀ a ∈ as, ∀ b ∈ bs, Upholds R a₀ b₀ (a.equalUnder pairing b) (S a b)) →
      Upholds R a₀ b₀ (equalAllUnder pairing as bs) (List.Forall₂ S as bs)
  | [], [], _ => fun _ ht _ => ⟨.nil, ht⟩
  | [], _ :: _, _ | _ :: _, [], _ => fun _ _ h => by cases h
  | a :: as, b :: bs, h => by
    intro t ht hanswer
    have hrun : (equalAllUnder pairing (a :: as) (b :: bs)).run t =
        (if ((a.equalUnder pairing b).run t).1 then equalAllUnder pairing as bs else pure false).run
          ((a.equalUnder pairing b).run t).2 := rfl
    rw [hrun] at hanswer ⊢
    cases hhead : ((a.equalUnder pairing b).run t).1 with
    | false =>
      rw [hhead] at hanswer
      cases hanswer
    | true =>
      rw [hhead, if_pos rfl] at hanswer
      obtain ⟨hS, ht'⟩ := h a (by simp) b (by simp) t ht hhead
      have hrest : ∀ c ∈ as, ∀ d ∈ bs, Upholds R a₀ b₀ (c.equalUnder pairing d) (S c d) := fun c hc d hd =>
        h c (by simp [hc]) d (by simp [hd])
      rw [if_pos rfl]
      exact (upholds_equalAllUnder hrest _ ht' hanswer).imp_left (.cons hS)

theorem Upholds.remember {check : StateM Proven Bool} (hcoherent : CoherentAll [a₀, b₀])
    (ha : a₀.Reaches a) (hb : b₀.Reaches b) (hself : a.id = b.id → pairing = [] → A) (hrecorded : R a b → A)
    (hrecord : A → pairing = [] → R a b) (h : Upholds R a₀ b₀ check A) :
    Upholds R a₀ b₀ (Proven.remember pairing a b check) A := by
  intro t ht hanswer
  rw [Proven.run_remember] at hanswer ⊢
  split at hanswer
  · rename_i hknown
    rw [if_pos hknown]
    refine ⟨?_, ht⟩
    rcases hknown with hsame | hin
    · rw [Bool.and_eq_true, beq_iff_eq, List.isEmpty_iff] at hsame
      exact hself hsame.1 hsame.2
    · exact hrecorded (ht a b ha hb hin)
  · rename_i hknown
    rw [if_neg hknown]
    obtain ⟨hA, hwithin⟩ := h t ht hanswer
    refine ⟨hA, ?_⟩
    dsimp only
    split
    · rename_i hempty
      rw [Bool.and_eq_true, List.isEmpty_iff] at hempty
      exact Proven.forall_of_insert hcoherent ha hb (hrecord hA hempty.2) hwithin
    · exact hwithin

/-- A relation that a node has to itself, and that nodes which agree have as soon as their inputs do, is upheld in
every scope. -/
theorem upholds_equalUnder (hcoherent : CoherentAll [a₀, b₀]) (hself : ∀ c, a₀.Reaches c → R c c)
    (hnode : ∀ (pairing : Pairing) (c d : Expr), a₀.Reaches c → b₀.Reaches d →
      (c.formsAgree pairing d && c.attrsEqual d) = true → List.Forall₂ R c.children d.children → R c d)
    (a : Expr) : ∀ {b : Expr} {pairing : Pairing}, a₀.Reaches a → b₀.Reaches b →
      Upholds R a₀ b₀ (a.equalUnder pairing b) (R a b) := by
  induction a using children_induction with
  | step a ih =>
    intro b pairing ha hb
    rw [equalUnder_eq]
    refine .remember hcoherent ha hb (fun hid _ => ?_) (fun hR => hR) (fun hR _ => hR) ?_
    · obtain rfl := hcoherent a b ⟨a₀, by simp, ha⟩ ⟨b₀, by simp, hb⟩ hid
      exact hself a ha
    · have hinputs : Upholds R a₀ b₀ (equalAllUnder (pairing.enter a.params b.params) a.children b.children)
          (List.Forall₂ R a.children b.children) :=
        upholds_equalAllUnder fun c hc d hd => ih c hc (ha.child hc) (hb.child hd)
      exact (Upholds.guard fun _ => hinputs).imp fun h => hnode pairing a b ha hb h.1 h.2

/-- **What structural equality respects.**  A relation holds of all that is structurally equal if a node has it to
itself and nodes that agree, parameters being paired in whatever way, have it as soon as their inputs do. -/
theorem related_of_equal (hcoherent : CoherentAll [a, b]) (hself : ∀ c, a.Reaches c → R c c)
    (hnode : ∀ (pairing : Pairing) (c d : Expr), a.Reaches c → b.Reaches d →
      (c.formsAgree pairing d && c.attrsEqual d) = true → List.Forall₂ R c.children d.children → R c d)
    (h : a.equal b = true) : R a b :=
  (upholds_equalUnder hcoherent hself hnode a .refl .refl ∅ recordsWithin_empty h).1

end Expr
end Dataflow
