import Dataflow.Expr.Typing
import Dataflow.Proofs.Expr.Comparison
/-!
# Deduction respects structural equality

Without annotations the type and the shape of a node follow from its form, its data and the types of its inputs
(`deduced_of_formsAgree`).  A variable has neither, so it does not matter which variables structural equality takes for
one another: what is structurally equal has one type and one shape (`deduced_of_equal`).
-/
namespace Dataflow
namespace Expr

variable {pairing : Pairing} {a b : Expr} {es fs : List Expr}

/-- No type or shape is written at a node. -/
def Unannotated (e : Expr) : Prop := e.checkedType? = none ∧ e.shapeAnnotation? = none

/-- Two nodes have the same type, or both none, and likewise for their shapes. -/
def SameDeduction (a b : Expr) : Prop := a.inferType? = b.inferType? ∧ a.shape? = b.shape?

theorem inferTypes?_congr (h : List.Forall₂ SameDeduction es fs) : inferTypes? es = inferTypes? fs := by
  induction h with
  | nil => rfl
  | cons hhead _ ih => rw [inferTypes?, inferTypes?, hhead.1, ih]

theorem paramTypes_congr (h : List.Forall₂ SameDeduction es fs) : paramTypes es = paramTypes fs := by
  induction h with
  | nil => rfl
  | cons hhead _ ih => rw [paramTypes, paramTypes, hhead.1, ih]

/-- The inputs of two functions with as many parameters are the parameters and the bodies. -/
theorem forall₂_concat {R : Expr → Expr → Prop} (hlength : es.length = fs.length) :
    List.Forall₂ R (es ++ [a]) (fs ++ [b]) ↔ List.Forall₂ R es fs ∧ R a b := by
  rw [List.forall₂_iff_zip, List.forall₂_iff_zip, List.zip_append hlength]
  simp only [List.length_append, List.length_singleton, List.zip_cons_cons, List.zip_nil_right, List.mem_append,
    List.mem_singleton, Prod.mk.injEq]
  constructor
  · rintro ⟨-, h⟩
    exact ⟨⟨hlength, fun hx => h (.inl hx)⟩, h (.inr ⟨rfl, rfl⟩)⟩
  · rintro ⟨⟨-, h⟩, hab⟩
    refine ⟨by rw [hlength], fun hx => ?_⟩
    rcases hx with hx | ⟨rfl, rfl⟩
    · exact h hx
    · exact hab

/-- **Nodes that agree have one type and one shape if their inputs have.** -/
theorem deduced_of_formsAgree (ha : a.Unannotated) (hb : b.Unannotated) (hforms : a.formsAgree pairing b = true)
    (hinputs : List.Forall₂ SameDeduction a.children b.children) : SameDeduction a b := by
  obtain ⟨hta, hsa⟩ := ha
  obtain ⟨htb, hsb⟩ := hb
  unfold SameDeduction
  rw [inferType?.eq_def a, inferType?.eq_def b, shape?.eq_def a, shape?.eq_def b, hta, htb, hsa, hsb]
  cases a with
  | constant _ c =>
    cases b with
    | constant _ d =>
      have hcd : c = d := beq_iff_eq.1 hforms
      rw [hcd]
      exact ⟨rfl, rfl⟩
    | _ => cases hforms
  | var | external | op | dims => cases b <;> simp_all [formsAgree]
  | call =>
    cases b with
    | call =>
      obtain ⟨hcallee, -⟩ := List.forall₂_cons.1 hinputs
      refine ⟨?_, rfl⟩
      dsimp only
      rw [hcallee.1]
    | _ => cases hforms
  | tuple =>
    cases b with
    | tuple => exact ⟨congrArg (Option.map Ty.tuple) (inferTypes?_congr hinputs), rfl⟩
    | _ => cases hforms
  | item _ t k =>
    cases b with
    | item _ u l =>
      have hkl : k = l := beq_iff_eq.1 hforms
      obtain ⟨htuple, -⟩ := List.forall₂_cons.1 hinputs
      refine ⟨?_, rfl⟩
      dsimp only
      rw [htuple.1, hkl]
    | _ => cases hforms
  | function _ ps body =>
    cases b with
    | function _ qs cody =>
      obtain ⟨hparams, hbody⟩ := (forall₂_concat (beq_iff_eq.1 hforms)).1 hinputs
      refine ⟨?_, rfl⟩
      dsimp only
      rw [hbody.1, paramTypes_congr hparams]
    | _ => cases hforms
  | cond =>
    cases b with
    | cond =>
      obtain ⟨-, hbranches⟩ := List.forall₂_cons.1 hinputs
      obtain ⟨hthen, hrest⟩ := List.forall₂_cons.1 hbranches
      obtain ⟨helse, -⟩ := List.forall₂_cons.1 hrest
      refine ⟨?_, rfl⟩
      dsimp only
      rw [hthen.1, helse.1]
    | _ => cases hforms

/-- **What is structurally equal has one type and one shape**, if no node is annotated. -/
theorem deduced_of_equal (a b : Expr) (hcoherent : CoherentAll [a, b]) (ha : ∀ e, a.Reaches e → e.Unannotated)
    (hb : ∀ e, b.Reaches e → e.Unannotated) (h : a.equal b = true) :
    a.inferType? = b.inferType? ∧ a.shape? = b.shape? := by
  refine related_of_equal (R := SameDeduction) hcoherent (fun _ _ => ⟨rfl, rfl⟩) ?_ h
  intro pairing c d hc hd hnodes hinputs
  exact deduced_of_formsAgree (ha c hc) (hb d hd) (Bool.and_eq_true_iff.1 hnodes).1 hinputs

/-- A branch on a variable beside a function that returns it: on one side the variable is free in the function, on the
other it is its parameter, twice. -/
theorem deduced_of_equal_of_captured :
    let one : Tensor := ⟨.scalar .float32, [], [.float ⟨0x3ff0000000000000⟩]⟩
    let x := var ⟨0, none, none⟩ ⟨0, "x"⟩
    let y := var ⟨1, none, none⟩ ⟨1, "y"⟩
    let c := constant ⟨2, none, none⟩ one
    let e := cond ⟨3, none, none⟩ x c c
    let h := function ⟨4, none, none⟩ [y, y] e .empty
    let a := tuple ⟨5, none, none⟩ [e, h]
    let d := constant ⟨6, none, none⟩ one
    let e' := cond ⟨7, none, none⟩ x d d
    let f := function ⟨8, none, none⟩ [x, x] e' .empty
    let b := tuple ⟨9, none, none⟩ [e', f]
    let t := Ty.tensor (some 0) (some (.scalar .float32))
    CoherentAll [a, b] ∧ (∀ e, a.Reaches e → e.Unannotated) ∧ (∀ e, b.Reaches e → e.Unannotated) ∧
      a.equal b = true ∧ (a.inferType? = b.inferType? ∧ a.shape? = b.shape?) ∧
        b.inferType? = some (.tuple [t, .func [.object, .object] t]) := by
  intro one x y c e h a d e' f b t
  let nodes := [a, b, e, e', h, f, c, d, x, y]
  have hclosed : ∀ e ∈ nodes, ∀ c ∈ e.children, c ∈ nodes := by
    simp [nodes, a, b, e, e', h, f, c, d, x, y, children]
  have hroots : ∀ r ∈ [a, b], r ∈ nodes := by simp [nodes]
  have hcoherent : CoherentAll [a, b] := coherentAll_of_closed hroots hclosed (by decide)
  have hbare : ∀ e ∈ nodes, e.Unannotated := by
    simp [nodes, a, b, e, e', h, f, c, d, x, y, Unannotated, checkedType?, shapeAnnotation?, info]
  have hleft : ∀ e, a.Reaches e → e.Unannotated := fun e he => hbare e (he.mem_of_closed (hroots a (by simp)) hclosed)
  have hright : ∀ e, b.Reaches e → e.Unannotated := fun e he => hbare e (he.mem_of_closed (hroots b (by simp)) hclosed)
  have hequal : a.equal b = true := by decide +kernel
  exact ⟨hcoherent, hleft, hright, hequal, deduced_of_equal a b hcoherent hleft hright hequal, rfl⟩

end Expr
end Dataflow
