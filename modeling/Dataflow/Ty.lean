import Dataflow.DType.Name
/-!
# Types of expressions

A tensor type may leave its rank and its element type open.  Two types are equal when they have the same
form and parts; an open rank equals no other rank.
-/
namespace Dataflow

inductive Ty where
  /-- An opaque value. -/
  | object
  /-- The type of a list of dimensions. -/
  | shape
  | tensor (rank : Option Nat) (dtype : Option DType)
  | tuple (fields : List Ty)
  | func (params : List Ty) (result : Ty)
  deriving Inhabited

namespace Ty

mutual
def beq : Ty → Ty → Bool
  | object, object => true
  | shape, shape => true
  | tensor r d, tensor r' d' => r == r' && d == d'
  | tuple fs, tuple gs => beqAll fs gs
  | func ps r, func ps' r' => beqAll ps ps' && beq r r'
  | _, _ => false
def beqAll : List Ty → List Ty → Bool
  | [], [] => true
  | t :: ts, u :: us => beq t u && beqAll ts us
  | _, _ => false
end

instance : BEq Ty := ⟨beq⟩

mutual
theorem eq_of_beq : ∀ (t u : Ty), beq t u = true → t = u
  | object, u, h => by cases u <;> simp_all [beq]
  | shape, u, h => by cases u <;> simp_all [beq]
  | tensor r d, u, h => by cases u <;> simp_all [beq]
  | tuple fs, u, h => by
    cases u <;> simp [beq] at h
    rw [eq_of_beqAll fs _ h]
  | func ps r, u, h => by
    cases u <;> simp [beq] at h
    rw [eq_of_beqAll ps _ h.1, eq_of_beq r _ h.2]
theorem eq_of_beqAll : ∀ (ts us : List Ty), beqAll ts us = true → ts = us
  | [], us, h => by cases us <;> simp_all [beqAll]
  | t :: ts, us, h => by
    cases us <;> simp [beqAll] at h
    rw [eq_of_beq t _ h.1, eq_of_beqAll ts _ h.2]
end

mutual
theorem beq_self : ∀ t : Ty, beq t t = true
  | object => rfl
  | shape => rfl
  | tensor r d => by simp [beq]
  | tuple fs => beqAll_self fs
  | func ps r => by rw [beq, beqAll_self ps, beq_self r]; rfl
theorem beqAll_self : ∀ ts : List Ty, beqAll ts ts = true
  | [] => rfl
  | t :: ts => by rw [beqAll, beq_self t, beqAll_self ts]; rfl
end

instance : LawfulBEq Ty where
  eq_of_beq := eq_of_beq _ _
  rfl := beq_self _

instance : DecidableEq Ty := fun t u => decidable_of_iff (t == u) beq_iff_eq

/-- The element type of a tensor type that has one. -/
def dtype? : Ty → Option DType
  | tensor _ d => d
  | _ => none

mutual
def text : Ty → String
  | object => "Object"
  | shape => "Shape"
  | tensor r d =>
    let rank := match r with
      | some n => toString n
      | none => "?"
    let dtype := match d with
      | some d => d.name
      | none => "?"
    "Tensor[ndim=" ++ rank ++ ", " ++ dtype ++ "]"
  | tuple fs => Text.parenthesized (texts fs)
  | func ps r => "fn" ++ Text.parenthesized (texts ps) ++ " -> " ++ r.text
def texts : List Ty → List String
  | [] => []
  | t :: ts => t.text :: texts ts
end

end Ty
end Dataflow
