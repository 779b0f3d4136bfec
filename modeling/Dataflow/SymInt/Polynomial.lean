import Dataflow.Word
import Std.Data.TreeMap
/-!
# Polynomials with word coefficients

A polynomial is a sum of monomials with coefficients other than zero, held in ascending order of the monomials,
so that two sums are the same polynomial exactly if they have the same terms.  A monomial is a sorted product of
atoms: a variable, or a term the polynomial does not look into and knows by a key.  Variables come before keys,
variables in the order of their numbers and keys in the order of their texts.

Arithmetic gives up as soon as one coefficient on its way is no word.  Terms are added one at a time in the order
of the second operand, so whether it gives up may depend on the order of the operands.
-/
namespace Dataflow

inductive Atom where
  | var (id : Nat)
  | sealed (key : String)
  deriving DecidableEq, Ord

namespace Atom

@[simp] theorem compare_var_var (i j : Nat) : compare (var i) (var j) = compare i j := by
  change (compare i j).then .eq = compare i j
  cases compare i j <;> rfl

@[simp] theorem compare_sealed_sealed (s t : String) : compare (sealed s) (sealed t) = compare s t := by
  change (compare s t).then .eq = compare s t
  cases compare s t <;> rfl

@[simp] theorem compare_var_sealed (i : Nat) (t : String) : compare (var i) (sealed t) = .lt := rfl

@[simp] theorem compare_sealed_var (s : String) (j : Nat) : compare (sealed s) (var j) = .gt := rfl

instance : Std.TransOrd Atom where
  eq_swap {a b} := by
    cases a <;> cases b
    · simpa using Std.OrientedCmp.eq_swap
    · rfl
    · rfl
    · simpa using Std.OrientedCmp.eq_swap
  isLE_trans {a b c} hab hbc := by
    cases a <;> cases b <;> cases c <;> simp_all
    · exact Std.TransCmp.isLE_trans hab hbc
    · exact Std.TransCmp.isLE_trans hab hbc

instance : Std.LawfulEqOrd Atom where
  eq_of_compare {a b} h := by
    cases a <;> cases b <;> simp_all

end Atom

/-- The product of its atoms; the empty one is the monomial of the constants. -/
abbrev Monomial := List Atom

/-- The product of two monomials. -/
def Monomial.mul (m n : Monomial) : Monomial := List.merge m n fun a b => (compare a b).isLE

structure Polynomial where
  terms : Std.TreeMap Monomial Int64

namespace Polynomial

/-- The terms in ascending order of their monomials. -/
def toList (p : Polynomial) : List (Monomial × Int64) := p.terms.toList

/-- Polynomials are the same when they have the same terms. -/
instance : BEq Polynomial := ⟨fun p q => p.toList == q.toList⟩

def zero : Polynomial := ⟨∅⟩

/-- The coefficient of a monomial. -/
def coeff (p : Polynomial) (m : Monomial) : Int64 := p.terms.getD m 0

/-- The polynomial with `c` as the coefficient of `m`. -/
def setCoeff (p : Polynomial) (m : Monomial) (c : Int64) : Polynomial :=
  ⟨if c = 0 then p.terms.erase m else p.terms.insert m c⟩

theorem coeff_eq_getD (p : Polynomial) (m : Monomial) : p.coeff m = p.terms[m]?.getD 0 :=
  Std.TreeMap.getD_eq_getD_getElem?

@[simp] theorem coeff_zero (m : Monomial) : zero.coeff m = 0 := by
  simp [coeff, zero]

@[simp] theorem coeff_setCoeff (p : Polynomial) (m n : Monomial) (c : Int64) :
    (p.setCoeff m c).coeff n = if n = m then c else p.coeff n := by
  unfold setCoeff coeff
  split
  · simp only [Std.TreeMap.getD_erase, Std.LawfulEqCmp.compare_eq_iff_eq]
    grind
  · simp only [Std.TreeMap.getD_insert, Std.LawfulEqCmp.compare_eq_iff_eq]
    grind

def constant (v : Int64) : Polynomial := zero.setCoeff [] v

def atom (a : Atom) : Polynomial := zero.setCoeff [a] 1

/-- The value of a polynomial without atoms. -/
def constant? (p : Polynomial) : Option Int64 :=
  if p.terms.isEmpty then some 0
  else if p.terms.size = 1 then p.terms[([] : Monomial)]?
  else none

/-! ## Adding a term

A monomial has a term as soon as something is added to it, also if this comes to zero.  When it does, all terms that are
zero are taken out. -/

/-- The polynomial with `c` in the place of `m`, which may be a new one. -/
def overwrite (p : Polynomial) (m : Monomial) (c : Int64) : Polynomial := ⟨p.terms.insert m c⟩

/-- The polynomial without the terms that are zero. -/
def purge (p : Polynomial) : Polynomial := ⟨p.terms.filter fun _ c => c ≠ 0⟩

@[simp] theorem coeff_overwrite (p : Polynomial) (m n : Monomial) (c : Int64) :
    (p.overwrite m c).coeff n = if n = m then c else p.coeff n := by
  simp only [coeff, overwrite, Std.TreeMap.getD_insert, Std.LawfulEqCmp.compare_eq_iff_eq]
  grind

@[simp] theorem coeff_purge (p : Polynomial) (n : Monomial) : p.purge.coeff n = p.coeff n := by
  rw [coeff_eq_getD, coeff_eq_getD, purge, Std.TreeMap.getElem?_filter']
  cases p.terms[n]? with
  | none => rfl
  | some c => by_cases hc : c = 0 <;> simp [Option.filter, hc]

/-- The polynomial with `c` times the monomial `m` added. -/
def addTerm (p : Polynomial) (m : Monomial) (c : Int64) : Option Polynomial := do
  let sum ← Word.add? (p.coeff m) c
  let filled := p.overwrite m sum
  return if sum = 0 then filled.purge else filled

def add (p q : Polynomial) : Option Polynomial :=
  q.toList.foldlM (fun sum (n, d) => sum.addTerm n d) p

def sub (p q : Polynomial) : Option Polynomial :=
  q.toList.foldlM (fun sum (n, d) => do sum.addTerm n (← Word.neg? d)) p

def mul (p q : Polynomial) : Option Polynomial :=
  let factors := q.toList
  p.toList.foldlM (fun sum (m, c) => factors.foldlM (fun sum (n, d) => do
    sum.addTerm (m.mul n) (← Word.mul? c d)) sum) zero

/-! ## Keys -/

def atomKey : Atom → String
  | .var id => "*v" ++ toString id
  | .sealed key => "*[" ++ key ++ "]"

def termKey (t : Monomial × Int64) : String :=
  toString t.2.toInt ++ String.join (t.1.map atomKey)

/-- The text by which a polynomial is known inside a sealed term. -/
def key (p : Polynomial) : String :=
  if p.terms.isEmpty then "0" else "+".intercalate (p.toList.map termKey)

end Polynomial
end Dataflow
