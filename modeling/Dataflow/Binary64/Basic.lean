/-!
# Double-precision numbers by their bits

A number is its 64 bits: a sign, an 11-bit exponent field and a 52-bit fraction.  Comparison comes in two kinds,
of the bits (`=`) and of the values (`sameValue`), which differ on the two zeros and on the values that are no
number.  A finite number has the exact value `significand * 2 ^ exponent`, up to its sign.
-/
namespace Dataflow

structure Binary64 where
  bits : UInt64
  deriving DecidableEq, Inhabited

namespace Binary64

def isNegative (x : Binary64) : Bool := x.bits >>> 63 == 1

def exponentField (x : Binary64) : Nat := (x.bits >>> 52 &&& 0x7ff).toNat

def fractionField (x : Binary64) : Nat := (x.bits &&& 0xfffffffffffff).toNat

def isNaN (x : Binary64) : Bool := x.exponentField == 2047 && x.fractionField != 0

def isInfinite (x : Binary64) : Bool := x.exponentField == 2047 && x.fractionField == 0

def isZero (x : Binary64) : Bool := x.exponentField == 0 && x.fractionField == 0

/-- The whole number that a power of two scales: the fraction with its leading bit, which only the numbers with
the least exponent lack. -/
def significand (x : Binary64) : Nat :=
  if x.exponentField = 0 then x.fractionField else 1 <<< 52 + x.fractionField

/-- The power of two that scales the significand. -/
def exponent (x : Binary64) : Int := (max x.exponentField 1 : Nat) - 1075

/-- Equality of values: a value that is no number equals nothing, and the two zeros are equal. -/
def sameValue (x y : Binary64) : Bool :=
  !x.isNaN && !y.isNaN && (x == y || x.isZero && y.isZero)

/-- The number with these three fields. -/
def ofFields (negative : Bool) (exponentField fractionField : Nat) : Binary64 :=
  let sign : UInt64 := if negative then 1 else 0
  ⟨sign <<< 63 ||| exponentField.toUInt64 <<< 52 ||| fractionField.toUInt64⟩

theorem sameValue_comm (x y : Binary64) : x.sameValue y = y.sameValue x := by
  simp only [sameValue, Bool.beq_comm (a := x), Bool.and_comm (x.isZero), Bool.and_comm (!x.isNaN)]

end Binary64
end Dataflow
