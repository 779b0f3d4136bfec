import Dataflow.Binary64.Basic
/-!
# Rounding to single precision

A single-precision number has 24 significant bits, no power of two below `2 ^ -149`, and magnitude below
`2 ^ 128`.  `toSingle` rounds to the nearest of them, to the one with an even significand from the midpoint of
two, and gives the result as a double, where it is exact.
-/
namespace Dataflow

/-- `n / 2 ^ k` rounded to the nearest whole number, halves to the even neighbour. -/
def roundShift (n k : Nat) : Nat :=
  let unit := 1 <<< k
  let q := n / unit
  let r := n % unit
  if 2 * r < unit then q
  else if unit < 2 * r then q + 1
  else q + q % 2

namespace Binary64

/-- The number `m * 2 ^ e`, for a significand below `2 ^ 53` and an exponent in the range of normal numbers. -/
def ofScaled (negative : Bool) (m : Nat) (e : Int) : Binary64 :=
  if m = 0 then ofFields negative 0 0
  else
    let lead := m.log2
    ofFields negative (e + lead + 1023).toNat (m <<< (52 - lead) - 1 <<< 52)

/-- The nearest single-precision number; one that is no number keeps its sign and its leading payload bits and
becomes quiet. -/
def toSingle (x : Binary64) : Binary64 :=
  if x.isNaN then ofFields x.isNegative 2047 (x.fractionField >>> 29 <<< 29 ||| 1 <<< 51)
  else if x.isInfinite || x.isZero then x
  else
    let m := x.significand
    let e := max (x.exponent + m.log2 - 23) (-149)
    if e ≤ x.exponent then x
    else
      let r := roundShift m (e - x.exponent).toNat
      if e + r.log2 ≥ 128 then ofFields x.isNegative 2047 0
      else ofScaled x.isNegative r e

end Binary64
end Dataflow
