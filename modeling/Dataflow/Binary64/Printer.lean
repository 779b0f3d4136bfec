import Dataflow.Binary64.Shortest
/-!
# The text of a number

Positional from one ten-thousandth up to, and without, ten to the sixteenth, and otherwise with one digit before
the point and an exponent.  Positional text always has a point.
-/
namespace Dataflow

namespace Digits

def positional (d : Digits) : List Char :=
  let whole := d.point.toNat
  if d.point ≤ 0 then "0.".toList ++ List.replicate (-d.point).toNat '0' ++ d.digits
  else if d.digits.length ≤ whole then
    d.digits ++ List.replicate (whole - d.digits.length) '0' ++ ".0".toList
  else d.digits.take whole ++ '.' :: d.digits.drop whole

def scientific (d : Digits) : List Char :=
  d.digits.take 1 ++ (if d.digits.length ≤ 1 then [] else '.' :: d.digits.drop 1)
    ++ 'e' :: (toString (d.point - 1)).toList

def text (d : Digits) : String :=
  String.ofList (if -3 ≤ d.point && d.point ≤ 16 then d.positional else d.scientific)

end Digits

namespace Binary64

def text (x : Binary64) : String :=
  if x.isNaN then "NaN"
  else
    let sign := if x.isNegative then "-" else ""
    if x.isInfinite then sign ++ "inf"
    else if x.isZero then sign ++ "0.0"
    else sign ++ x.shortest.text

end Binary64
end Dataflow
