import Dataflow.Binary64.Basic
/-!
# The fewest digits that read back

The reals that round to a finite positive number form an interval around it, which contains its ends exactly if
the significand is even.  `shortest` takes the coarsest decimal grid on which one of the number's two
neighbours lies in that interval, and of two such neighbours the nearer, the upper one from the midpoint.
Scaled by a power of ten the number and both ends are whole, so the search is exact.
-/
namespace Dataflow

/-- The decimal number `0.d₁d₂d₃… * 10 ^ point`, given by its digits from the first to the last. -/
structure Digits where
  digits : List Char
  point : Int
  deriving DecidableEq

/-- A positive number and the ends of the interval that rounds to it, as whole multiples of `10 ^ (-places)`. -/
structure Spread where
  low : Nat
  value : Nat
  high : Nat
  closed : Bool
  places : Nat

namespace Spread

def holds (s : Spread) (n : Nat) : Bool :=
  if s.closed then s.low ≤ n && n ≤ s.high else s.low < n && n < s.high

/-- Of the two multiples of `unit` around the value, the nearer one in the interval. -/
def nearest? (s : Spread) (unit : Nat) : Option Nat :=
  let below := s.value / unit * unit
  let above := below + unit
  match s.holds below, s.holds above with
  | true, true => some (if s.value - below < above - s.value then below else above)
  | true, false => some below
  | false, true => some above
  | false, false => none

/-- The first of the grids with 1, 2, … 17 digits that has a multiple in the interval; seventeen always do. -/
def shortest (s : Spread) : Nat :=
  let width := (Nat.toDigits 10 s.value).length
  ((List.range 17).findSome? fun n => s.nearest? (Nat.pow 10 (width - (n + 1)))).getD s.value

end Spread

namespace Binary64

/-- The interval below a power of two is half as wide as the one above it. -/
def spread (x : Binary64) : Spread :=
  let m := x.significand
  let down := if x.fractionField = 0 && 1 < x.exponentField then 1 else 2
  let e := x.exponent - 2
  let places := (-e).toNat
  let scale := Nat.pow 5 places <<< e.toNat
  { low := (4 * m - down) * scale
    value := 4 * m * scale
    high := (4 * m + 2) * scale
    closed := m % 2 == 0
    places }

/-- The shortest decimal of a finite number other than zero, without its sign and without trailing zeros. -/
def shortest (x : Binary64) : Digits :=
  let s := x.spread
  let digits := Nat.toDigits 10 s.shortest
  { digits := (digits.reverse.dropWhile (· == '0')).reverse
    point := digits.length - s.places }

end Binary64
end Dataflow
