import Dataflow.DType.Basic
import Dataflow.Text.Quoted
/-!
# Names of element types

Every element type has one name: that of its scalar, followed for a vector by `x` and the lane count in decimal.
`DType.parse` reads a name.  No scalar's name has an `x`, so the last one in a text is where a lane count would
begin; a text that has digits there, or nothing, is judged by its lane count before its scalar is looked at.
-/
namespace Dataflow

def ScalarType.name : ScalarType → String
  | bool => "bool"
  | int8 => "int8"
  | int16 => "int16"
  | int32 => "int32"
  | int64 => "int64"
  | uint8 => "uint8"
  | uint16 => "uint16"
  | uint32 => "uint32"
  | uint64 => "uint64"
  | float16 => "float16"
  | bfloat16 => "bfloat16"
  | float32 => "float32"
  | float64 => "float64"
  | void => "void"

def ScalarType.ofName? (s : String) : Option ScalarType :=
  ScalarType.all.find? fun t => t.name == s

theorem ScalarType.ofName?_name (t : ScalarType) : ScalarType.ofName? t.name = some t := by
  cases t <;> decide +kernel

theorem ScalarType.name_of_ofName? {s : String} {t : ScalarType} (h : ScalarType.ofName? s = some t) :
    t.name = s := by
  simpa using List.find?_some h

namespace DType

def name : DType → String
  | scalar b => b.name
  | vector b n => b.name ++ "x" ++ toString n.toNat

/-- Why a text names no element type. -/
inductive NameError where
  | unknown (name : String)
  | laneCount (name : String) (count : UInt64)
  deriving DecidableEq

def NameError.message : NameError → String
  | unknown name => "unknown dtype name " ++ Text.quoted name
  | laneCount name count =>
    "invalid lane count " ++ toString count.toNat ++ " in dtype " ++ Text.quoted name
      ++ ": vectors need at least 2 lanes"

/-- The text before and the text after the last `c`. -/
def splitLast? (c : Char) : List Char → Option (List Char × List Char)
  | [] => none
  | a :: s =>
    match splitLast? c s with
    | some (before, after) => some (a :: before, after)
    | none => if a = c then some ([], s) else none

/-- The word that decimal digits denote; there is none without digits. -/
def decimal? (digits : List Char) : Option UInt64 :=
  if digits.isEmpty then none
  else Word.ofNat? (digits.foldl (fun n d => 10 * n + (d.toNat - '0'.toNat)) 0)

/-- The base and the lane count that a text claims for itself: it is split at the last `x`, with something before
it and only digits after. -/
def claimedLanes? (s : String) : Option (String × List Char) :=
  match splitLast? 'x' s.toList with
  | some (before, after) =>
    if !before.isEmpty && after.all Char.isDigit then some (String.ofList before, after) else none
  | none => none

def parse (s : String) : Except NameError DType :=
  let known (t : Option ScalarType) : Except NameError ScalarType :=
    match t with
    | some b => .ok b
    | none => .error (.unknown s)
  match claimedLanes? s with
  | none => do return scalar (← known (ScalarType.ofName? s))
  | some (base, digits) =>
    match decimal? digits with
    | none => .error (.unknown s)
    | some n =>
      if n ≤ 1 then .error (.laneCount s n)
      else do return vector (← known (ScalarType.ofName? base)) n

end DType
end Dataflow
