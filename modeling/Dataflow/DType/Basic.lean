import Dataflow.Word
/-!
# Element types

An element type is a scalar type, or a vector of a fixed number of lanes of one.  A vector of one lane is the
scalar itself: `withLanes` never builds it.
-/
namespace Dataflow

/-- The scalar types, in their order. -/
inductive ScalarType where
  | bool
  | int8 | int16 | int32 | int64
  | uint8 | uint16 | uint32 | uint64
  | float16 | bfloat16 | float32 | float64
  /-- Values without stored elements, such as handles and tokens. -/
  | void
  deriving DecidableEq, Ord, Inhabited

namespace ScalarType

def all : List ScalarType :=
  [bool, int8, int16, int32, int64, uint8, uint16, uint32, uint64, float16, bfloat16, float32, float64, void]

theorem mem_all (t : ScalarType) : t ∈ all := by cases t <;> simp [all]

def bits : ScalarType → Nat
  | bool => 1
  | int8 | uint8 => 8
  | int16 | uint16 | float16 | bfloat16 => 16
  | int32 | uint32 | float32 => 32
  | int64 | uint64 | float64 => 64
  | void => 0

def isBool (t : ScalarType) : Bool := t == bool

def isSigned : ScalarType → Bool
  | int8 | int16 | int32 | int64 => true
  | _ => false

def isUnsigned : ScalarType → Bool
  | uint8 | uint16 | uint32 | uint64 => true
  | _ => false

def isInt (t : ScalarType) : Bool := t.isSigned || t.isUnsigned

def isFloat : ScalarType → Bool
  | float16 | bfloat16 | float32 | float64 => true
  | _ => false

end ScalarType

inductive DType where
  | scalar (base : ScalarType)
  | vector (base : ScalarType) (lanes : UInt64)
  deriving DecidableEq, Inhabited

namespace DType

def base : DType → ScalarType
  | scalar b | vector b _ => b

def lanes : DType → UInt64
  | scalar _ => 1
  | vector _ n => n

/-- The same base with `n` lanes. -/
def withLanes (d : DType) (n : UInt64) : DType :=
  if n = 1 then scalar d.base else vector d.base n

def scalar? : DType → Option ScalarType
  | scalar b => some b
  | vector .. => none

def isVector : DType → Bool
  | scalar _ => false
  | vector .. => true

/-- The size of one element, if it is a word. -/
def bits? (d : DType) : Option UInt64 :=
  Word.times? (UInt64.ofNat d.base.bits) d.lanes

/-- Only the scalar is void: a vector of void lanes is a vector. -/
def isVoid (d : DType) : Bool := d == scalar .void

@[simp] theorem base_withLanes (d : DType) (n : UInt64) : (d.withLanes n).base = d.base := by
  unfold withLanes; split <;> rfl

@[simp] theorem lanes_withLanes (d : DType) (n : UInt64) : (d.withLanes n).lanes = n := by
  unfold withLanes; split <;> simp_all [lanes]

end DType
end Dataflow
