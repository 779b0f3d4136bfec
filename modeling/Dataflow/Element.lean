import Dataflow.Binary64.Printer
import Dataflow.Binary64.Narrow
import Dataflow.DType.Basic
/-!
# Elements of constants

An element is a truth value, a signed or unsigned word or a number.  Two elements are equal when they are of one
kind and have the same bits; `sameValue` compares numbers by value instead.

A `HostScalar` type is one whose values are elements of one scalar type.
-/
namespace Dataflow

inductive Element where
  | bool (v : Bool)
  | int (v : Int64)
  | uint (v : UInt64)
  | float (v : Binary64)
  deriving DecidableEq, Inhabited

namespace Element

def sameValue : Element → Element → Bool
  | float a, float b => a.sameValue b
  | a, b => a == b

def text : Element → String
  | bool v => if v then "true" else "false"
  | int v => toString v.toInt
  | uint v => toString v.toNat ++ "u"
  | float v => v.text

end Element

/-- A number rounded to single precision, held as the double of the same value. -/
structure Binary32 where
  value : Binary64
  deriving DecidableEq, Inhabited

def Binary64.narrow (x : Binary64) : Binary32 := ⟨x.toSingle⟩

class HostScalar (α : Type) where
  scalarType : ScalarType
  element : α → Element

/-- The element type of a value, which its type alone decides. -/
def dtypeOf {α : Type} [HostScalar α] (_ : α) : DType := .scalar (HostScalar.scalarType α)

namespace HostScalar

instance : HostScalar Bool := ⟨.bool, .bool⟩
instance : HostScalar Int8 := ⟨.int8, fun v => .int v.toInt64⟩
instance : HostScalar Int16 := ⟨.int16, fun v => .int v.toInt64⟩
instance : HostScalar Int32 := ⟨.int32, fun v => .int v.toInt64⟩
instance : HostScalar Int64 := ⟨.int64, .int⟩
instance : HostScalar UInt8 := ⟨.uint8, fun v => .uint v.toUInt64⟩
instance : HostScalar UInt16 := ⟨.uint16, fun v => .uint v.toUInt64⟩
instance : HostScalar UInt32 := ⟨.uint32, fun v => .uint v.toUInt64⟩
instance : HostScalar UInt64 := ⟨.uint64, .uint⟩
instance : HostScalar Binary32 := ⟨.float32, fun v => .float v.value⟩
instance : HostScalar Binary64 := ⟨.float64, .float⟩

end HostScalar
end Dataflow
