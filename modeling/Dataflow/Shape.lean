import Dataflow.SymInt.Basic
import Dataflow.Text.Quoted
/-!
# Shapes

The shape of a value is a list of dimensions, or only known when the program runs.
-/
namespace Dataflow

inductive Shape where
  | known (dims : List SymInt)
  | runtime
  deriving DecidableEq, Inhabited

namespace Shape

def dims? : Shape → Option (List SymInt)
  | known ds => some ds
  | runtime => none

def isRuntime : Shape → Bool
  | known _ => false
  | runtime => true

/-- The text of a list of dimensions. -/
def dimsText (ds : List SymInt) : String := Text.bracketed (ds.map SymInt.text)

def text : Shape → String
  | known ds => dimsText ds
  | runtime => "[runtime]"

end Shape
end Dataflow
