/-! # The switches of the matcher's optional rules -/
namespace Dataflow

structure Config where
  /-- Calls of commutative operators also match with their arguments swapped. -/
  commutative : Bool := true
  /-- Quotients and products also match after one re-association. -/
  associative : Bool := true
  /-- Variables are followed to their values. -/
  autoJump : Bool := false
  deriving DecidableEq, Inhabited

namespace Config

def withAutoJump (c : Config) : Config := { c with autoJump := true }

/-- The configuration of an environment, in which a variable named after the tag switches a rule off by being set
at all. -/
def ofEnvironment (tag : String) (isSet : String → Bool) : Config :=
  { commutative := !isSet (tag ++ "_NO_COMMUTATIVE"), associative := !isSet (tag ++ "_NO_ASSOCIATIVE") }

end Config
end Dataflow
