import Dataflow.Operator.Registry
/-!
# The built-in operators

Every built-in operator has a fusion category, which the attribute table `TOpPattern` holds as a number.
-/
namespace Dataflow

inductive FusionCategory where
  | elementwise | broadcast | injective | reduction | fusableOutput | tuple | barrier
  deriving DecidableEq

def FusionCategory.code : FusionCategory → Int64
  | elementwise => 0
  | broadcast => 1
  | injective => 2
  | reduction => 3
  | fusableOutput => 4
  | tuple => 7
  | barrier => 8

/-- The attribute table of the fusion categories. -/
def fusionTable : String := "TOpPattern"

def builtinOperators : List (String × Nat × FusionCategory) := [
  ("add", 2, .broadcast), ("subtract", 2, .broadcast),
  ("multiply", 2, .broadcast), ("divide", 2, .broadcast),
  ("floor_divide", 2, .broadcast), ("power", 2, .broadcast),
  ("maximum", 2, .broadcast), ("minimum", 2, .broadcast),
  ("negative", 1, .elementwise), ("exp", 1, .elementwise),
  ("log", 1, .elementwise), ("sqrt", 1, .elementwise),
  ("sigmoid", 1, .elementwise), ("tanh", 1, .elementwise),
  ("nn.relu", 1, .elementwise), ("nn.leaky_relu", 1, .elementwise),
  ("nn.conv2d", 2, .fusableOutput), ("nn.dense", 2, .fusableOutput),
  ("nn.matmul", 2, .fusableOutput), ("nn.bias_add", 2, .broadcast),
  ("nn.softmax", 1, .barrier), ("reshape", 2, .injective),
  ("transpose", 1, .injective), ("sum", 1, .reduction),
  ("mean", 1, .reduction), ("concatenate", 1, .injective),
  ("split", 1, .injective)]

/-- The registry of the built-in operators, whose nodes are numbered from 0. -/
def Registry.builtin : Registry :=
  builtinOperators.zipIdx.foldl (fun r ((name, arity, category), node) =>
    (r.register ⟨name, some arity⟩ node).setAttr fusionTable name (.int category.code)) empty

end Dataflow
