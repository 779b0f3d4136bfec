import Dataflow.Match.Matcher
import Dataflow.Expr.Outline
import Dataflow.Pattern.Builder
import Dataflow.Pattern.Printer
import Dataflow.Proofs.SymInt.Denotation
import Dataflow.Proofs.SymInt.Key
import Dataflow.Proofs.SymInt.NormalForm
import Dataflow.Proofs.SymInt.Soundness
import Dataflow.Proofs.Expr.Order
import Dataflow.Proofs.Graph.Forest
import Dataflow.Proofs.Graph.PostDominance
import Dataflow.Proofs.Match.Ensures
import Dataflow.Proofs.Match.Induction
import Dataflow.Proofs.Match.Rollback
import Dataflow.Proofs.Match.Certificate
import Dataflow.Proofs.Match.Linear
import Dataflow.Proofs.Match.Algebra
import Dataflow.Proofs.Expr.Equality
import Dataflow.Proofs.SymInt.Canonical
import Dataflow.Proofs.SymInt.Completeness
import Dataflow.Proofs.Match.InputChain
import Dataflow.Proofs.Graph.Dominated
import Dataflow.Proofs.Graph.Faithful
import Dataflow.Proofs.Match.DominatedParent
import Dataflow.Proofs.SymInt.Acyclic
import Dataflow.Proofs.Match.History
import Dataflow.Proofs.Match.Reuse
import Dataflow.Proofs.Match.Faults
import Dataflow.Proofs.Match.Nesting
import Dataflow.Proofs.Match.Substitute
import Dataflow.Proofs.Match.Jump
import Dataflow.Proofs.Match.Swap
import Dataflow.Proofs.Builder.Workshop
import Dataflow.Proofs.Expr.Copy
import Dataflow.Proofs.Expr.Memory
import Dataflow.Proofs.Match.Switches
import Dataflow.Proofs.SymInt.Resolved
import Dataflow.Proofs.SymInt.Identity
import Dataflow.Proofs.SymInt.FactorOrder
import Dataflow.Proofs.SymInt.ConstantFolding
import Dataflow.Proofs.DType.Grammar
import Dataflow.Proofs.Match.StringKinds
import Dataflow.Proofs.DType.Spelling
import Dataflow.Proofs.Expr.Deduction
import Dataflow.Proofs.Expr.Outline
import Dataflow.Proofs.Builder.Constant
import Dataflow.Proofs.Match.StaticShape
import Dataflow.Proofs.SymInt.Unambiguous
import Dataflow.Proofs.SymInt.Arithmetic
import Dataflow.Proofs.Graph.NearestCommon
import Dataflow.Proofs.SymInt.Division
