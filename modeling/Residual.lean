import Residual.Program
import Residual.Proofs.Typed.Lawful
import Residual.Proofs.Typed.Representations
import Residual.Proofs.Typed.Unions
import Residual.Proofs.Session.BoundMisses
import Residual.Proofs.Session.Keys
import Residual.Proofs.Session.Programs
import Residual.Typed.Order.Code
import Residual.Proofs.Eval.Computes
import Residual.Proofs.Eval.Operations
import Residual.Proofs.Eval.Simulation
import Residual.Proofs.Eval.Static
import Residual.Proofs.Session.Residuals
import Residual.Proofs.Eval.Signatures
import Residual.Proofs.Session.ClosureKeys
import Residual.Proofs.Eval.Emission
import Residual.Proofs.Eval.RegionParts
import Residual.Proofs.Eval.RegionBranches
import Residual.Proofs.Eval.RegionPoints
import Residual.Proofs.Eval.RegionSteps
import Residual.Proofs.Session.Emitted
import Residual.Proofs.Session.RecursiveTypes
import Residual.Proofs.Session.TypeTable
import Residual.Proofs.Session.FailedRetries
import Residual.Proofs.Session.FreeVariables
import Residual.Proofs.Session.FunctionKeys
import Residual.Proofs.Session.FunctionOrder
import Residual.Proofs.Session.Positions
import Residual.Proofs.Session.SelfCalls
import Residual.Proofs.Session.SharedResults
import Residual.Proofs.Surface.RecordedNames
import Residual.Proofs.Typed.CaptureFree
import Residual.Proofs.Session.FirstMatch
import Residual.Proofs.Eval.Folding
import Residual.Proofs.Session.Instances
import Residual.Proofs.Session.ShapeTests
import Residual.Proofs.Session.ExclusiveMatches
import Residual.Proofs.Surface.FreshNames
import Residual.Proofs.Session.Dynamized
import Residual.Proofs.Session.TransparentSharing
