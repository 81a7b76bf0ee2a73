import Liveness.Command.Session
import Liveness.Main
import Liveness.Syntax.Part
import Liveness.Proofs.Sweeps
import Liveness.Proofs.LivePaths
import Liveness.Proofs.Behaviour
import Liveness.Proofs.DeadAssignments
import Liveness.Proofs.Fragments
import Liveness.Proofs.Points
import Liveness.Proofs.Exactness
import Liveness.Proofs.ExactGraph
import Liveness.Proofs.Reports
import Liveness.Proofs.Unreachable
import Liveness.Proofs.LeastSolutions
import Liveness.Proofs.Coverage
import Liveness.Proofs.Recorded
import Liveness.Proofs.Routing
import Liveness.Proofs.OffsetOrder
import Liveness.Proofs.DeadEdits
import Liveness.Proofs.PassCap
import Liveness.Proofs.SortFailures
import Liveness.Proofs.LoadErrors
import Liveness.Proofs.Observers
import Liveness.Proofs.PassCount
import Liveness.Proofs.JsonText
import Liveness.Proofs.Transparency
import Liveness.Proofs.JsonReport
import Liveness.Proofs.DotLabels
import Liveness.Proofs.CatchClauses
import Liveness.Proofs.ReadRules
import Liveness.Proofs.Encoding
import Liveness.Proofs.KeyOrder
import Liveness.Proofs.Positions
import Liveness.Proofs.WellFormed
import Liveness.Proofs.DotStrings
import Liveness.Proofs.Walks
