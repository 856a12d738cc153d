import CyclePlan.Config
import CyclePlan.Document.Results
import CyclePlan.Lp.Assignment
import CyclePlan.Lp.Text
import CyclePlan.Scalar.Rational
import CyclePlan.Proofs.Action
import CyclePlan.Proofs.Lp.Operations
import CyclePlan.Proofs.Lp.Rows
import CyclePlan.Proofs.Lp.Building
import CyclePlan.Proofs.Graph.Draining
import CyclePlan.Proofs.Graph.Extension
import CyclePlan.Proofs.Graph.LeastExtension
import CyclePlan.Proofs.Graph.View
import CyclePlan.Proofs.Graph.Fit
import CyclePlan.Proofs.Lp.Program
import CyclePlan.Proofs.Scalar.Words
import CyclePlan.Proofs.Scalar.Doubles
import CyclePlan.Proofs.Engine.Names
import CyclePlan.Proofs.Engine.Rows
import CyclePlan.Proofs.Engine.Declaring
import CyclePlan.Proofs.Engine.Accepting
import CyclePlan.Proofs.Engine.Building
import CyclePlan.Proofs.Engine.Steps
import CyclePlan.Proofs.Engine.Built
import CyclePlan.Proofs.Engine.Runs
import CyclePlan.Proofs.Engine.Reading
import CyclePlan.Proofs.Lp.Oracle
import CyclePlan.Proofs.Schedule.Check
import CyclePlan.Proofs.Engine.Solved
import CyclePlan.Proofs.Soundness
import CyclePlan.Proofs.Difference
import CyclePlan.Proofs.Earliest
import CyclePlan.Proofs.Recurrence
import CyclePlan.Proofs.Engine.Loans
import CyclePlan.Proofs.Resource.Growth
import CyclePlan.Proofs.Resource.Columns
import CyclePlan.Proofs.Pinning
import CyclePlan.Proofs.Graph.Projection
import CyclePlan.Proofs.Graph.CanonicalOrder
import CyclePlan.Proofs.Dominance
import CyclePlan.Proofs.Engine.Leftovers
import CyclePlan.Proofs.Engine.Refused
import CyclePlan.Proofs.Engine.Calls
import CyclePlan.Proofs.Lifecycle
import CyclePlan.Proofs.Feasible
import CyclePlan.Proofs.Rollback
import CyclePlan.Proofs.LastSolve
import CyclePlan.Proofs.Refusals
import CyclePlan.Proofs.Lp.Extension
import CyclePlan.Proofs.Resource.Activation
import CyclePlan.Proofs.Resource.TimeIndexed
import CyclePlan.Proofs.WithinHorizon
import CyclePlan.Proofs.Engine.Ends
import CyclePlan.Proofs.CriticalPath
import CyclePlan.Proofs.Graph.Construction
import CyclePlan.Proofs.Graph.Enclosed
import CyclePlan.Proofs.Latest
import CyclePlan.Proofs.Resource.Compaction
import CyclePlan.Proofs.DerivedHorizon
import CyclePlan.Proofs.Lp.FurtherRows
import CyclePlan.Proofs.Ordering
import CyclePlan.Proofs.Resource.Waiting
import CyclePlan.Proofs.Engine.Ordered
import CyclePlan.Proofs.Issue
import CyclePlan.Proofs.LimitedSearch
import CyclePlan.Proofs.Simplex.Rows
import CyclePlan.Proofs.Simplex.Pivoting
import CyclePlan.Proofs.Simplex.Layout
import CyclePlan.Proofs.Simplex.Phases
import CyclePlan.Proofs.Simplex.Expressions
import CyclePlan.Proofs.Simplex.Exactness
import CyclePlan.Proofs.Lp.Rounds
import CyclePlan.Proofs.Lp.BranchAndBound
import CyclePlan.Proofs.Simplex.Network
import CyclePlan.Proofs.Simplex.Grid
import CyclePlan.Proofs.Simplex.Differences
import CyclePlan.Proofs.Lp.NearlyWhole
import CyclePlan.Proofs.FractionalLatencies
import CyclePlan.Proofs.Acceptance
import CyclePlan.Proofs.Graph.Bounding
import CyclePlan.Proofs.Graph.Consistency
import CyclePlan.Proofs.Graph.Wiring
import CyclePlan.Proofs.Graph.Bounded
import CyclePlan.Proofs.Graph.Closed
import CyclePlan.Proofs.BlockOrder
import CyclePlan.Proofs.Resource.Passes
import CyclePlan.Proofs.Resource.LeastStarts
import CyclePlan.Proofs.PinningProgress
import CyclePlan.Proofs.Lp.NodeLimit
import CyclePlan.Proofs.Scalar.Rounding
import CyclePlan.Proofs.Lp.RootAnswer
import CyclePlan.Proofs.OneRelaxation
import CyclePlan.Proofs.Resource.Looks
import CyclePlan.Proofs.PinningBudget
import CyclePlan.Proofs.Lp.BackedSolver
import CyclePlan.Proofs.LatencyBound
import CyclePlan.Proofs.Graph.RefusedCalls
import CyclePlan.Proofs.Graph.Parts
import CyclePlan.Proofs.Resource.Ample
import CyclePlan.Proofs.AmpleLimits
import CyclePlan.Proofs.Scalar.Comparison
import CyclePlan.Proofs.Lp.Store
import CyclePlan.Proofs.Schedule.KeyFigures
import CyclePlan.Proofs.RecordedEnds
import CyclePlan.Proofs.Json.Shape
import CyclePlan.Proofs.Defaults
import CyclePlan.Proofs.Simplex.Corners
import CyclePlan.Proofs.Simplex.Termination
import CyclePlan.Proofs.Schedule.Residues
