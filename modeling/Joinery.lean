import Joinery.Assembly.Basic
import Joinery.Assembly.Constraint
import Joinery.Assembly.IdMap
import Joinery.Assembly.InputError
import Joinery.Assembly.Problems
import Joinery.Breach
import Joinery.Decimal.Basic
import Joinery.Decimal.Binary
import Joinery.Decimal.Readout
import Joinery.Decimal.Shortest
import Joinery.Dense.Bounded
import Joinery.Dense.Elimination
import Joinery.Dense.Matrix
import Joinery.Dense.Reflection
import Joinery.Dense.SingularValues
import Joinery.Dense.Vector
import Joinery.Exchange.Assembly
import Joinery.Exchange.Constraint
import Joinery.Exchange.Geometry
import Joinery.Exchange.Record
import Joinery.Exchange.Review
import Joinery.Exchange.Solve
import Joinery.Identity.Uuid
import Joinery.Json.Basic
import Joinery.Json.Numeral
import Joinery.Json.Reader
import Joinery.Json.Writer
import Joinery.Linkage.Basic
import Joinery.Linkage.Body
import Joinery.Linkage.Layout
import Joinery.Linkage.Slope
import Joinery.Newton.Correction
import Joinery.Newton.Outcome
import Joinery.Newton.Run
import Joinery.Newton.Settings
import Joinery.Proofs.Assembly.IdMap
import Joinery.Proofs.Assembly.Problems
import Joinery.Proofs.Checked
import Joinery.Proofs.Dense.Blank
import Joinery.Proofs.Linkage.Finite
import Joinery.Proofs.Linkage.Layout
import Joinery.Proofs.Linkage.Link
import Joinery.Proofs.Linkage.Poses
import Joinery.Proofs.Linkage.Reads
import Joinery.Proofs.Newton.Best
import Joinery.Proofs.Newton.Convergence
import Joinery.Proofs.Newton.Correction
import Joinery.Proofs.Newton.Finiteness
import Joinery.Proofs.Newton.Frame
import Joinery.Proofs.Newton.Steps
import Joinery.Proofs.Scalar.Double
import Joinery.Proofs.Scalar.Exact
import Joinery.Proofs.Scalar.Laws
import Joinery.Proofs.Scalar.Rounding
import Joinery.Proofs.Space.Euclid
import Joinery.Proofs.Space.Finite
import Joinery.Review.Conflict
import Joinery.Review.Finding
import Joinery.Review.Freedom
import Joinery.Review.Rank
import Joinery.Review.Report
import Joinery.Scalar.Basic
import Joinery.Scalar.Double
import Joinery.Space.Mirror
import Joinery.Space.Orientation
import Joinery.Space.Point
import Joinery.Text.Digits
import Joinery.Time.Date
import Joinery.Time.Stamp
import Joinery.Proofs.Newton.Ending
import Joinery.Proofs.Guarded.Dense
import Joinery.Proofs.Guarded.Linkage
import Joinery.Proofs.Guarded.Newton
import Joinery.Proofs.Assembly.Listing
import Joinery.Proofs.Linkage.Acceptance
import Joinery.Proofs.Review.Agreement
import Joinery.Proofs.Linkage.Lookup
import Joinery.Proofs.Linkage.Restart
import Joinery.Proofs.Newton.Applied
import Joinery.Proofs.Newton.Restart
import Joinery.Proofs.Newton.Stopping
import Joinery.Proofs.Newton.Contradiction
import Joinery.Proofs.Dense.Entries
import Joinery.Proofs.Linkage.Shift
import Joinery.Proofs.Newton.Lockstep
import Joinery.Proofs.Newton.Shift
import Joinery.Proofs.Newton.Told
import Joinery.Proofs.Newton.Inert
import Joinery.Proofs.Review.Inert
import Joinery.Proofs.Scalar.Ordered
import Joinery.Proofs.Dense.Products
import Joinery.Proofs.Dense.Elimination
import Joinery.Proofs.Dense.Solving
import Joinery.Proofs.Dense.Solution
import Joinery.Proofs.Newton.Shortest
import Joinery.Proofs.Linkage.Reorder
import Joinery.Proofs.Linkage.Pull
import Joinery.Proofs.Newton.Separation
import Joinery.Proofs.Newton.Optimal
import Joinery.Proofs.Newton.Roll
import Joinery.Proofs.Decimal.Nearest
import Joinery.Proofs.Decimal.Reading
import Joinery.Proofs.Decimal.Shortest
import Joinery.Proofs.Decimal.RoundTrip
import Joinery.Proofs.Exchange.Constraint
import Joinery.Proofs.Newton.Single
import Joinery.Proofs.Newton.Reorder
import Joinery.Proofs.Newton.Balance
import Joinery.Proofs.Dense.Consistent
import Joinery.Proofs.Newton.Consistent
import Joinery.Proofs.Linkage.Scratch
import Joinery.Proofs.Newton.Gradient
import Joinery.Proofs.Newton.Rollback
import Joinery.Proofs.Linkage.Swap
import Joinery.Proofs.Linkage.Relations
import Joinery.Proofs.Newton.Weights
import Joinery.Proofs.Linkage.Stretches
import Joinery.Proofs.Review.Freedom
import Joinery.Proofs.Review.Conflict
import Joinery.Proofs.Newton.Damping
import Joinery.Proofs.Dense.InPlace
import Joinery.Proofs.Dense.Pivots
import Joinery.Proofs.Dense.Plain
