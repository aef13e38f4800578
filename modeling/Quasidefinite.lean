import Quasidefinite.Ordering.MinimumDegree
import Quasidefinite.Settings.Text
import Quasidefinite.Workspace
import Quasidefinite.Proofs.Exact
import Quasidefinite.Proofs.Loop
import Quasidefinite.Proofs.Summation
import Quasidefinite.Proofs.Vec
import Quasidefinite.Proofs.Euclidean
import Quasidefinite.Proofs.Signature
import Quasidefinite.Proofs.Sparse.Product
import Quasidefinite.Proofs.Sparse.Adjoint
import Quasidefinite.Proofs.Sparse.Diagonal
import Quasidefinite.Proofs.Indirect.Iteration
import Quasidefinite.Proofs.Indirect.Convergence
import Quasidefinite.Proofs.Indirect.Residual
import Quasidefinite.Proofs.Indirect.Conjugacy
import Quasidefinite.Proofs.Kkt.Reduced
import Quasidefinite.Proofs.Indirect.Operator
import Quasidefinite.Proofs.Sparse.Shape
import Quasidefinite.Proofs.Sparse.Format
import Quasidefinite.Proofs.Sparse.Columns
import Quasidefinite.Proofs.Factor.Reach
import Quasidefinite.Proofs.Factor.Tree
import Quasidefinite.Proofs.Factor.View
import Quasidefinite.Proofs.Factor.Sweep
import Quasidefinite.Proofs.Factor.Course
import Quasidefinite.Proofs.Factor.FilledGraph
import Quasidefinite.Proofs.Factor.Exact
import Quasidefinite.Proofs.Factor.Triangular
import Quasidefinite.Proofs.Permutation
import Quasidefinite.Proofs.Sparse.Distribution
import Quasidefinite.Proofs.Factor.Relabel
import Quasidefinite.Proofs.Factor.Factorization
import Quasidefinite.Proofs.Factor.Orders
import Quasidefinite.Proofs.Factor.Correct
import Quasidefinite.Proofs.Factor.Inertia
import Quasidefinite.Proofs.Factor.Minors
import Quasidefinite.Proofs.Sparse.Search
import Quasidefinite.Proofs.Sparse.Compression
import Quasidefinite.Proofs.Kkt.Assembly
import Quasidefinite.Proofs.Direct.Matching
import Quasidefinite.Proofs.Sparse.Symmetric
import Quasidefinite.Proofs.Direct.Refinement
import Quasidefinite.Proofs.Direct.System
import Quasidefinite.Proofs.Direct.Improvement
import Quasidefinite.Proofs.Workspace.Construction
import Quasidefinite.Proofs.Workspace.Refusal
import Quasidefinite.Proofs.Kkt.Dense
import Quasidefinite.Proofs.Workspace.Exact
import Quasidefinite.Proofs.Workspace.Quasidefinite
import Quasidefinite.Proofs.Indirect.System
import Quasidefinite.Proofs.Workspace.Inertia
import Quasidefinite.Proofs.Workspace.Indirect
import Quasidefinite.Proofs.Workspace.Agreement
import Quasidefinite.Proofs.Workspace.History
import Quasidefinite.Proofs.Workspace.Record
import Quasidefinite.Proofs.Workspace.Linked
import Quasidefinite.Proofs.Workspace.Failure
import Quasidefinite.Proofs.Indirect.Built
import Quasidefinite.Proofs.Workspace.Carried
import Quasidefinite.Proofs.Workspace.Finite
import Quasidefinite.Proofs.Workspace.Improvement
import Quasidefinite.Proofs.Factor.Overflow
import Quasidefinite.Proofs.Comparison
import Quasidefinite.Proofs.Quotient
import Quasidefinite.Proofs.Kkt.Entries
import Quasidefinite.Proofs.Kkt.Exactness
import Quasidefinite.Proofs.Workspace.Copies
import Quasidefinite.Proofs.Factor.Refactoring
import Quasidefinite.Proofs.Factor.Pattern
import Quasidefinite.Proofs.Factor.Regularized
import Quasidefinite.Proofs.Workspace.Confirmed
import Quasidefinite.Proofs.Workspace.Total
import Quasidefinite.Proofs.Workspace.Recognition
import Quasidefinite.Proofs.Workspace.Regularized
import Quasidefinite.Proofs.Indirect.Schur
import Quasidefinite.Proofs.Indirect.Iterates
import Quasidefinite.Proofs.Workspace.Reported
import Quasidefinite.Proofs.Reordering
import Quasidefinite.Proofs.Factor.Solving
import Quasidefinite.Proofs.Factor.Renumbering
import Quasidefinite.Proofs.Workspace.Counters
