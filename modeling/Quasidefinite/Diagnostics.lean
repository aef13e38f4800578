import Quasidefinite.Scalar
import Quasidefinite.Status
import Quasidefinite.Decimal.Rounded

/-!
# Diagnostics

What a solver counts while it works. Nothing here has any influence on the solutions.
-/

namespace Quasidefinite

/-- The counters of a solver. -/
structure Diagnostics (α : Type) where
  /-- The number of solves. -/
  solves : Nat
  /-- The iterations of the last solve. -/
  lastIterations : Nat
  /-- The iterations of all solves. -/
  totalIterations : Nat
  /-- The norm of the residual at the end of the last solve. -/
  lastResidual : α
  /-- The number of numeric factorizations, the first one included. -/
  factorizations : Nat
  /-- The number of entries in the factors of the direct method. -/
  factorEntries : Nat
  deriving BEq

namespace Diagnostics

variable {α : Type}

/-- The counters of a solver that has done nothing yet. -/
def blank [Scalar α] : Diagnostics α where
  solves := 0
  lastIterations := 0
  totalIterations := 0
  lastResidual := 0
  factorizations := 0
  factorEntries := 0

/-- Counts a solve. -/
def recordSolve (d : Diagnostics α) (iterations : Nat) (residual : α) : Diagnostics α :=
  { d with
    solves := d.solves + 1
    lastIterations := iterations
    totalIterations := d.totalIterations + iterations
    lastResidual := residual }

/-- The mean number of iterations per solve. -/
def averageIterations (d : Diagnostics α) : Float :=
  if d.solves = 0 then 0.0 else Float.ofNat d.totalIterations / Float.ofNat d.solves

/-- One line about the work done by a method. -/
def summary [BinaryFormat α] (d : Diagnostics α) (method : Method) : String :=
  match method with
  | .direct =>
    method.name ++ ": factor nnz " ++ toString d.factorEntries ++ ", refactors " ++
      toString (d.factorizations - 1) ++ ", solves " ++ toString d.solves
  | .indirect =>
    method.name ++ ": avg cg iters " ++
      Decimal.fixed 2 (BinaryFormat.decode d.averageIterations) ++ ", solves " ++
      toString d.solves ++ ", last residual " ++
      Decimal.scientific 2 (BinaryFormat.decode d.lastResidual)

end Diagnostics

end Quasidefinite
