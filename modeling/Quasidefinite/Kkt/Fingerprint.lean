import Quasidefinite.Sparse.Basic

/-!
# Fingerprints of the data

A solver is built for one pair of matrices and refuses others. The fingerprint is the part of
that test that costs nothing: the dimensions and the numbers of stored entries.
-/

namespace Quasidefinite

/-- Dimensions and numbers of stored entries of a constraint matrix and a quadratic term. -/
structure Fingerprint where
  /-- The number of constraints. -/
  rows : Nat
  /-- The number of variables. -/
  cols : Nat
  /-- The number of stored entries of the constraint matrix. -/
  constraintEntries : Nat
  /-- The number of stored entries of the quadratic term. -/
  quadraticEntries : Nat
  deriving DecidableEq, Repr

namespace Fingerprint

variable {α : Type}

/-- The fingerprint of a pair of matrices. -/
def of (A P : Sparse α) : Checked Fingerprint := do
  pure
    { rows := A.rows
      cols := A.cols
      constraintEntries := ← A.storedCount
      quadraticEntries := ← P.storedCount }

/-- The number of unknowns of the whole system. -/
def size (f : Fingerprint) : Nat := f.rows + f.cols

/-- Holds if a pair of matrices has the fingerprint, and the quadratic term fits the number of
    variables. -/
def admits (f : Fingerprint) (A P : Sparse α) : Checked Bool := do
  let g ← of A P
  pure (f = g ∧ P.rows = f.cols ∧ P.cols = f.cols)

end Fingerprint

end Quasidefinite
