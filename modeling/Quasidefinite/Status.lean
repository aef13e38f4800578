/-!
# Methods of solution and outcomes of a solve

The names, codes and texts by which the outside world knows the two methods and the outcomes of a
solve.
-/

namespace Quasidefinite

/-! ## 1. Methods -/

/-- How the linear systems are solved. -/
inductive Method
  /-- Factorization of the whole matrix. -/
  | direct
  /-- Conjugate gradients on the system reduced to the first block of unknowns. -/
  | indirect
  deriving DecidableEq, Repr

/-- The lasting name of a method. -/
def Method.name : Method → String
  | .direct => "sparse-direct-qdldl"
  | .indirect => "sparse-indirect-pcg"

/-! ## 2. Outcomes -/

/-- The outcome of a solve. -/
inductive Status
  /-- The solution was written. -/
  | success
  /-- The best iterate was written when the iterations ran out. -/
  | notConverged
  /-- The solution found is not finite; nothing was written. -/
  | numericalError
  /-- There is no usable factorization; nothing was written. -/
  | factorizationFailed
  /-- The arguments are not valid; nothing was written. -/
  | invalidInput
  deriving DecidableEq, Repr

namespace Status

/-- Zero for success, and the more negative the more severe the failure. -/
def code : Status → Int
  | .success => 0
  | .notConverged => -1
  | .numericalError => -2
  | .factorizationFailed => -3
  | .invalidInput => -4

/-- Holds of success alone. -/
def isOk (s : Status) : Bool := s == .success

/-- The text shown for an outcome. -/
def message : Status → String
  | .success => "success"
  | .notConverged => "not converged"
  | .numericalError => "numerical error"
  | .factorizationFailed => "factorization failed"
  | .invalidInput => "invalid input"

end Status

end Quasidefinite
