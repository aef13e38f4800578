import Quasidefinite.Indirect.ConjugateGradient
import Quasidefinite.Indirect.Jacobi
import Quasidefinite.Indirect.ReducedOperator
import Quasidefinite.Kkt.Fingerprint
import Quasidefinite.Regularization
import Quasidefinite.Diagnostics

/-!
# The indirect method

The second block of unknowns is eliminated, the reduced system is solved by preconditioned
conjugate gradients, and the second block is recovered from the first. Only vectors are kept; the
matrices are those handed to every call.
-/

namespace Quasidefinite

/-- A system solved by the indirect method. -/
structure IndirectSystem (α : Type) where
  /-- The fingerprint of the data. -/
  fingerprint : Fingerprint
  /-- The primal regularizer. -/
  primal : α
  /-- The dual regularizer. -/
  dual : Array α
  /-- The reciprocals of the dual regularizer. -/
  dualInv : Array α
  /-- The preconditioner. -/
  precond : Jacobi α
  /-- The iterate of the last solve. -/
  x : Array α
  /-- Whether the iterate can serve as a start. -/
  hasPrevious : Bool
  /-- Scratch space of the iteration. -/
  work : ConjugateGradient.Scratch α
  /-- The largest number of iterations of a solve. -/
  maxIter : Nat
  /-- Whether solves start from the last iterate if no other start is given. -/
  warmStart : Bool
  /-- The values of the matrices, if updates are to be compared with them. -/
  values : Option (Array α × Array α)
  /-- The counters. -/
  info : Diagnostics α

namespace IndirectSystem

variable {α : Type} [Scalar α]

/-! ## 1. Construction -/

/-- The reduced operator for the given matrices. -/
def operator (s : IndirectSystem α) (A P : Sparse α) : Checked (ReducedOperator α) := do
  pure
    { constraint := A
      quadratic := P
      upperOnly := ← P.isUpper
      primal := s.primal
      weights := s.dualInv }

/-- Fits the preconditioner to the diagonal of the reduced operator. -/
def updatePreconditioner (s : IndirectSystem α) (A P : Sparse α) : Checked (IndirectSystem α) := do
  let diag ← (← s.operator A P).diagonal (Vec.zeros s.fingerprint.cols)
  pure { s with precond := s.precond.update diag }

/-- The largest number of iterations that a setting stands for, with `n` variables. -/
def iterationLimit (setting : UInt32) (n : Nat) : Nat :=
  if setting = 0 then max (10 * n) 20 else setting.toNat

/-- Builds the preconditioner and the vectors that are kept. -/
def new (A P : Sparse α) (reg : Regularization α) (settings : Settings α) :
    Checked (IndirectSystem α) := do
  let n := A.cols
  let fingerprint ← Fingerprint.of A P
  let s : IndirectSystem α :=
    { fingerprint
      primal := reg.primal
      dual := reg.dual
      dualInv := Vec.recip reg.dual
      precond := Jacobi.ones n settings.precondition
      x := Vec.zeros n
      hasPrevious := false
      work := ConjugateGradient.Scratch.new n
      maxIter := iterationLimit settings.cgMaxIter n
      warmStart := settings.warmStart
      values := if settings.checkInputs then some (A.value, P.value) else none
      info := Diagnostics.blank }
  s.updatePreconditioner A P

/-! ## 2. Solving -/

/-- The norm of the residual at which the iteration may stop. -/
def threshold (tol : α) (b : Array α) : α := tol * Scalar.max 1 (Vec.norm b)

/-- The right hand side of the reduced system. -/
def reducedRhs (s : IndirectSystem α) (A : Sparse α) (bx bY : Array α) : Checked (Array α) :=
  A.gemvT bx (Vec.hadamard bY s.dualInv) 1 1

/-- Where the iteration starts. -/
def start (s : IndirectSystem α) : Option (Array α) → Checked (Array α)
  | some warm => do Vec.copy s.x (← Checked.slice warm 0 s.fingerprint.cols)
  | none => pure (if s.warmStart && s.hasPrevious then s.x else Vec.fill s.x 0)

/-- The second block of unknowns, given the first. -/
def recover (s : IndirectSystem α) (A : Sparse α) (x bY : Array α) : Checked (Array α) := do
  let y ← A.gemv bY x 1 (-1)
  pure (Vec.hadamard y s.dualInv)

/-- Solves the system with right hand side `b`, and answers the vector to hand back. -/
def solve (s : IndirectSystem α) (A P : Sparse α) (b : Array α) (warm : Option (Array α))
    (tol : α) : Checked (IndirectSystem α × Array α × Status) := do
  let n := s.fingerprint.cols
  let bx ← Checked.slice b 0 n
  let bY ← Checked.slice b n b.size
  Checked.require (bY.size = s.fingerprint.rows) .lengthMismatch
  let rhs ← s.reducedRhs A bx bY
  let x ← s.start warm
  let op ← s.operator A P
  let problem : ConjugateGradient.Problem α :=
    { op := fun y v => do pure (← op.apply y v bY).1
      precond := s.precond.apply
      rhs
      threshold := threshold tol b }
  let (result, x, work) ← ConjugateGradient.run problem s.maxIter x s.work
  let s := { s with x, work, info := s.info.recordSolve result.iterations result.residual }
  if Vec.isFinite x then
    let s := { s with hasPrevious := true }
    let y ← s.recover A x bY
    pure (s, x ++ y, if result.converged then .success else .notConverged)
  else pure ({ s with hasPrevious := false }, b, .numericalError)

/-! ## 3. Updates -/

/-- Holds if the stored values are those of the matrices the system was built from, as far as
    those are kept. -/
def dataMatches (s : IndirectSystem α) (A P : Sparse α) : Bool :=
  match s.values with
  | some (a, p) => A.value == a && P.value == p
  | none => true

/-- Replaces the dual regularizer. -/
def update (s : IndirectSystem α) (A P : Sparse α) (dual : Array α) :
    Checked (IndirectSystem α × Except SystemError Unit) := do
  if s.dataMatches A P then
    let dual ← Vec.copy s.dual dual
    let s ← { s with dual, dualInv := Vec.recip dual }.updatePreconditioner A P
    pure (s, .ok ())
  else pure (s, .error .matrixMismatch)

end IndirectSystem

end Quasidefinite
