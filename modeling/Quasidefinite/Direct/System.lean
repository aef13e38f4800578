import Quasidefinite.Direct.Refinement
import Quasidefinite.Kkt.Assembly
import Quasidefinite.Kkt.Fingerprint
import Quasidefinite.Regularization
import Quasidefinite.Diagnostics

/-!
# The direct method

The matrix of the whole system is assembled and factored once. A solve runs through the factors
and refines the result; an update of the dual regularizer writes the new values into both copies
of the matrix, the assembled one and the relabelled one that is factored, and factors again. If
that fails, the factors are marked unusable until an update succeeds.
-/

namespace Quasidefinite

/-- A system solved by the direct method. -/
structure DirectSystem (α : Type) where
  /-- The fingerprint of the data. -/
  fingerprint : Fingerprint
  /-- The assembled matrix. -/
  kkt : Kkt α
  /-- Its factorization. -/
  factorization : Factorization α
  /-- The primal regularizer. -/
  primal : α
  /-- Whether the factors can be used. -/
  usable : Bool
  /-- The settings. -/
  settings : Settings α
  /-- The counters. -/
  info : Diagnostics α
  /-- Scratch space: the residual computed last, or the regularizer written last. -/
  scratch : Array α

namespace DirectSystem

variable {α : Type} [Scalar α]

/-! ## 1. Construction -/

/-- The upper triangle of a quadratic term stored in either form. -/
def upperOf (P : Sparse α) : Checked (Sparse α) := do
  if (← P.isUpper) then pure P else P.upper

/-- Fails unless the number of positive pivots is that of the variables. -/
def checkInertia (F : Factorization α) (n : Nat) : Except SystemError Unit :=
  if F.factors.positive = n then .ok () else .error (.inertia n F.factors.positive)

/-- The assembled matrix with its regularizers. -/
def assembleRegularized (P A : Sparse α) (reg : Regularization α) : Checked (Kkt α) := do
  let K ← Kkt.assemble P A
  let K ← K.addPrimal reg.primal
  K.setDual (Vec.negate reg.dual)

/-- The expected signs of the pivots. -/
def expectedSigns (n m : Nat) : Array Int := Array.replicate n 1 ++ Array.replicate m (-1)

/-- Assembles and factors the system. -/
def new (ordering : FillOrdering) (A P : Sparse α) (reg : Regularization α)
    (settings : Settings α) : Attempt SystemError (DirectSystem α) := do
  let n := A.cols
  let m := A.rows
  let upper ← upperOf P
  let engine ← Attempt.ofExcept SystemError.settings (Engine.ofSettings settings)
  let kkt ← assembleRegularized upper A reg
  let factorization ← Attempt.mapError SystemError.factorization
    (engine.factor ordering kkt.matrix (expectedSigns n m) settings)
  Attempt.ofExcept id (checkInertia factorization n)
  let factorEntries ← factorization.storedCount
  pure
    { fingerprint := ← Fingerprint.of A P
      kkt
      factorization
      primal := reg.primal
      usable := true
      settings
      info := { Diagnostics.blank with factorizations := 1, factorEntries }
      scratch := Vec.zeros (n + m) }

/-! ## 2. Comparing data -/

/-- Holds if the stored values of `A` are those the matrix was assembled from. -/
def constraintMatches (s : DirectSystem α) (A : Sparse α) :
    List (α × Nat) → Checked Bool
  | [] => .ok true
  | (v, i) :: rest => do
    if (← Checked.entry s.kkt.matrix.value i) == v then s.constraintMatches A rest else pure false

/-- Compares the `count` entries from position `k` on of column `col` of `P`, those below the
    diagonal apart, with the values at the given places; answers the places left over, or `none`
    at the first difference. -/
def matchEntries (s : DirectSystem α) (P : Sparse α) (col : Nat) :
    (count k : Nat) → List Nat → Checked (Option (List Nat))
  | 0, _, places => .ok (some places)
  | count + 1, k, places => do
    let row ← Checked.entry P.rowIndex k
    if col < row then s.matchEntries P col count (k + 1) places
    else
      let v ← Checked.entry P.value k
      let v := if row = col then v + s.primal else v
      match places with
      | [] => pure none
      | place :: places =>
        if (← Checked.entry s.kkt.matrix.value place) == v then
          s.matchEntries P col count (k + 1) places
        else pure none

/-- Compares `count` columns of `P` from column `col` on in the same way. -/
def matchColumns (s : DirectSystem α) (P : Sparse α) :
    (count col : Nat) → List Nat → Checked (Option (List Nat))
  | 0, _, places => .ok (some places)
  | count + 1, col, places => do
    let first ← Checked.entry P.colStart col
    let last ← Checked.entry P.colStart (col + 1)
    match ← s.matchEntries P col (last - first) first places with
    | none => pure none
    | some places => s.matchColumns P count (col + 1) places

/-- Holds if `A` and the upper triangle of `P` have the values the matrix was assembled from. -/
def dataMatches (s : DirectSystem α) (A P : Sparse α) : Checked Bool := do
  if (← s.constraintMatches A (A.value.toList.zip s.kkt.places.constraint.toList)) then
    pure ((← s.matchColumns P P.cols 0 s.kkt.places.quadratic.toList) == some [])
  else pure false

/-! ## 3. Solving -/

/-- The number of refinement steps, the solution, the norm of its residual, and the residual
    computed last. -/
def solveRefined (s : DirectSystem α) (b : Array α) : Checked (Refinement.State α) := do
  let x ← s.factorization.solve b
  if s.settings.refine then
    s.factorization.refine s.settings s.kkt.matrix b s.scratch x
  else
    let (e, norm) ← Refinement.residual s.kkt.matrix b s.scratch x
    pure { x, residual := e, norm, steps := 0 }

/-- Solves the system with right hand side `b`, and answers the vector to hand back. -/
def solve (s : DirectSystem α) (b : Array α) : Checked (DirectSystem α × Array α × Status) := do
  if s.usable then
    Checked.require (b.size = s.fingerprint.size) .lengthMismatch
    let r ← s.solveRefined b
    let s := { s with info := s.info.recordSolve r.steps r.norm, scratch := r.residual }
    if Vec.isFinite r.x then pure (s, r.x, .success) else pure (s, b, .numericalError)
  else pure (s, b, .factorizationFailed)

/-! ## 4. Updates -/

/-- Factors the matrix with its current values and checks the signs of its pivots. -/
def refactor (s : DirectSystem α) : Checked (DirectSystem α × Except SystemError Unit) := do
  let (factorization, result) ← s.factorization.refactor
  let result := do
    result.mapError SystemError.factorization
    checkInertia factorization s.fingerprint.cols
  let s := { s with
    factorization
    usable := result.isOk
    info := { s.info with factorizations := s.info.factorizations + 1 } }
  pure (s, result)

/-- Writes the negated dual regularizer into both copies of the matrix. -/
def writeDual (s : DirectSystem α) (dual : Array α) :
    Checked (DirectSystem α × Except SystemError Unit) := do
  let m := s.fingerprint.rows
  let values := Vec.mapOver (- ·) (s.scratch.extract 0 m) dual
  let s := { s with scratch := values ++ s.scratch.extract m s.scratch.size }
  match ← (s.factorization.updateValues s.kkt.places.dual values).run with
  | .error e => pure (s, .error (.factorization e))
  | .ok factorization =>
    let kkt ← s.kkt.setDual values
    pure ({ s with factorization, kkt }, .ok ())

/-- Replaces the dual regularizer. -/
def update (s : DirectSystem α) (A P : Sparse α) (dual : Array α) :
    Checked (DirectSystem α × Except SystemError Unit) := do
  let matching ← if s.settings.checkInputs then s.dataMatches A P else pure true
  if matching then
    match ← s.writeDual dual with
    | (s, .error e) => pure (s, .error e)
    | (s, .ok ()) => s.refactor
  else pure (s, .error .matrixMismatch)

end DirectSystem

end Quasidefinite
