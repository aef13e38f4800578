import Quasidefinite.Factor.Numeric
import Quasidefinite.Factor.Relabel
import Quasidefinite.Factor.Triangular
import Quasidefinite.Ordering.Basic

/-!
# Factorizations of symmetric matrices

A `Factorization` holds `Π S Πᵀ = (I + L) diag(d) (I + L)ᵀ` for the symmetric matrix `S` whose
upper triangle was given and a permutation `Π` chosen once. No pivoting takes place, so a
factorization exists whenever no pivot vanishes, as is the case for every quasidefinite matrix
and every permutation. The order and the pattern of the factors are found once, at construction;
values can be changed afterwards and the matrix factored again.
-/

namespace Quasidefinite

/-! ## 1. Errors and options -/

/-- Why a matrix could not be factored, or a change of values not be accepted. -/
inductive FactorError
  /-- The matrix has to be square. -/
  | notSquare
  /-- Every column has to store an entry. -/
  | emptyColumn
  /-- Only the upper triangle may be stored. -/
  | notUpperTriangular
  /-- A pivot vanished or was not finite. -/
  | zeroPivot (column : Nat)
  /-- The order that was asked for is no permutation. -/
  | invalidPermutation
  /-- No order could be found. -/
  | orderingFailed
  /-- The values to be changed do not fit the matrix. -/
  | incompatibleUpdate
  deriving DecidableEq, Repr

/-- The text shown for an error of a factorization. -/
def FactorError.message : FactorError → String
  | .notSquare => "Matrix is not square"
  | .emptyColumn => "Matrix has an empty column"
  | .notUpperTriangular => "Matrix is not upper triangular"
  | .zeroPivot column => "Factorization produced a zero pivot in column " ++ toString column
  | .invalidPermutation => "Invalid permutation vector"
  | .orderingFailed => "Fill-reducing ordering could not be computed"
  | .incompatibleUpdate => "Value update does not match the factored sparsity pattern"

/-- How a matrix is factored. -/
structure FactorOptions (α : Type) where
  /-- What counts as a dense row when an order is chosen. -/
  denseScale : Float
  /-- The order; one is chosen if none is given. -/
  perm : Option (Array Nat)
  /-- The expected signs of the pivots; positive ones if none are given. -/
  signs : Option (Array Int)
  /-- Whether pivots are regularized. -/
  regularize : Bool
  /-- The least pivot, times its sign, that is not regularized. -/
  threshold : α
  /-- The pivot, times its sign, that replaces those that are. -/
  shift : α

/-- The options a matrix is factored with if none are given. -/
def FactorOptions.standard {α : Type} [Scalar α] : FactorOptions α where
  denseScale := 1.5
  perm := none
  signs := none
  regularize := false
  threshold := 1e-13
  shift := 2e-7

/-- How pivots are regularized under the given options, if they are. -/
def FactorOptions.regularizer {α : Type} (opts : FactorOptions α) :
    Option (Regularizer α) :=
  if opts.regularize then some { threshold := opts.threshold, shift := opts.shift } else none

/-! ## 2. The type -/

/-- A factored symmetric matrix. -/
structure Factorization (α : Type) where
  /-- The order: position `k` of the factors belongs to row and column `perm[k]`. -/
  perm : Array Nat
  /-- The relabelled matrix and what is known of it. -/
  plan : FactorPlan α
  /-- The place of every stored entry of the given matrix in the relabelled one. -/
  place : Array Nat
  /-- The factors. -/
  factors : Factors α

namespace Factorization

variable {α : Type} [Scalar α]

/-! ## 3. Construction -/

/-- Fails unless the matrix is square, upper triangular and without empty columns. -/
def checkStructure (A : Sparse α) : Attempt FactorError Unit := do
  Attempt.ensure (A.isSquare = true) .notSquare
  let upper ← A.isUpper
  Attempt.ensure (upper = true) .notUpperTriangular
  Attempt.ensure (chained (· ≠ ·) A.colStart.toList) .emptyColumn

/-- The order asked for, or else the one that the ordering chooses. -/
def choosePerm (ordering : FillOrdering) (A : Sparse α) (opts : FactorOptions α) :
    Attempt FactorError (Array Nat) :=
  match opts.perm with
  | some perm => pure perm
  | none =>
    match ordering.order? A.pattern opts.denseScale with
    | some perm => pure perm
    | none => throw .orderingFailed

/-- The expected signs of the pivots, in the order of the factors. -/
def orderSigns (n : Nat) (perm : Array Nat) (signs : Option (Array Int)) :
    Attempt FactorError (Array Int) :=
  match signs with
  | none => pure (Array.replicate n 1)
  | some signs => do
    Attempt.ensure (signs.size = n) .incompatibleUpdate
    Permutation.gather (Array.replicate n 1) signs perm

/-- The order, the pattern and the values of the factors of the symmetric matrix whose upper
    triangle is `A`. -/
def new (ordering : FillOrdering) (A : Sparse α) (opts : FactorOptions α) :
    Attempt FactorError (Factorization α) := do
  checkStructure A
  let perm ← choosePerm ordering A opts
  let some label := Permutation.inverse? perm | throw .invalidPermutation
  let relabelled ← A.relabel label
  let signs ← orderSigns A.cols perm opts.signs
  let tree ← EliminationTree.ofUpper relabelled.matrix
  let plan : FactorPlan α :=
    { matrix := relabelled.matrix, tree, signs, regularizer := opts.regularizer }
  let (factors, failed) ← plan.factor plan.blank
  match failed with
  | some column => throw (.zeroPivot column)
  | none => pure { perm, plan, place := relabelled.place, factors }

/-! ## 4. Use -/

/-- The number of entries in the factors, the unit diagonal of `L` included. -/
def storedCount (F : Factorization α) : Checked Nat := do
  pure ((← F.factors.lower.storedCount) + F.factors.pivot.size)

/-- The solution of `S x = b`. -/
def solve (F : Factorization α) (b : Array α) : Checked (Array α) := do
  Checked.require (b.size = F.factors.pivot.size) .lengthMismatch
  let x ← Permutation.gather (Vec.zeros b.size) b F.perm
  let x ← F.factors.lower.factorSolve F.factors.pivotInv x
  Permutation.scatter b x F.perm

/-- The values of the relabelled matrix after each of `values` is written to the place of the
    stored entry at the given position, one after the other. -/
def writeValues (F : Factorization α) (indices : Array Nat) (values : Array α) :
    Checked (Array α) :=
  (indices.toList.zip values.toList).foldlM
    (fun value (i, v) => do
      Checked.store value (← Checked.entry F.place i) v)
    F.plan.matrix.value

/-- Changes the values of stored entries of the given matrix, each given by its position. The
    factors follow at the next `refactor`. -/
def updateValues (F : Factorization α) (indices : Array Nat) (values : Array α) :
    Attempt FactorError (Factorization α) := do
  Attempt.ensure (indices.size = values.size) .incompatibleUpdate
  Attempt.ensure (indices.all (· < F.place.size)) .incompatibleUpdate
  let value ← F.writeValues indices values
  pure { F with plan := { F.plan with matrix := { F.plan.matrix with value } } }

/-- Factors the matrix with its current values, and tells whether that succeeded. -/
def refactor (F : Factorization α) : Checked (Factorization α × Except FactorError Unit) := do
  let (factors, failed) ← F.plan.factor F.factors
  let result := match failed with
    | some column => .error (.zeroPivot column)
    | none => .ok ()
  pure ({ F with factors }, result)

end Factorization

end Quasidefinite
