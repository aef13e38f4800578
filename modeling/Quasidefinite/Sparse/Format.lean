import Quasidefinite.Sparse.Basic
import Quasidefinite.Vec

/-!
# Well-formed matrices, triangles and symmetry

Every solver rests on the format check of this module (`Sparse.checkFormat`): arrays of the right
lengths, columns one after the other, rows in range and strictly increasing within each column,
values finite. The tests for the upper triangle and for symmetry, the search for an entry and
the extraction of the upper triangle are meant for well-formed matrices, but answer or fault on
any.
-/

namespace Quasidefinite

/-! ## 1. The format -/

/-- What is wrong with the format of a matrix. -/
inductive FormatError
  /-- The lengths of the arrays do not fit the dimensions. -/
  | incompatibleDimension
  /-- The rows of a column do not increase. -/
  | badRowOrdering
  /-- A row lies below the matrix. -/
  | badRowIndex
  /-- The column starts do not begin at zero or decrease. -/
  | badColumnStart
  /-- A value is infinite or not a number. -/
  | nonFiniteValue
  /-- The matrix has to be symmetric and is not. -/
  | notSymmetric
  deriving DecidableEq, Repr

/-- The text shown for a format error. -/
def FormatError.message : FormatError → String
  | .incompatibleDimension => "Matrix dimension fields and/or array lengths are incompatible"
  | .badRowOrdering => "Data is not sorted by row index within each column"
  | .badRowIndex => "Row value exceeds the matrix row dimension"
  | .badColumnStart => "Bad column pointer values"
  | .nonFiniteValue => "Matrix data contains non-finite values"
  | .notSymmetric => "Matrix is not symmetric"

/-- Holds if `r` holds between any two neighbours of a list. -/
def chained (r : Nat → Nat → Bool) : List Nat → Bool
  | i :: j :: rest => r i j && chained r (j :: rest)
  | _ => true

namespace Sparse

variable {α : Type}

/-- Fails unless the rows of column `j` increase strictly. -/
def checkColumnOrder (A : Sparse α) (j : Nat) : Attempt FormatError Unit := do
  let rows ← A.columnRows j
  Attempt.ensure (chained (· < ·) rows.toList) .badRowOrdering

/-- Fails with the first defect found: lengths, column starts, rows out of range, order of the
    rows within the columns, values that are not finite. -/
def checkFormat [Scalar α] (A : Sparse α) : Attempt FormatError Unit := do
  Attempt.ensure (A.rowIndex.size = A.value.size) .incompatibleDimension
  Attempt.ensure (A.colStart.size = A.cols + 1) .incompatibleDimension
  let stored ← A.storedCount
  Attempt.ensure (stored = A.rowIndex.size) .incompatibleDimension
  let first ← (Checked.entry A.colStart 0 : Checked Nat)
  Attempt.ensure (first = 0) .badColumnStart
  Attempt.ensure (chained (· ≤ ·) A.colStart.toList) .badColumnStart
  Attempt.ensure (A.rowIndex.all (· < A.rows)) .badRowIndex
  (List.range A.cols).forM A.checkColumnOrder
  Attempt.ensure (Vec.isFinite A.value) .nonFiniteValue

/-! ## 2. The upper triangle -/

/-- Holds of a matrix that stores no entry below the diagonal. -/
def isUpper (A : Sparse α) : Checked Bool :=
  Checked.allRange 0 A.cols fun j => do
    let rows ← A.columnRows j
    pure (rows.all (· ≤ j))

/-- Adds to a matrix under construction the entries of column `j` of `A` that do not lie below
    the diagonal, and closes the column. -/
def appendUpperColumn (A : Sparse α) (U : Sparse α) (j : Nat) : Checked (Sparse α) := do
  let _ ← A.columnRows j
  let U ← A.foldColumn j
    (fun U k row =>
      if row ≤ j then do
        let v ← Checked.entry A.value k
        pure { U with rowIndex := U.rowIndex.push row, value := U.value.push v }
      else pure U)
    U
  pure { U with colStart := U.colStart.push U.rowIndex.size }

/-- The matrix of the entries of a square matrix that do not lie below the diagonal. -/
def upper (A : Sparse α) : Checked (Sparse α) := do
  Checked.require (A.rows = A.cols) .shapeMismatch
  Checked.foldRange 0 A.cols A.appendUpperColumn
    { rows := A.cols, cols := A.cols, colStart := #[0], rowIndex := #[], value := #[] }

/-! ## 3. Single entries -/

/-- Halves a block of `count` sorted rows from `base` on until one is left, keeping the half that
    may hold `row`. The first argument bounds the number of steps. -/
def searchFrom (rows : Array Nat) (row : Nat) : (steps base count : Nat) → Nat
  | 0, base, _ => base
  | steps + 1, base, count =>
    if count ≤ 1 then base
    else
      searchFrom rows row steps
        (if row < rows.getD (base + count / 2) 0 then base else base + count / 2)
        (count - count / 2)

/-- The position of `row` in an array of sorted rows. -/
def search? (rows : Array Nat) (row : Nat) : Option Nat :=
  let i := searchFrom rows row rows.size 0 rows.size
  if rows[i]? = some row then some i else none

/-- The stored value at a row and a column inside the matrix, if there is one. -/
def entry? (A : Sparse α) (row col : Nat) : Checked (Option α) := do
  Checked.require (row < A.rows ∧ col < A.cols) .indexOutOfRange
  let rows ← A.columnRows col
  match search? rows row with
  | none => pure none
  | some i => some <$> Checked.entry A.value ((← Checked.entry A.colStart col) + i)

/-- The number of columns that store an entry on the diagonal. -/
def diagonalCount (A : Sparse α) : Checked Nat :=
  Checked.foldRange 0 (min A.cols A.rows)
    (fun count j => do
      let rows ← A.columnRows j
      pure (if (search? rows j).isSome then count + 1 else count))
    0

/-! ## 4. Symmetry -/

/-- Holds if the entry at position `k` of column `col` equals the entry at the transposed position,
    a missing one counting as zero. -/
def matchesTransposed [Scalar α] (A : Sparse α) (col k : Nat) : Checked Bool := do
  let row ← Checked.entry A.rowIndex k
  let transposed ← A.entry? col row
  if row = col then pure true
  else pure (transposed.getD 0 == (← Checked.entry A.value k))

/-- Holds of a square matrix equal to its transpose. -/
def isSymmetric [Scalar α] (A : Sparse α) : Checked Bool :=
  if A.isSquare then
    Checked.allRange 0 A.cols fun col => do
      let first ← Checked.entry A.colStart col
      let last ← Checked.entry A.colStart (col + 1)
      Checked.allRange first last (A.matchesTransposed col)
  else pure false

end Sparse

end Quasidefinite
