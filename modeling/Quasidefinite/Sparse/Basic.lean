import Quasidefinite.Scalar
import Quasidefinite.Checked

/-!
# Matrices in compressed column form

A `Sparse` matrix stores the entries of its columns one after the other: `colStart` says where
each column begins and the last one ends, `rowIndex` and `value` hold the row and the value of
every stored entry. The fields are data as they came and may contradict each other; what a
well-formed matrix is, and the program that decides it, stand in `Quasidefinite.Sparse.Format`.

This module fixes the type, its constructors, and the two ways of walking over a column: as a
list of entries cut out beforehand (`column`), and entry by entry (`foldColumn`).
-/

namespace Quasidefinite

/-! ## 1. The type -/

/-- A matrix in compressed column form, not necessarily a well-formed one. -/
structure Sparse (α : Type) where
  /-- The number of rows. -/
  rows : Nat
  /-- The number of columns. -/
  cols : Nat
  /-- Where each column begins in the two arrays below, and where the last one ends. -/
  colStart : Array Nat
  /-- The row of each stored entry. -/
  rowIndex : Array Nat
  /-- The value of each stored entry. -/
  value : Array α
  deriving BEq

namespace Sparse

variable {α σ : Type}

/-- The numbers of rows and columns. -/
def dims (A : Sparse α) : Nat × Nat := (A.rows, A.cols)

/-- Holds of a matrix with as many rows as columns. -/
def isSquare (A : Sparse α) : Bool := A.rows == A.cols

/-- The number of stored entries, as the column starts tell it. -/
def storedCount (A : Sparse α) : Checked Nat := Checked.entry A.colStart A.cols

/-- The number of stored entries, provided that arrays can have that many elements: as many as
    the arrays of the matrix have, or as many as there is room for. -/
def room (A : Sparse α) : Checked Nat := do
  let count ← A.storedCount
  Checked.require (count ≤ A.rowIndex.size ∨ count < Checked.addressSpace) .tooLarge
  pure count

/-! ## 2. Constructors -/

/-- The matrix with the given fields, if the lengths of the arrays agree with each other. -/
def ofFields (rows cols : Nat) (colStart rowIndex : Array Nat) (value : Array α) :
    Checked (Sparse α) := do
  Checked.require (rowIndex.size = value.size) .lengthMismatch
  Checked.require (colStart.size = cols + 1) .lengthMismatch
  let stored ← Checked.entry colStart cols
  Checked.require (stored = rowIndex.size) .lengthMismatch
  pure { rows, cols, colStart, rowIndex, value }

/-- A matrix with room for `count` entries, all of them zeros in row 0 of the last column. -/
def allocate [Scalar α] (rows cols count : Nat) : Sparse α where
  rows := rows
  cols := cols
  colStart := (Array.replicate cols 0).push count
  rowIndex := Array.replicate count 0
  value := Array.replicate count 0

/-- A matrix with room for `count` entries, if arrays can have that many columns and entries. -/
def reserve [Scalar α] (rows cols count : Nat) : Checked (Sparse α) := do
  Checked.fits (cols + 1)
  Checked.fits count
  pure (allocate rows cols count)

/-- The identity matrix of size `n`, if arrays can have that many entries. -/
def identity [Scalar α] (n : Nat) : Checked (Sparse α) := do
  Checked.fits (n + 1)
  pure
    { rows := n
      cols := n
      colStart := Array.range (n + 1)
      rowIndex := Array.range n
      value := Array.replicate n 1 }

/-- The nonzero entries of column `col` of a dense matrix, from top to bottom. -/
def denseColumn [Scalar α] {m n : Nat} (entry : Fin m → Fin n → α) (col : Fin n) :
    List (Nat × α) :=
  (List.finRange m).filterMap fun row =>
    if entry row col == 0 then none else some (row.val, entry row col)

/-- The column starts of a matrix whose columns have the given lengths. -/
def startsOfLengths : (start : Nat) → List Nat → List Nat
  | start, [] => [start]
  | start, length :: lengths => start :: startsOfLengths (start + length) lengths

/-- The matrix with the given columns, each a list of rows and values. -/
def ofColumns (rows : Nat) (columns : List (List (Nat × α))) : Sparse α where
  rows := rows
  cols := columns.length
  colStart := (startsOfLengths 0 (columns.map List.length)).toArray
  rowIndex := (columns.flatten.map Prod.fst).toArray
  value := (columns.flatten.map Prod.snd).toArray

/-- The matrix that stores the nonzero entries of a dense one. -/
def ofDense [Scalar α] {m n : Nat} (entry : Fin m → Fin n → α) : Sparse α :=
  ofColumns m ((List.finRange n).map (denseColumn entry))

/-! ## 3. Columns -/

/-- The rows of the entries of column `j`. -/
def columnRows (A : Sparse α) (j : Nat) : Checked (Array Nat) := do
  Checked.slice A.rowIndex (← Checked.entry A.colStart j) (← Checked.entry A.colStart (j + 1))

/-- The rows and values of the entries of column `j`. -/
def column (A : Sparse α) (j : Nat) : Checked (List (Nat × α)) := do
  let first ← Checked.entry A.colStart j
  let last ← Checked.entry A.colStart (j + 1)
  let rows ← Checked.slice A.rowIndex first last
  let values ← Checked.slice A.value first last
  pure (rows.toList.zip values.toList)

/-- Runs `f` on the entries of column `j`, given by their position and row. -/
def foldColumn (A : Sparse α) (j : Nat) (f : σ → Nat → Nat → Checked σ) (s : σ) : Checked σ := do
  let first ← Checked.entry A.colStart j
  let last ← Checked.entry A.colStart (j + 1)
  Checked.foldRange first last (fun s k => do f s k (← Checked.entry A.rowIndex k)) s

end Sparse

end Quasidefinite
