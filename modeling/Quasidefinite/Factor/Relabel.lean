import Quasidefinite.Sparse.Product
import Quasidefinite.Permutation

/-!
# Relabelling a symmetric matrix

A symmetric matrix is stored as its upper triangle. Renumbering its rows and columns together may
carry an entry across the diagonal; it is then stored at the transposed position, so the result is
again an upper triangle (`Sparse.relabel`). Every stored entry goes to a place of its own, and the
places are kept, so that later changes of a value can follow their entry.
-/

namespace Quasidefinite

/-- An upper triangle after relabelling. -/
structure Relabelled (α : Type) where
  /-- The relabelled upper triangle; the rows of a column need not be sorted. -/
  matrix : Sparse α
  /-- The place of every stored entry of the matrix as it was before. -/
  place : Array Nat

namespace Sparse

variable {α : Type}

/-- The new labels of the row and the column of an entry, the smaller one first. -/
def relabelledEntry (label : Array Nat) (row col : Nat) : Checked (Nat × Nat) := do
  let i ← Checked.entry label row
  let j ← Checked.entry label col
  pure (min i j, max i j)

/-- Adds the entries of column `col` to the numbers of entries of the columns in which they will
    be stored. -/
def countRelabelled (A : Sparse α) (label : Array Nat) (counts : Array Nat) (col : Nat) :
    Checked (Array Nat) := do
  (← A.columnRows col).toList.foldlM
    (fun counts row => do
      let (_, target) ← relabelledEntry label row col
      Checked.adjust counts target (· + 1))
    counts

/-- A relabelled matrix being filled, with the next free place of every column. -/
structure Filling (α : Type) extends Relabelled α where
  /-- The next free place of every column. -/
  next : Array Nat

/-- Moves the entry at position `k`, in row `row` of column `col`, to its place. -/
def moveRelabelled (A : Sparse α) (label : Array Nat) (col : Nat) (f : Filling α) (k row : Nat) :
    Checked (Filling α) := do
  let (i, j) ← relabelledEntry label row col
  let place ← Checked.entry f.next j
  let v ← Checked.entry A.value k
  let rowIndex ← Checked.store f.matrix.rowIndex place i
  let value ← Checked.store f.matrix.value place v
  let places ← Checked.store f.place k place
  let next ← Checked.store f.next j (place + 1)
  pure { matrix := { f.matrix with rowIndex, value }, place := places, next }

/-- The matrix in which row and column `i` of `A` are row and column `label[i]`. -/
def relabel [Scalar α] (A : Sparse α) (label : Array Nat) : Checked (Relabelled α) := do
  let n := A.cols
  let stored ← A.room
  let counts ← Checked.foldRange 0 n (A.countRelabelled label) (Array.replicate n 0)
  let colStart := (startsOfLengths 0 counts.toList).toArray
  let filling : Filling α :=
    { matrix := { Sparse.allocate n n stored with colStart }
      place := Array.replicate stored 0
      next := colStart.extract 0 n }
  let filling ← Checked.foldRange 0 n
    (fun f col => A.foldColumn col (A.moveRelabelled label col) f) filling
  pure filling.toRelabelled

end Sparse

end Quasidefinite
