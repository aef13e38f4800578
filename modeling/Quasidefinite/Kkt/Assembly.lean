import Quasidefinite.Sparse.Format

/-!
# Assembling the matrix of the whole system

The upper triangle of

    [ P   Aᵀ ]
    [ ·   0  ]

is assembled from the upper triangle of `P` and from `A`, with a stored entry everywhere on the
diagonal. Assembly counts the entries of every column first and then fills the columns, keeping
the next free place of each; the entries of one column thus end up in the order in which they are
filled in, the diagonal last. The place of every entry is kept (`KktPlaces`), so that later
changes of a value can follow it.
-/

namespace Quasidefinite

/-! ## 1. Types -/

/-- Where the data went. -/
structure KktPlaces where
  /-- The place of every stored entry of `P`. -/
  quadratic : Array Nat
  /-- The place of every stored entry of `A`. -/
  constraint : Array Nat
  /-- The places on the diagonal of the top left block. -/
  primal : Array Nat
  /-- The places on the diagonal of the bottom right block. -/
  dual : Array Nat
  /-- The places on the whole diagonal. -/
  diagonal : Array Nat

/-- The upper triangle of the whole system, and where the data went. -/
structure Kkt (α : Type) where
  /-- The upper triangle. -/
  matrix : Sparse α
  /-- Where the data went. -/
  places : KktPlaces

namespace Kkt

variable {α : Type}

/-! ## 2. Counting -/

/-- Holds if the last entry of column `j` of an upper triangle is not on the diagonal. -/
def lacksDiagonal (P : Sparse α) (j : Nat) : Checked Bool := do
  let first ← Checked.entry P.colStart j
  let last ← Checked.entry P.colStart (j + 1)
  if first = last then pure true
  else
    let row ← Checked.entry P.rowIndex (← Checked.difference last 1)
    pure (row ≠ j)

/-- Counts the entries of column `j`. -/
def countColumn (P : Sparse α) (counts : Array Nat) (j : Nat) : Checked (Array Nat) := do
  let length ← Checked.difference (← Checked.entry P.colStart (j + 1))
    (← Checked.entry P.colStart j)
  Checked.adjust counts j (· + length)

/-- Counts the diagonal entry of column `j` if it is lacking. -/
def countLacking (P : Sparse α) (counts : Array Nat) (j : Nat) : Checked (Array Nat) := do
  if (← lacksDiagonal P j) then Checked.adjust counts j (· + 1) else pure counts

/-- The numbers of entries in the columns of the whole system. -/
def columnCounts (P A : Sparse α) : Checked (Array Nat) := do
  let n := A.cols
  let m := A.rows
  let counts ← Checked.foldRange 0 P.cols (countColumn P) (Array.replicate (m + n + 1) 0)
  Checked.require (P.colStart.size = P.cols + 1) .lengthMismatch
  Checked.require (P.cols ≤ counts.size) .lengthMismatch
  let counts ← Checked.foldRange 0 P.cols (countLacking P) counts
  let counts ← A.rowIndex.toList.foldlM
    (fun counts row => Checked.adjust counts (n + row) (· + 1)) counts
  Checked.foldRange n (n + m) (fun counts j => Checked.adjust counts j (· + 1)) counts

/-! ## 3. Filling -/

/-- The arrays being filled, with the next free place of every column. -/
structure Filling (α : Type) where
  /-- The rows. -/
  rowIndex : Array Nat
  /-- The values. -/
  value : Array α
  /-- The next free place of every column. -/
  next : Array Nat

/-- Puts an entry at the next free place of column `col`, and tells that place. -/
def Filling.put (f : Filling α) (row col : Nat) (v : α) : Checked (Filling α × Nat) := do
  let place ← Checked.entry f.next col
  let rowIndex ← Checked.store f.rowIndex place row
  let value ← Checked.store f.value place v
  let next ← Checked.store f.next col (place + 1)
  pure ({ rowIndex, value, next }, place)

/-- Puts all entries of `M` at the positions that `target` makes of their rows and columns, and
    keeps their places. -/
def fillBlock (M : Sparse α) (target : Nat → Nat → Nat × Nat) (f : Filling α)
    (places : Array Nat) : Checked (Filling α × Array Nat) :=
  Checked.foldRange 0 M.cols
    (fun s j =>
      M.foldColumn j
        (fun (f, places) k row => do
          let (i, j) := target row j
          let (f, place) ← f.put i j (← Checked.entry M.value k)
          pure (f, ← Checked.store places k place))
        s)
    (f, places)

variable [Scalar α]

/-- Puts a zero on the diagonal of column `j` if the diagonal entry is lacking. -/
def fillLacking (P : Sparse α) (f : Filling α) (j : Nat) : Checked (Filling α) := do
  if (← lacksDiagonal P j) then
    let (f, _) ← f.put j j 0
    pure f
  else pure f

/-- Puts a zero on the diagonal of column `n + i`, and keeps its place. -/
def fillDual (n : Nat) (s : Filling α × Array Nat) (i : Nat) : Checked (Filling α × Array Nat) := do
  let (f, place) ← s.1.put (n + i) (n + i) 0
  pure (f, ← Checked.store s.2 i place)

/-! ## 4. Assembly -/

/-- The number of entries of the whole system. -/
def entryCount (P A : Sparse α) : Checked Nat := do
  let lacking ← Checked.difference ((← P.storedCount) + A.cols) (← P.diagonalCount)
  pure (lacking + (← A.storedCount) + A.rows)

/-- The upper triangle of the whole system for an upper triangle `P` and constraints `A`, with
    zeros on the diagonal where `P` has no entry. -/
def assemble (P A : Sparse α) : Checked (Kkt α) := do
  let n := A.cols
  let m := A.rows
  let quadratic := Array.replicate (← P.room) 0
  let constraint := Array.replicate (← A.room) 0
  let dual := Array.replicate m 0
  let K : Sparse α := Sparse.allocate (m + n) (m + n) (← entryCount P A)
  let counts ← columnCounts P A
  let f : Filling α :=
    { rowIndex := K.rowIndex
      value := K.value
      next := (Sparse.startsOfLengths 0 counts.toList).toArray.extract 0 (m + n + 1) }
  let (f, quadratic) ← fillBlock P (fun row col => (row, col)) f quadratic
  let f ← Checked.foldRange 0 P.cols (fillLacking P) f
  let (f, constraint) ← fillBlock A (fun row col => (col, row + n)) f constraint
  let (f, dual) ← Checked.foldRange 0 m (fillDual n) (f, dual)
  let ends := f.next.extract 0 (m + n)
  let diagonal ← ends.toList.mapM fun last => Checked.difference last 1
  pure
    { matrix := { K with
        colStart := #[0] ++ ends
        rowIndex := f.rowIndex
        value := f.value }
      places :=
        { quadratic
          constraint
          primal := diagonal.toArray.extract 0 n
          dual
          diagonal := diagonal.toArray } }

/-- Adds the primal regularizer to the diagonal of the top left block. -/
def addPrimal (K : Kkt α) (primal : α) : Checked (Kkt α) := do
  let value ← K.places.primal.toList.foldlM
    (fun value i => Checked.adjust value i (· + primal)) K.matrix.value
  pure { K with matrix := { K.matrix with value } }

/-- Writes values to the diagonal of the bottom right block, as far as there are any. -/
def setDual (K : Kkt α) (values : Array α) : Checked (Kkt α) := do
  let value ← (K.places.dual.toList.zip values.toList).foldlM
    (fun value (i, v) => Checked.store value i v) K.matrix.value
  pure { K with matrix := { K.matrix with value } }

end Kkt

end Quasidefinite
