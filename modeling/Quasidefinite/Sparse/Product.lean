import Quasidefinite.Sparse.Format

/-!
# Products with sparse matrices

The products write `a * M * x + b * y` over `y`, where `M` is the matrix (`gemv`), its transpose
(`gemvT`), or the symmetric matrix whose upper triangle is stored (`symv`). A zero scaling `b`
overwrites whatever `y` held, so values that are not finite do not survive it. The diagonal and
the weighted sums of squares of the columns complete what the solvers ask of a matrix.
-/

namespace Quasidefinite

namespace Sparse

variable {α : Type} [Scalar α]

/-! ## 1. General products -/

/-- The vector `b * y`; the scalings 0, 1 and -1 need no multiplication. -/
def scaled (y : Array α) (b : α) : Array α :=
  if b == 0 then Vec.fill y 0
  else if b == 1 then y
  else if b == -1 then Vec.negate y
  else Vec.scale y b

/-- Adds column `j`, times `c`, to `y`. -/
def addColumn (A : Sparse α) (j : Nat) (c : α) (y : Array α) : Checked (Array α) :=
  A.foldColumn j
    (fun y k row => do
      let yr ← Checked.entry y row
      let v ← Checked.entry A.value k
      Checked.store y row (yr + v * c))
    y

/-- The inner product of column `j` with `x`, summed from top to bottom. -/
def columnDot (A : Sparse α) (j : Nat) (x : Array α) : Checked α := do
  (← A.column j).foldlM
    (fun sum (row, v) => do
      let xr ← Checked.entry x row
      pure (sum + v * xr))
    0

/-- The vector `a * A * x + b * y`. -/
def gemv (A : Sparse α) (y x : Array α) (a b : α) : Checked (Array α) := do
  Checked.require (x.size = A.cols) .lengthMismatch
  Checked.require (y.size = A.rows) .lengthMismatch
  if a == 0 then pure (scaled y b)
  else
    Checked.foldRange 0 x.size
      (fun y j => do
        let xj ← Checked.entry x j
        A.addColumn j (a * xj) y)
      (scaled y b)

/-- The vector `a * Aᵀ * x + b * y`. -/
def gemvT (A : Sparse α) (y x : Array α) (a b : α) : Checked (Array α) := do
  Checked.require (x.size = A.rows) .lengthMismatch
  Checked.require (y.size = A.cols) .lengthMismatch
  if a == 0 then pure (scaled y b)
  else
    Checked.foldRange 0 y.size
      (fun y j => do
        let s ← A.columnDot j x
        Checked.adjust y j (· + a * s))
      (scaled y b)

/-! ## 2. Symmetric products -/

/-- Adds to `y` what the stored entry `v` at `(row, col)` contributes to `a * S * x`, from its own
    and from the transposed position; on the diagonal the two are one. -/
def addSymmetric (a : α) (x : Array α) (col : Nat) (xcol : α) (y : Array α) :
    Nat × α → Checked (Array α)
  | (row, v) => do
    let y ← Checked.adjust y row (· + a * v * xcol)
    if row = col then pure y
    else
      let xrow ← Checked.entry x row
      Checked.adjust y col (· + a * v * xrow)

/-- The vector `a * S * x + b * y`, where `S` is the symmetric matrix whose upper triangle is
    `A`. -/
def symv (A : Sparse α) (y x : Array α) (a b : α) : Checked (Array α) := do
  Checked.require ((← A.isUpper) = true) .belowDiagonal
  Checked.require (x.size = A.cols) .lengthMismatch
  Checked.require (y.size = A.cols) .lengthMismatch
  Checked.require (A.cols = A.rows) .shapeMismatch
  Checked.foldRange 0 x.size
    (fun y col => do
      let xcol ← Checked.entry x col
      (← A.column col).foldlM (addSymmetric a x col xcol) y)
    (scaled y b)

/-! ## 3. Diagonal and column sums -/

/-- The diagonal of a square matrix, written over a vector of its size; a missing entry is
    zero. -/
def diagonal (A : Sparse α) (diag : Array α) : Checked (Array α) := do
  Checked.require (A.rows = A.cols) .shapeMismatch
  Checked.require (diag.size = A.cols) .lengthMismatch
  Checked.foldRange 0 A.cols
    (fun diag col =>
      A.foldColumn col
        (fun diag k row =>
          if row = col then do
            let v ← Checked.entry A.value k
            Checked.adjust diag col (· + v)
          else pure diag)
        diag)
    (Vec.fill diag 0)

/-- The sum of the squares of the entries of column `j`, each weighted by the weight of its
    row. -/
def weightedSquares (A : Sparse α) (w : Array α) (j : Nat) : Checked α := do
  (← A.column j).foldlM
    (fun sum (row, v) => do
      let wr ← Checked.entry w row
      pure (sum + wr * v * v))
    0

/-- The weighted sums of squares of all columns, written over a vector of their number. -/
def columnWeightedSquares (A : Sparse α) (out w : Array α) : Checked (Array α) := do
  Checked.require (out.size = A.cols) .lengthMismatch
  Checked.require (w.size = A.rows) .lengthMismatch
  Checked.foldRange 0 A.cols
    (fun out j => do
      let s ← A.weightedSquares w j
      Checked.store out j s)
    out

end Sparse

end Quasidefinite
