import Quasidefinite.Factor.EliminationTree
import Quasidefinite.Sparse.Product

/-!
# The numeric factorization

Row `k` of the triangular factor solves a triangular system with the part of the factor found
before and column `k` of the matrix as right hand side. Which of its entries can differ from zero
is known beforehand: they lie on the paths of the elimination tree that start at the rows of
column `k`. The sweep scatters the column into a vector, walks over these entries so that each
comes before its ancestors, and gathers the row and the pivot. The path being climbed and the
columns found so far are stacks in arrays with one place for every column; what lies above the top
of such a stack is never read.

A pivot that vanishes or is not finite ends the sweep. The factors then hold what has been found
so far, zeros for the pivots that were not reached, and in all other places what they held before.
-/

namespace Quasidefinite

/-! ## 1. Factors -/

/-- A pivot whose sign is known to be wrong, or which is too small, is moved to a safe value. -/
structure Regularizer (α : Type) where
  /-- The least pivot, times its expected sign, that is left alone. -/
  threshold : α
  /-- The value, times the expected sign, that replaces other pivots. -/
  shift : α

/-- The factors of `(I + L) diag(d) (I + L)ᵀ`. -/
structure Factors (α : Type) where
  /-- The triangular factor, without its unit diagonal. -/
  lower : Sparse α
  /-- The pivots `d`. -/
  pivot : Array α
  /-- The reciprocals of the pivots. -/
  pivotInv : Array α
  /-- The number of positive pivots. -/
  positive : Nat

/-- What the factorization of a matrix needs to know besides the values already found. -/
structure FactorPlan (α : Type) where
  /-- The upper triangle of the matrix. -/
  matrix : Sparse α
  /-- Its elimination tree. -/
  tree : EliminationTree
  /-- The expected signs of the pivots. -/
  signs : Array Int
  /-- How pivots are regularized, if they are. -/
  regularizer : Option (Regularizer α)

/-- Factors being found, with the scratch space of the sweep. -/
structure Sweep (α : Type) extends Factors α where
  /-- The next free place of every column of the triangular factor. -/
  next : Array Nat
  /-- The row being solved for. -/
  row : Array α
  /-- Marks the columns on the paths found so far. -/
  marked : Array Bool

namespace Sweep

variable {α : Type}

/-! ## 2. The pattern of a row -/

/-- Marks the columns before `k` on the path of the tree from `node` up to the first marked column,
    and puts them on the stack `path`, which has room for `room` columns. -/
def climb (tree : EliminationTree) (k room : Nat) :
    (steps : Nat) → (node : Option Nat) → (path : List Nat) → (marked : Array Bool) →
    Checked (List Nat × Array Bool)
  | _, none, path, marked => .ok (path, marked)
  | 0, some _, _, _ => .error .endless
  | steps + 1, some i, path, marked => do
    if i < k then
      if (← Checked.entry marked i) then pure (path, marked)
      else
        let marked ← Checked.store marked i true
        let path ← Checked.push room path i
        climb tree k room steps (← Checked.entry tree.parent i) path marked
    else pure (path, marked)

/-- Scatters the entry at position `p` of column `k`, in row `i`: the diagonal entry starts the
    pivot, every other one starts a path. The columns of the path are taken off their stack, the
    last one first, and put on the stack of all columns found for the row. Either stack has room for
    every column of the matrix once. -/
def scatterEntry (plan : FactorPlan α) (k : Nat) : Sweep α × List Nat → (p i : Nat) →
    Checked (Sweep α × List Nat)
  | (s, reach), p, i => do
    let n := plan.matrix.cols
    let v ← Checked.entry plan.matrix.value p
    if i = k then
      pure ({ s with pivot := ← Checked.store s.pivot k v }, reach)
    else
      let row ← Checked.store s.row i v
      let (path, marked) ← climb plan.tree k n (n + 1) (some i) [] s.marked
      let reach ← path.foldlM (Checked.push n) reach
      pure ({ s with row, marked }, reach)

variable [Scalar α]

/-! ## 3. The values of a row -/

/-- Finds the entry of row `k` in column `col` of the triangular factor, and takes it out of the
    equations of the columns that follow and out of the pivot. -/
def eliminate (k : Nat) (s : Sweep α) (col : Nat) : Checked (Sweep α) := do
  let y ← Checked.entry s.row col
  let place ← Checked.entry s.next col
  let row ← Checked.foldRange (← Checked.entry s.lower.colStart col) place
    (fun row p => do
      let i ← Checked.entry s.lower.rowIndex p
      let v ← Checked.entry s.lower.value p
      Checked.adjust row i (· - v * y))
    s.row
  let v := y * (← Checked.entry s.pivotInv col)
  let rowIndex ← Checked.store s.lower.rowIndex place k
  let value ← Checked.store s.lower.value place v
  let pivot ← Checked.adjust s.pivot k (· - y * v)
  let next ← Checked.store s.next col (place + 1)
  let row ← Checked.store row col 0
  let marked ← Checked.store s.marked col false
  pure { s with lower := { s.lower with rowIndex, value }, pivot, next, row, marked }

/-- The pivot after regularization. -/
def regularized (r : Regularizer α) (sign : Int) (d : α) : α :=
  let s : α := if sign < 0 then -1 else 1
  if d * s < r.threshold then r.shift * s else d

/-- Regularizes pivot `k`, if pivots are regularized. -/
def regularize (plan : FactorPlan α) (k : Nat) (s : Sweep α) : Checked (Sweep α) := do
  match plan.regularizer with
  | none => pure s
  | some r =>
    let sign ← Checked.entry plan.signs k
    pure { s with pivot := ← Checked.adjust s.pivot k (regularized r sign) }

/-- Completes row `k` and its pivot. -/
def column (plan : FactorPlan α) (k : Nat) (s : Sweep α) : Checked (Sweep α) := do
  let (s, reach) ← plan.matrix.foldColumn k (scatterEntry plan k) (s, [])
  let s ← reach.foldlM (eliminate k) s
  s.regularize plan k

/-- Takes note of pivot `k`, or answers `none` if it vanishes or is not finite. -/
def accept? (k : Nat) (s : Sweep α) : Checked (Option (Sweep α)) := do
  let d ← Checked.entry s.pivot k
  if d == 0 || !Scalar.isFinite d then pure none
  else
    let pivotInv ← Checked.store s.pivotInv k (Scalar.recip d)
    pure (some { s with pivotInv, positive := if 0 < d then s.positive + 1 else s.positive })

/-- Sweeps over `count` columns from `k` on, and tells the first one without a usable pivot. -/
def run (plan : FactorPlan α) : (count k : Nat) → Sweep α → Checked (Sweep α × Option Nat)
  | 0, _, s => .ok (s, none)
  | count + 1, k, s => do
    let s ← s.column plan k
    match ← s.accept? k with
    | none => pure (s, some k)
    | some s => run plan count (k + 1) s

end Sweep

/-! ## 4. The factorization -/

namespace FactorPlan

variable {α : Type} [Scalar α]

/-- Room for the factors, all of it zero. -/
def blank (plan : FactorPlan α) : Factors α :=
  let n := plan.matrix.cols
  let colStart := (Sparse.startsOfLengths 0 plan.tree.count.toList).toArray
  { lower := { Sparse.allocate n n (colStart.getD n 0) with colStart }
    pivot := Vec.zeros n
    pivotInv := Vec.zeros n
    positive := 0 }

/-- Factors the matrix over the given factors, and tells the first column without a usable
    pivot. -/
def factor (plan : FactorPlan α) (old : Factors α) : Checked (Factors α × Option Nat) := do
  let n := plan.matrix.cols
  let next ← Checked.slice old.lower.colStart 0 n
  let (s, failed) ← Sweep.run plan n 0
    { old with
      pivot := Vec.fill old.pivot 0
      positive := 0
      next
      row := Vec.zeros n
      marked := Array.replicate n false }
  pure (s.toFactors, failed)

end FactorPlan

end Quasidefinite
