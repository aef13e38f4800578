import Quasidefinite.Sparse.Basic

/-!
# The elimination tree

Eliminating the columns of a symmetric matrix in order joins the later neighbours of each column
to each other. The elimination tree records where that leads: the parent of column `i` is the
first later column joined to `i` at the time of its elimination. The tree and the number of
entries in each column of the triangular factor are found from the pattern of the upper triangle
alone, one path of the tree per stored entry.
-/

namespace Quasidefinite

/-- The elimination tree of a symmetric pattern. -/
structure EliminationTree where
  /-- The parent of every column; a root has none. -/
  parent : Array (Option Nat)
  /-- The number of entries below the diagonal in every column of the triangular factor. -/
  count : Array Nat

namespace EliminationTree

/-- A tree under construction, with the last column from which each column was reached. -/
structure Growing extends EliminationTree where
  /-- The last column from which a path of the tree reached each column. -/
  reachedBy : Array Nat

/-- Follows the path of the tree from `i` up to the first column already reached from `j`, counts
    an entry in row `j` for each column on it, and makes `j` the parent of its end. -/
def climb (j : Nat) : (steps i : Nat) → Growing → Checked Growing
  | 0, _, _ => .error .endless
  | steps + 1, i, t => do
    if (← Checked.entry t.reachedBy i) = j then pure t
    else
      let parent := (← Checked.entry t.parent i).getD j
      climb j steps parent
        { parent := ← Checked.store t.parent i (some parent)
          count := ← Checked.adjust t.count i (· + 1)
          reachedBy := ← Checked.store t.reachedBy i j }

/-- Extends the tree by column `j`. -/
def growColumn {α : Type} (A : Sparse α) (t : Growing) (j : Nat) : Checked Growing := do
  let reachedBy ← Checked.store t.reachedBy j j
  (← A.columnRows j).toList.foldlM (fun t row => climb j (A.cols + 1) row t) { t with reachedBy }

/-- The elimination tree of the symmetric matrix whose upper triangle is `A`. -/
def ofUpper {α : Type} (A : Sparse α) : Checked EliminationTree := do
  let n := A.cols
  let t ← Checked.foldRange 0 n (growColumn A)
    { parent := Array.replicate n none
      count := Array.replicate n 0
      reachedBy := Array.replicate n 0 }
  pure t.toEliminationTree

end EliminationTree

end Quasidefinite
