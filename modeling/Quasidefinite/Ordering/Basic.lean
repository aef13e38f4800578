import Quasidefinite.Sparse.Basic
import Quasidefinite.Permutation

/-!
# Fill-reducing orderings

The factorization of a sparse symmetric matrix stays sparse or fills up depending on the order in
which the unknowns are eliminated. A `FillOrdering` chooses that order from the pattern of the
upper triangle and a scale for what counts as a dense row. The solvers work with any ordering:
they rest only on the two laws that the structure carries, that an order is a permutation of the
right size, and that every pattern in good form gets one.
-/

namespace Quasidefinite

/-! ## 1. Patterns -/

/-- The positions, without the values, of the stored entries of a square matrix. -/
structure Pattern where
  /-- The number of rows and of columns. -/
  size : Nat
  /-- Where each column begins, and where the last one ends. -/
  colStart : Array Nat
  /-- The row of each stored entry. -/
  rowIndex : Array Nat

/-- The pattern of a square matrix. -/
def Sparse.pattern {α : Type} (A : Sparse α) : Pattern where
  size := A.cols
  colStart := A.colStart
  rowIndex := A.rowIndex

namespace Pattern

/-- The rows of column `j`, if it is a slice of the stored rows and all of them lie inside the
    matrix. -/
def column? (p : Pattern) (j : Nat) : Option (List Nat) := do
  let first ← p.colStart[j]?
  let last ← p.colStart[j + 1]?
  if first ≤ last ∧ last ≤ p.rowIndex.size then
    let rows := (p.rowIndex.extract first last).toList
    if rows.all (· < p.size) then some rows else none
  else none

/-- The rows of all columns, if the pattern is in good form: the columns start at zero, follow
    one another, and hold only rows inside the matrix. -/
def columns? (p : Pattern) : Option (List (List Nat)) :=
  if p.size = 0 then some []
  else if p.colStart[0]? = some 0 then (List.range p.size).mapM p.column?
  else none

end Pattern

/-! ## 2. Orderings -/

/-- A rule that chooses an order of elimination. -/
structure FillOrdering where
  /-- The order for a pattern, under a scale for the number of entries that makes a row
      dense. -/
  order? : Pattern → (denseScale : Float) → Option (Array Nat)
  /-- An order has the size of the pattern. -/
  size_order : ∀ {p s perm}, order? p s = some perm → perm.size = p.size
  /-- An order is a permutation. -/
  inverse_order : ∀ {p s perm}, order? p s = some perm → (Permutation.inverse? perm).isSome
  /-- Every pattern in good form has an order. -/
  isSome_order : ∀ {p} (s), p.columns?.isSome → (order? p s).isSome

namespace FillOrdering

/-- The ordering that takes the order a search proposes, and the order of the columns if that
    proposal is no permutation of them. -/
def ofSearch (propose : (size : Nat) → List (List Nat) → Float → Array Nat) : FillOrdering where
  order? p s := p.columns?.map fun columns =>
    let perm := propose p.size columns s
    if perm.size = p.size ∧ (Permutation.inverse? perm).isSome then perm else Array.range p.size
  size_order h := by
    obtain ⟨columns, -, rfl⟩ := Option.map_eq_some_iff.1 h
    dsimp only
    split <;> simp_all
  inverse_order h := by
    obtain ⟨columns, -, rfl⟩ := Option.map_eq_some_iff.1 h
    dsimp only
    split <;> simp_all [Permutation.inverse?_range]
  isSome_order s h := by simpa using h

end FillOrdering

end Quasidefinite
