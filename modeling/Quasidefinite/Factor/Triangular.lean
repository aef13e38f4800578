import Quasidefinite.Sparse.Product

/-!
# Solving with triangular factors

`L` is stored without its unit diagonal. The three solves work in place: `lowerSolve` undoes
`I + L`, `upperSolve` undoes its transpose, and `factorSolve` undoes
`(I + L) diag(d) (I + L)ᵀ`, given the reciprocals of `d`.
-/

namespace Quasidefinite

namespace Sparse

variable {α : Type} [Scalar α]

/-- Takes entry `i`, already solved for, out of the equations of the later rows. -/
def eliminateEntry (L : Sparse α) (x : Array α) (i : Nat) : Checked (Array α) := do
  let xi ← Checked.entry x i
  (← L.column i).foldlM (fun x (row, v) => Checked.adjust x row (· - v * xi)) x

/-- The solution of `(I + L) x = b`, from the first row to the last. -/
def lowerSolve (L : Sparse α) (b : Array α) : Checked (Array α) :=
  Checked.foldRange 0 b.size L.eliminateEntry b

/-- Subtracts from entry `i` what the later entries, already solved for, contribute to it. -/
def substituteEntry (L : Sparse α) (x : Array α) (i : Nat) : Checked (Array α) := do
  let s ← L.columnDot i x
  Checked.adjust x i (· - s)

/-- The solution of `(I + L)ᵀ x = b`, from the last row to the first. -/
def upperSolve (L : Sparse α) (b : Array α) : Checked (Array α) :=
  Checked.foldDown L.substituteEntry b.size b

/-- The solution of `(I + L) diag(d) (I + L)ᵀ x = b`, where `inverse` holds the reciprocals of
    `d`. -/
def factorSolve (L : Sparse α) (inverse b : Array α) : Checked (Array α) := do
  let x ← L.lowerSolve b
  L.upperSolve (Vec.hadamard x inverse)

end Sparse

end Quasidefinite
