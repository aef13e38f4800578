import Mathlib.LinearAlgebra.Matrix.Notation
import Mathlib.Tactic.FinCases
import Quasidefinite.Proofs.Indirect.Operator
import Quasidefinite.Proofs.Kkt.Dense

/-!
# The reduced operator in both storages

A symmetric quadratic term is stored in full, or as its upper triangle. The operator reads the one
through the plain product and the other through the symmetric one, and finds its diagonal by a
program of its own. In exact arithmetic both forms give one matrix, `ρₓ I + P + Aᵀ diag(w) A`, for
all weights (`ReducedOperator.schur_in_both_storages`).
-/

namespace Quasidefinite

open scoped Scalar Matrix

variable {K : Type} [Field K] [LinearOrder K] [SquareRoot K]

namespace ReducedOperator

/-! ## 1. What an operator computes -/

/-- The operator computes the matrix `M`: it writes the product of `M` with a vector and, as its
    diagonal, the entries that `M` gives the unit vectors in their own places, whatever was held
    where it writes. -/
structure Computes (op : ReducedOperator K) {n : Nat} (M : Matrix (Fin n) (Fin n) K) : Prop where
  apply : ∀ y x work : Array K, y.size = n → x.size = n → work.size = op.constraint.rows →
    ∃ z u, op.apply y x work = .ok (z, u) ∧ z.size = n ∧ vector n z = M *ᵥ vector n x
  diagonal : ∀ diag : Array K, diag.size = n → ∃ d, op.diagonal diag = .ok d ∧ d.size = n ∧
    ∀ j : Fin n, vector n d j = (M *ᵥ Pi.single j 1) j

/-- An operator whose parts fit together computes its matrix. -/
theorem Fits.computes {op : ReducedOperator K} (h : op.Fits) (hdistinct : op.constraint.Distinct) :
    op.Computes op.matrix where
  apply _ _ _ hy hx hwork := h.exists_vector_apply hy hx hwork
  diagonal diag hdiag := by
    obtain ⟨d, hd, hsize, heq⟩ := h.exists_vector_diagonal hdistinct hdiag
    refine ⟨d, hd, hsize, fun j => ?_⟩
    rw [heq, Matrix.mulVec_single_one]
    rfl

/-! ## 2. Both storages -/

variable {A P : Sparse K}

/-- **The reduced operator is the Schur complement, in both storages of the quadratic term.** For
    matrices that pass the format check, a symmetric quadratic term and whatever weights, the upper
    triangle is found, and the operator on the full matrix as well as that on its upper triangle
    computes `ρₓ I + P + Aᵀ diag(w) A`. -/
theorem schur_in_both_storages (hA : A.checkFormat.run = .ok (.ok ()))
    (hP : P.checkFormat.run = .ok (.ok ())) (hrows : P.rows = A.cols) (hcols : P.cols = A.cols)
    (hsymm : (P.matrix A.cols A.cols).IsSymm) (primal : K) {weights : Array K}
    (hweights : weights.size = A.rows) :
    ∃ U, P.upper = .ok U ∧
      Computes ⟨A, P, false, primal, weights⟩
        (Kkt.schur A (P.matrix A.cols A.cols) primal (vector A.rows weights)) ∧
      Computes ⟨A, U, true, primal, weights⟩
        (Kkt.schur A (P.matrix A.cols A.cols) primal (vector A.rows weights)) := by
  have hwell := Sparse.wellFormed_of_checkFormat hA
  have hshaped := (Sparse.wellFormed_of_checkFormat hP).toShaped
  refine ⟨P.upperPart, hshaped.upper_eq (hrows.trans hcols.symm), ?_, ?_⟩
  · have hfits : Fits ⟨A, P, false, primal, weights⟩ :=
      ⟨hwell.toShaped, hshaped, hrows, hcols, nofun, hweights⟩
    exact hfits.computes hwell.distinct
  · have hfits : Fits ⟨A, P.upperPart, true, primal, weights⟩ :=
      ⟨hwell.toShaped, P.shaped_upperPart, hcols, P.cols_upperPart.trans hcols,
        fun _ => P.upper_upperPart, hweights⟩
    have hstores : P.upperPart.Stores (P.matrix A.cols A.cols) :=
      (Sparse.Stores.full hsymm rfl).upperPart hcols
    rw [← hstores.symmetricMatrix_eq]
    exact hfits.computes hwell.distinct

/-- The constraints `[1 2; 0 1; 3 0]`. -/
def sampleConstraint : Sparse ℚ where
  rows := 3
  cols := 2
  colStart := #[0, 2, 4]
  rowIndex := #[0, 2, 0, 1]
  value := #[1, 3, 2, 1]

/-- The quadratic term `[2 1; 1 4]`, in full. -/
def sampleQuadratic : Sparse ℚ where
  rows := 2
  cols := 2
  colStart := #[0, 2, 4]
  rowIndex := #[0, 1, 0, 1]
  value := #[2, 1, 1, 4]

/-- With the weights `1`, `1/2` and `1/4` both forms of the sample compute `[25/4 3; 3 19/2]`. -/
theorem schur_in_both_storages_sample : ∃ U, sampleQuadratic.upper = .ok U ∧
    Computes ⟨sampleConstraint, sampleQuadratic, false, 1, #[1, 1 / 2, 1 / 4]⟩
      !![(25 / 4 : ℚ), 3; 3, 19 / 2] ∧
    Computes ⟨sampleConstraint, U, true, 1, #[1, 1 / 2, 1 / 4]⟩
      !![(25 / 4 : ℚ), 3; 3, 19 / 2] := by
  have hsymm : ∀ i j : Fin 2, sampleQuadratic.dense j i = sampleQuadratic.dense i j := by
    decide +kernel
  have hmatrix : Kkt.schur sampleConstraint (sampleQuadratic.matrix 2 2) 1
      (vector 3 #[1, 1 / 2, 1 / 4]) = !![25 / 4, 3; 3, 19 / 2] := by
    ext i j
    fin_cases i <;> fin_cases j <;> decide +kernel
  rw [← hmatrix]
  exact schur_in_both_storages (A := sampleConstraint) (P := sampleQuadratic) (by decide +kernel)
    (by decide +kernel) rfl rfl (Matrix.IsSymm.ext hsymm) 1 rfl

end ReducedOperator

end Quasidefinite
