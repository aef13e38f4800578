import Mathlib.LinearAlgebra.Matrix.Notation
import Mathlib.LinearAlgebra.Matrix.Symmetric
import Quasidefinite.Proofs.Sparse.Product

/-!
# One matrix behind three products

The product, the transposed product and the symmetric product are programs of their own: the first
scatters the entries of a column, the second gathers them, and the third does both at once. In exact
arithmetic all three are products with dense matrices, on every matrix that passes the format check
and for all scalings (`Sparse.products_exact`). The transposed product is therefore the adjoint of
the product (`Shaped.exists_adjoint`), and the symmetric product is its own adjoint
(`Triangle.exists_selfAdjoint`), as far as the inner products of the library tell.
-/

namespace Quasidefinite

namespace Sparse

open scoped Scalar Matrix

variable {K : Type} [Field K] [LinearOrder K] [SquareRoot K] {A : Sparse K}

/-! ## 1. Inner products -/

/-- **The transposed product is the adjoint of the product**, whatever the vectors hold that the
    products are written over. -/
theorem Shaped.exists_adjoint (hA : A.Shaped) {x w y y' : Array K} (hx : x.size = A.cols)
    (hw : w.size = A.rows) (hy : y.size = A.rows) (hy' : y'.size = A.cols) :
    ∃ u v s, A.gemv y x 1 0 = .ok u ∧ A.gemvT y' w 1 0 = .ok v ∧
      Vec.dot u w = .ok s ∧ Vec.dot x v = .ok s := by
  obtain ⟨u, hu, husize, hueq⟩ := hA.exists_vector_gemv hx hy 1 0
  obtain ⟨v, hv, hvsize, hveq⟩ := hA.exists_vector_gemvT hw hy' 1 0
  rw [one_smul, zero_smul, add_zero] at hueq hveq
  refine ⟨u, v, _, hu, hv, Vec.dot_eq husize hw, ?_⟩
  rw [Vec.dot_eq hx hvsize, hueq, hveq, Matrix.dotProduct_mulVec, Matrix.vecMul_transpose]

/-- **The symmetric product is its own adjoint.** -/
theorem Triangle.exists_selfAdjoint (hA : A.Triangle) {x w y y' : Array K} (hx : x.size = A.cols)
    (hw : w.size = A.cols) (hy : y.size = A.cols) (hy' : y'.size = A.cols) :
    ∃ u v s, A.symv y x 1 0 = .ok u ∧ A.symv y' w 1 0 = .ok v ∧
      Vec.dot u w = .ok s ∧ Vec.dot x v = .ok s := by
  obtain ⟨u, hu, husize, hueq⟩ := hA.exists_vector_symv hx hy 1 0
  obtain ⟨v, hv, hvsize, hveq⟩ := hA.exists_vector_symv hw hy' 1 0
  rw [one_smul, zero_smul, add_zero] at hueq hveq
  have hsymm : (A.symmetricMatrix A.cols)ᵀ = A.symmetricMatrix A.cols :=
    Matrix.IsSymm.ext fun i j => A.symmetric_comm j i
  refine ⟨u, v, _, hu, hv, Vec.dot_eq husize hw, ?_⟩
  rw [Vec.dot_eq hx hvsize, hueq, hveq, Matrix.dotProduct_mulVec, ← Matrix.vecMul_transpose, hsymm]

/-! ## 2. All products -/

/-- **The sparse products are the dense ones.** On a matrix that passes the format check and
    vectors of fitting lengths the product answers with `a A x + b y`, the transposed product with
    `a Aᵀ x + b y`, and on an upper triangle the symmetric product with `a S x + b y`, where `S` is
    the symmetric matrix with that upper triangle; and the inner products of `A x` with `w` and of
    `x` with `Aᵀ w`, of `S x` with `w` and of `x` with `S w` are the same. -/
theorem products_exact (hA : A.checkFormat.run = .ok (.ok ())) :
    (∀ (x y : Array K) (a b : K), x.size = A.cols → y.size = A.rows →
      ∃ z, A.gemv y x a b = .ok z ∧ z.size = A.rows ∧ vector A.rows z =
        a • (A.matrix A.rows A.cols *ᵥ vector A.cols x) + b • vector A.rows y) ∧
    (∀ (x y : Array K) (a b : K), x.size = A.rows → y.size = A.cols →
      ∃ z, A.gemvT y x a b = .ok z ∧ z.size = A.cols ∧ vector A.cols z =
        a • ((A.matrix A.rows A.cols)ᵀ *ᵥ vector A.rows x) + b • vector A.cols y) ∧
    (∀ x w y y' : Array K, x.size = A.cols → w.size = A.rows → y.size = A.rows →
      y'.size = A.cols → ∃ u v s, A.gemv y x 1 0 = .ok u ∧ A.gemvT y' w 1 0 = .ok v ∧
        Vec.dot u w = .ok s ∧ Vec.dot x v = .ok s) ∧
    (A.rows = A.cols → A.isUpper = .ok true →
      (∀ (x y : Array K) (a b : K), x.size = A.cols → y.size = A.cols →
        ∃ z, A.symv y x a b = .ok z ∧ z.size = A.cols ∧ vector A.cols z =
          a • (A.symmetricMatrix A.cols *ᵥ vector A.cols x) + b • vector A.cols y) ∧
      ∀ x w y y' : Array K, x.size = A.cols → w.size = A.cols → y.size = A.cols →
        y'.size = A.cols → ∃ u v s, A.symv y x 1 0 = .ok u ∧ A.symv y' w 1 0 = .ok v ∧
          Vec.dot u w = .ok s ∧ Vec.dot x v = .ok s) := by
  have hshaped := (wellFormed_of_checkFormat hA).toShaped
  refine ⟨fun x y a b hx hy => hshaped.exists_vector_gemv hx hy a b,
    fun x y a b hx hy => hshaped.exists_vector_gemvT hx hy a b,
    fun x w y y' hx hw hy hy' => hshaped.exists_adjoint hx hw hy hy', fun hsquare hupper => ?_⟩
  have htriangle : A.Triangle := by
    obtain ⟨flag, hflag, hiff⟩ := hshaped.exists_isUpper
    exact ⟨hshaped, hsquare, hiff.1 (Except.ok.inj (hflag.symm.trans hupper))⟩
  exact ⟨fun x y a b hx hy => htriangle.exists_vector_symv hx hy a b,
    fun x w y y' hx hw hy hy' => htriangle.exists_selfAdjoint hx hw hy hy'⟩

/-- The upper triangle of `[1 2; 2 -1]`. -/
def smallTriangle : Sparse ℚ where
  rows := 2
  cols := 2
  colStart := #[0, 1, 3]
  rowIndex := #[0, 0, 1]
  value := #[1, 2, -1]

/-- With the small triangle the symmetric product doubles the entry beside the diagonal and not
    those on it. -/
theorem products_exact_smallTriangle : ∃ z, smallTriangle.symv #[1, 1] #[3, 5] 2 (-1) = .ok z ∧
    vector 2 z = (2 : ℚ) • (!![1, 2; 2, -1] *ᵥ ![3, 5]) + (-1 : ℚ) • ![1, 1] := by
  obtain ⟨-, -, -, hsymmetric⟩ := products_exact (A := smallTriangle) (by decide +kernel)
  obtain ⟨z, hz, -, heq⟩ :=
    (hsymmetric rfl (by decide +kernel)).1 #[3, 5] #[1, 1] 2 (-1) rfl rfl
  refine ⟨z, hz, heq.trans (funext ?_)⟩
  change ∀ j : Fin 2, _
  decide +kernel

end Sparse

end Quasidefinite
