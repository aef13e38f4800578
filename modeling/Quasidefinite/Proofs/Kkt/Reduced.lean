import Mathlib.LinearAlgebra.Matrix.DotProduct
import Mathlib.LinearAlgebra.Matrix.Symmetric
import Mathlib.Tactic.FieldSimp
import Mathlib.Tactic.LinearCombination
import Quasidefinite.Proofs.Signature
import Quasidefinite.Proofs.Kkt.Dense

/-!
# Elimination of the second block

The second block of unknowns is determined by the first one, and eliminating it leaves the matrix

    ρₓ I + P + Aᵀ diag(ρ_y)⁻¹ A

(`Kkt.reduced`). If the second block is the one that the second equation asks for, the residual of
the whole system is that of the reduced one (`Kkt.system_mulVec_recovered`). The quadratic form of
the system is that of the reduced matrix less a weighted sum of squares (`Kkt.system_form_eq`), so
both have the same positive index (`Kkt.positiveIndex_system`); and the reduced matrix is positive
definite if the quadratic term is positive semidefinite (`Kkt.positiveDefinite_reduced`).
-/

namespace Quasidefinite

open scoped Scalar Matrix

variable {K : Type} [Field K] [LinearOrder K] [SquareRoot K]

/-! ## 1. Quadratic terms as they are read -/

namespace Sparse

/-- The matrix as which the iterative method reads a quadratic term: the symmetric matrix whose
    upper triangle it is if it stores nothing below the diagonal, and else the matrix as it
    stands. -/
def quadraticMatrix (P : Sparse K) (n : Nat) : Matrix (Fin n) (Fin n) K :=
  if P.Upper then P.symmetricMatrix n else P.matrix n n

/-- A symmetric matrix that is stored in one of the two forms is read as that matrix. -/
theorem Stores.quadraticMatrix_eq {n : Nat} {P : Sparse K} {S : Matrix (Fin n) (Fin n) K}
    (h : P.Stores S) : P.quadraticMatrix n = S := by
  unfold quadraticMatrix
  split
  case isTrue => exact h.symmetricMatrix_eq
  case isFalse hnot =>
    cases h with
    | triangle hupper _ => exact absurd hupper hnot
    | full _ h => exact h

end Sparse

namespace Kkt

/-! ## 2. Vectors in two blocks -/

omit [LinearOrder K] [SquareRoot K] in
theorem blocks_append {A : Sparse K} {x : Array K} (hx : x.size = A.cols) (y : Array K) :
    blocks A (x ++ y) = Sum.elim (vector A.cols x) (vector A.rows y) := by
  unfold blocks vector
  congr 1
  · funext j
    have hj : (j : Nat) < x.size := j.isLt.trans_eq hx.symm
    simp [Array.getD_eq_getD_getElem?, Array.getElem?_append, hj]
  · funext i
    simp [Array.getD_eq_getD_getElem?, Array.getElem?_append, hx]

omit [LinearOrder K] [SquareRoot K] in
theorem vector_extract_left (A : Sparse K) (b : Array K) :
    vector A.cols (b.extract 0 A.cols) = blocks A b ∘ Sum.inl :=
  funext fun j => getD_extract b 0 j.isLt

omit [LinearOrder K] [SquareRoot K] in
theorem vector_extract_right (A : Sparse K) (b : Array K) :
    vector A.rows (b.extract A.cols b.size) = blocks A b ∘ Sum.inr := by
  funext i
  unfold vector blocks
  simp only [Array.getD_eq_getD_getElem?, Array.getElem?_extract, Function.comp_apply,
    Sum.elim_inr]
  by_cases hi : (i : Nat) < b.size - A.cols
  · simp [hi]
  · simp [hi]
    rw [Array.getElem?_eq_none (by omega)]
    rfl

/-- The norm that is computed for a vector of the length of the system. -/
theorem norm_eq_blocks {A : Sparse K} {b : Array K} (hb : b.size = A.rows + A.cols) :
    Vec.norm b = euclidean (blocks A b) := by
  rw [Vec.norm_eq hb, blocks_eq A (Nat.add_comm A.cols A.rows), euclidean_comp_equiv]

/-! ## 3. The reduced matrix -/

section Reduced

variable (A : Sparse K) (S : Matrix (Fin A.cols) (Fin A.cols) K) (primal : K) (dual : Array K)

/-- The matrix of the reduced system. -/
def reduced : Matrix (Fin A.cols) (Fin A.cols) K :=
  primal • (1 : Matrix (Fin A.cols) (Fin A.cols) K) + S +
    (A.matrix A.rows A.cols)ᵀ * Matrix.diagonal (vector A.rows dual)⁻¹ * A.matrix A.rows A.cols

/-- The matrix `ρₓ I + S + Aᵀ diag(w) A`, for any weights `w` of the constraints. -/
def schur (weights : Fin A.rows → K) : Matrix (Fin A.cols) (Fin A.cols) K :=
  primal • (1 : Matrix (Fin A.cols) (Fin A.cols) K) + S +
    (A.matrix A.rows A.cols)ᵀ * Matrix.diagonal weights * A.matrix A.rows A.cols

/-- The reciprocals of the dual regularizer are the weights of the reduced matrix. -/
theorem reduced_eq_schur :
    reduced A S primal dual = schur A S primal (vector A.rows dual)⁻¹ := rfl

/-- The second block of unknowns that goes with the first block `x`, for the right hand side
    `c`. -/
def recovered (x : Fin A.cols → K) (c : Fin A.rows → K) : Fin A.rows → K :=
  (A.matrix A.rows A.cols *ᵥ x - c) * (vector A.rows dual)⁻¹

variable {A S primal dual}

omit [LinearOrder K] [SquareRoot K] in
theorem diagonal_mulVec {m : Nat} (d v : Fin m → K) : Matrix.diagonal d *ᵥ v = v * d := by
  funext i
  rw [Matrix.mulVec_diagonal, Pi.mul_apply, mul_comm]

theorem schur_mulVec (weights : Fin A.rows → K) (x : Fin A.cols → K) :
    schur A S primal weights *ᵥ x = primal • x + S *ᵥ x +
      (A.matrix A.rows A.cols)ᵀ *ᵥ (A.matrix A.rows A.cols *ᵥ x * weights) := by
  rw [schur, Matrix.add_mulVec, Matrix.add_mulVec, Matrix.smul_mulVec, Matrix.one_mulVec,
    ← Matrix.mulVec_mulVec, ← Matrix.mulVec_mulVec, diagonal_mulVec]

theorem reduced_mulVec (x : Fin A.cols → K) : reduced A S primal dual *ᵥ x =
    primal • x + S *ᵥ x + (A.matrix A.rows A.cols)ᵀ *ᵥ
      (A.matrix A.rows A.cols *ᵥ x * (vector A.rows dual)⁻¹) := schur_mulVec _ x

/-- The recovered second block makes the second equation hold. -/
theorem mulVec_sub_recovered (hdual : ∀ i : Fin A.rows, vector A.rows dual i ≠ 0)
    (x : Fin A.cols → K) (c : Fin A.rows → K) :
    A.matrix A.rows A.cols *ᵥ x - vector A.rows dual * recovered A dual x c = c := by
  funext i
  rw [recovered, Pi.sub_apply, Pi.mul_apply, Pi.mul_apply, Pi.inv_apply, mul_comm,
    inv_mul_cancel_right₀ (hdual i), Pi.sub_apply, sub_sub_cancel]

/-- **The residual of the system is that of the reduced system** if the second block is the one
    that goes with the first: the second equation holds exactly. -/
theorem system_mulVec_recovered (hdual : ∀ i : Fin A.rows, vector A.rows dual i ≠ 0)
    (x : Fin A.cols → K) (c : Fin A.rows → K) :
    system A S primal dual *ᵥ Sum.elim x (recovered A dual x c) =
      Sum.elim (reduced A S primal dual *ᵥ x -
        (A.matrix A.rows A.cols)ᵀ *ᵥ (c * (vector A.rows dual)⁻¹)) c := by
  have hsecond : A.matrix A.rows A.cols *ᵥ x +
      -Matrix.diagonal (vector A.rows dual) *ᵥ recovered A dual x c = c := by
    rw [Matrix.neg_mulVec, diagonal_mulVec, ← sub_eq_add_neg, mul_comm (recovered A dual x c),
      mulVec_sub_recovered hdual]
  rw [system, Matrix.fromBlocks_mulVec, Sum.elim_comp_inl, Sum.elim_comp_inr, hsecond]
  congr 1
  rw [reduced_mulVec, Matrix.add_mulVec, Matrix.smul_mulVec, Matrix.one_mulVec, recovered, sub_mul,
    Matrix.mulVec_sub, add_sub_assoc]

/-- What the recovered second block leaves of a right hand side `b`. -/
theorem system_residual (S : Matrix (Fin A.cols) (Fin A.cols) K) (primal : K)
    (hdual : ∀ i : Fin A.rows, vector A.rows dual i ≠ 0) (x : Fin A.cols → K)
    (b : Fin A.cols ⊕ Fin A.rows → K) :
    system A S primal dual *ᵥ Sum.elim x (recovered A dual x (b ∘ Sum.inr)) - b =
      Sum.elim (reduced A S primal dual *ᵥ x - (b ∘ Sum.inl +
        (A.matrix A.rows A.cols)ᵀ *ᵥ (b ∘ Sum.inr * (vector A.rows dual)⁻¹))) 0 := by
  rw [system_mulVec_recovered hdual]
  funext i
  cases i with
  | inl j =>
    simp only [Pi.sub_apply, Sum.elim_inl, Pi.add_apply, Function.comp_apply]
    ring
  | inr i => simp

/-- The second equation determines the second block. -/
theorem eq_recovered (hdual : ∀ i : Fin A.rows, vector A.rows dual i ≠ 0) {x b : Fin A.cols → K}
    {y c : Fin A.rows → K} (h : system A S primal dual *ᵥ Sum.elim x y = Sum.elim b c) :
    y = recovered A dual x c := by
  rw [system, Matrix.fromBlocks_mulVec, Sum.elim_comp_inl, Sum.elim_comp_inr] at h
  have hsecond := (Sum.elim_eq_iff.1 h).2
  funext i
  have hi := congrFun hsecond i
  rw [Matrix.neg_mulVec, diagonal_mulVec, Pi.add_apply, Pi.neg_apply, Pi.mul_apply] at hi
  rw [recovered, Pi.mul_apply, Pi.inv_apply, Pi.sub_apply, eq_mul_inv_iff_mul_eq₀ (hdual i)]
  linear_combination -hi

/-! ## 4. Quadratic forms -/

/-- The quadratic form of the reduced matrix. -/
theorem reduced_form (x : Fin A.cols → K) : x ⬝ᵥ reduced A S primal dual *ᵥ x =
    primal * (x ⬝ᵥ x) + x ⬝ᵥ S *ᵥ x + ∑ i, (A.matrix A.rows A.cols *ᵥ x) i *
      ((A.matrix A.rows A.cols *ᵥ x) i * (vector A.rows dual i)⁻¹) := by
  rw [reduced_mulVec, dotProduct_add, dotProduct_add, dotProduct_smul, smul_eq_mul,
    Matrix.mulVec_transpose, dotProduct_comm x (_ ᵥ* _), ← Matrix.dotProduct_mulVec,
    dotProduct_comm (_ * _)]
  rfl

/-- **The form of the system is that of the reduced matrix, less the squares of how far the second
    block is from the one that makes the second equation hold.** -/
theorem system_form_eq (hdual : ∀ i : Fin A.rows, vector A.rows dual i ≠ 0) (x : Fin A.cols → K)
    (y : Fin A.rows → K) :
    Sum.elim x y ⬝ᵥ system A S primal dual *ᵥ Sum.elim x y =
      x ⬝ᵥ reduced A S primal dual *ᵥ x - ∑ i, vector A.rows dual i *
        ((y i - recovered A dual x 0 i) * (y i - recovered A dual x 0 i)) := by
  have hcross : x ⬝ᵥ (A.matrix A.rows A.cols)ᵀ *ᵥ y = y ⬝ᵥ A.matrix A.rows A.cols *ᵥ x := by
    rw [Matrix.mulVec_transpose, dotProduct_comm, ← Matrix.dotProduct_mulVec]
  have hsquares : y ⬝ᵥ A.matrix A.rows A.cols *ᵥ x + y ⬝ᵥ A.matrix A.rows A.cols *ᵥ x +
      y ⬝ᵥ -Matrix.diagonal (vector A.rows dual) *ᵥ y =
      ∑ i, (A.matrix A.rows A.cols *ᵥ x) i *
        ((A.matrix A.rows A.cols *ᵥ x) i * (vector A.rows dual i)⁻¹) -
      ∑ i, vector A.rows dual i *
        ((y i - recovered A dual x 0 i) * (y i - recovered A dual x 0 i)) := by
    rw [dotProduct, dotProduct, ← Finset.sum_add_distrib, ← Finset.sum_add_distrib,
      ← Finset.sum_sub_distrib]
    refine Finset.sum_congr rfl fun i _ => ?_
    have hi := hdual i
    rw [Matrix.neg_mulVec, diagonal_mulVec, recovered, sub_zero, Pi.neg_apply, Pi.mul_apply,
      Pi.mul_apply, Pi.inv_apply]
    field_simp
    ring
  rw [system, Matrix.fromBlocks_mulVec, Sum.elim_comp_inl, Sum.elim_comp_inr,
    sumElim_dotProduct_sumElim, reduced_form, add_sub_assoc, ← hsquares, Matrix.add_mulVec,
    Matrix.smul_mulVec, Matrix.one_mulVec, dotProduct_add, dotProduct_add, dotProduct_smul, hcross,
    dotProduct_add, smul_eq_mul]
  ring

variable [IsStrictOrderedRing K]

/-- **The reduced matrix is coercive** if the quadratic term is positive semidefinite. -/
theorem mul_dotProduct_le_reduced_form (hS : ∀ x, 0 ≤ x ⬝ᵥ S *ᵥ x)
    (hdual : ∀ i : Fin A.rows, 0 < vector A.rows dual i) (x : Fin A.cols → K) :
    primal * (x ⬝ᵥ x) ≤ x ⬝ᵥ reduced A S primal dual *ᵥ x := by
  have hsum : 0 ≤ ∑ i, (A.matrix A.rows A.cols *ᵥ x) i *
      ((A.matrix A.rows A.cols *ᵥ x) i * (vector A.rows dual i)⁻¹) := by
    refine Finset.sum_nonneg fun i _ => ?_
    rw [← mul_assoc]
    exact mul_nonneg (mul_self_nonneg _) (inv_nonneg.2 (hdual i).le)
  rw [reduced_form]
  linarith [hS x]

omit [IsStrictOrderedRing K] in
theorem reduced_isSymm (hS : S.IsSymm) : (reduced A S primal dual).IsSymm := by
  unfold reduced
  refine ((Matrix.isSymm_one.smul primal).add hS).add ?_
  rw [Matrix.IsSymm, Matrix.transpose_mul, Matrix.transpose_mul, Matrix.diagonal_transpose,
    Matrix.transpose_transpose, Matrix.mul_assoc]

/-- **The reduced matrix is positive definite** if the quadratic term is positive semidefinite and
    the regularizers are positive. -/
theorem positiveDefinite_reduced (hsymm : S.IsSymm) (hS : ∀ x, 0 ≤ x ⬝ᵥ S *ᵥ x)
    (hprimal : 0 < primal) (hdual : ∀ i : Fin A.rows, 0 < vector A.rows dual i) :
    PositiveDefinite (reduced A S primal dual) where
  symm := reduced_isSymm hsymm
  pos x hx := by
    have hpos : 0 < x ⬝ᵥ x :=
      (zero_le_dotProduct_self x).lt_of_ne fun h => hx (dotProduct_self_eq_zero.1 h.symm)
    exact (mul_pos hprimal hpos).trans_le (mul_dotProduct_le_reduced_form hS hdual x)

/-! ## 5. Any quadratic term -/

omit [LinearOrder K] [SquareRoot K] [IsStrictOrderedRing K] in
/-- The first block of unknowns together with the second one that goes with it. -/
def withRecovered (A : Sparse K) (dual : Array K) :
    (Fin A.cols → K) →ₗ[K] (Fin A.cols ⊕ Fin A.rows → K) where
  toFun x := Sum.elim x (recovered A dual x 0)
  map_add' x y := by
    rw [recovered, recovered, recovered, Matrix.mulVec_add, sub_zero, sub_zero, sub_zero, add_mul,
      Sum.elim_add_add]
  map_smul' c x := by
    funext i
    cases i <;> simp [recovered, Matrix.mulVec_smul]

/-- **The system has the positive index of the reduced matrix**: the constraints bring negative
    squares only. -/
theorem positiveIndex_system (hdual : ∀ i : Fin A.rows, 0 < vector A.rows dual i) :
    positiveIndex (system A S primal dual) = positiveIndex (reduced A S primal dual) := by
  have hne : ∀ i : Fin A.rows, vector A.rows dual i ≠ 0 := fun i => (hdual i).ne'
  refine Nat.le_antisymm (positiveIndex_le (LinearMap.funLeft K K Sum.inl) fun z => ?_)
    (positiveIndex_le (withRecovered A dual) fun x => ?_)
  · obtain ⟨x, y, rfl⟩ : ∃ x y, z = Sum.elim x y := ⟨_, _, (Sum.elim_comp_inl_inr z).symm⟩
    rw [system_form_eq hne]
    exact sub_le_self _ (Finset.sum_nonneg fun i _ =>
      mul_nonneg (hdual i).le (mul_self_nonneg _))
  · show _ ≤ Sum.elim x (recovered A dual x 0) ⬝ᵥ
      system A S primal dual *ᵥ Sum.elim x (recovered A dual x 0)
    rw [system_form_eq hne]
    simp only [sub_self, mul_zero, Finset.sum_const_zero, sub_zero, le_refl]

omit [IsStrictOrderedRing K] in
/-- If the reduced matrix is singular, so is the system. -/
theorem det_system_eq_zero (hdual : ∀ i : Fin A.rows, vector A.rows dual i ≠ 0)
    (h : (reduced A S primal dual).det = 0) : (system A S primal dual).det = 0 := by
  obtain ⟨x, hne, hx⟩ := Matrix.exists_mulVec_eq_zero_iff.2 h
  refine Matrix.exists_mulVec_eq_zero_iff.1 ⟨Sum.elim x (recovered A dual x 0), ?_, ?_⟩
  · exact fun hzero => hne (congrArg (· ∘ Sum.inl) hzero)
  · rw [system_mulVec_recovered hdual, hx, zero_mul, Matrix.mulVec_zero, sub_zero,
      Sum.elim_zero_zero]

end Reduced

end Kkt

end Quasidefinite
