import Mathlib.LinearAlgebra.Matrix.ToLinearEquiv
import Mathlib.LinearAlgebra.QuadraticForm.Signature
import Quasidefinite.Proofs.Euclidean

/-!
# Positive indices

The positive index of a matrix is the largest dimension of a subspace on which its quadratic form is
positive definite (`positiveIndex_isGreatest`); for a symmetric matrix over the real numbers it is
the number of positive eigenvalues. A linear map along which forms do not decrease is injective on
such subspaces, so the index does not decrease either (`positiveIndex_le`). From this follow its
values for renumbered matrices and for products `L D Lᵀ` (`positiveIndex_mul_diagonal_mul`). The
negative index is that of the negated matrix; for such products with an invertible `D` both indices
fill the space (`positiveIndex_add_negativeIndex`).
-/

namespace Quasidefinite

open scoped Matrix

variable {K : Type} [Field K] [LinearOrder K] {ι κ : Type} [Fintype ι] [Fintype κ]
  [DecidableEq ι] [DecidableEq κ]

/-! ## 1. The index -/

/-- The largest dimension of a subspace on which the form of a matrix is positive definite. -/
noncomputable def positiveIndex (M : Matrix ι ι K) : Nat := sigPos M.toQuadraticForm'

omit [LinearOrder K] in
theorem toQuadraticForm'_eq (M : Matrix ι ι K) (x : ι → K) :
    M.toQuadraticForm' x = x ⬝ᵥ M *ᵥ x := Matrix.toLinearMap₂'_apply' M x x

theorem posDef_restrict_iff {M : Matrix ι ι K} {W : Submodule K (ι → K)} :
    (M.toQuadraticForm'.restrict W).PosDef ↔ ∀ x ∈ W, x ≠ 0 → 0 < x ⬝ᵥ M *ᵥ x := by
  simp [QuadraticMap.PosDef, toQuadraticForm'_eq]

theorem positiveIndex_isGreatest (M : Matrix ι ι K) :
    IsGreatest {d | ∃ W : Submodule K (ι → K), Module.finrank K W = d ∧
      ∀ x ∈ W, x ≠ 0 → 0 < x ⬝ᵥ M *ᵥ x} (positiveIndex M) := by
  unfold positiveIndex
  simpa only [posDef_restrict_iff] using sigPos_isGreatest M.toQuadraticForm'

/-- **A linear map along which forms do not decrease** bounds the index of the one by the index of
    the other. -/
theorem positiveIndex_le {M : Matrix ι ι K} {N : Matrix κ κ K} (f : (ι → K) →ₗ[K] (κ → K))
    (h : ∀ x, x ⬝ᵥ M *ᵥ x ≤ f x ⬝ᵥ N *ᵥ f x) : positiveIndex M ≤ positiveIndex N := by
  obtain ⟨⟨W, hrank, hpos⟩, -⟩ := positiveIndex_isGreatest M
  have himage : ∀ x ∈ W, x ≠ 0 → 0 < f x ⬝ᵥ N *ᵥ f x := fun x hx hne =>
    (hpos x hx hne).trans_le (h x)
  -- a vector of the subspace that is sent to zero has a form that is not positive
  have hinjective : Function.Injective (f.domRestrict W) := by
    refine (injective_iff_map_eq_zero _).2 fun x hx => ?_
    by_contra hne
    have hlt := himage x x.2 fun hzero => hne (Subtype.ext hzero)
    rw [show f x = 0 from hx, zero_dotProduct] at hlt
    exact lt_irrefl _ hlt
  refine (positiveIndex_isGreatest N).2 ⟨W.map f, ?_, ?_⟩
  · rw [← hrank, ← LinearMap.range_domRestrict]
    exact LinearMap.finrank_range_of_inj hinjective
  · rintro y ⟨x, hx, rfl⟩ hne
    exact himage x hx fun hzero => hne (by rw [hzero, map_zero])

/-- Forms that a change of variables carries into each other have the same index. -/
theorem positiveIndex_congr {M : Matrix ι ι K} {N : Matrix κ κ K} (e : (ι → K) ≃ₗ[K] (κ → K))
    (h : ∀ x, x ⬝ᵥ M *ᵥ x = e x ⬝ᵥ N *ᵥ e x) : positiveIndex M = positiveIndex N := by
  refine Nat.le_antisymm (positiveIndex_le e.toLinearMap fun x => (h x).le)
    (positiveIndex_le e.symm.toLinearMap fun y => ?_)
  exact ((h (e.symm y)).trans (by rw [e.apply_symm_apply])).ge

/-- Renumbering the rows and columns keeps the index. -/
theorem positiveIndex_submatrix (M : Matrix ι ι K) (e : κ ≃ ι) :
    positiveIndex (M.submatrix e e) = positiveIndex M := by
  refine positiveIndex_congr (LinearEquiv.funCongrLeft K K e.symm) fun x => ?_
  rw [Matrix.submatrix_mulVec_equiv, ← comp_equiv_symm_dotProduct]
  rfl

/-- The largest dimension of a subspace on which the form of a matrix is negative definite. -/
noncomputable def negativeIndex (M : Matrix ι ι K) : Nat := positiveIndex (-M)

/-- Renumbering the rows and columns keeps the index. -/
theorem negativeIndex_submatrix (M : Matrix ι ι K) (e : κ ≃ ι) :
    negativeIndex (M.submatrix e e) = negativeIndex M :=
  positiveIndex_submatrix (-M) e

/-! ## 2. Definite matrices -/

/-- The index is full exactly for positive definite forms. -/
theorem positiveIndex_eq_card_iff {M : Matrix ι ι K} :
    positiveIndex M = Fintype.card ι ↔ ∀ x, x ≠ 0 → 0 < x ⬝ᵥ M *ᵥ x := by
  obtain ⟨⟨W, hrank, hpos⟩, hmax⟩ := positiveIndex_isGreatest M
  refine ⟨fun h x => ?_, fun h => ?_⟩
  · have htop : W = ⊤ := Submodule.eq_top_of_finrank_eq (by
      rw [hrank, h, Module.finrank_fintype_fun_eq_card])
    exact hpos x (htop ▸ Submodule.mem_top)
  · refine Nat.le_antisymm ?_ (hmax ⟨⊤, ?_, fun x _ => h x⟩)
    · rw [← hrank, ← Module.finrank_fintype_fun_eq_card K]
      exact W.finrank_le
    · rw [finrank_top, Module.finrank_fintype_fun_eq_card]

/-- A symmetric matrix is positive definite exactly if its positive index is full. -/
theorem positiveDefinite_iff {n : Nat} {M : Matrix (Fin n) (Fin n) K} (hM : M.IsSymm) :
    PositiveDefinite M ↔ positiveIndex M = n := by
  have hiff := positiveIndex_eq_card_iff (M := M)
  rw [Fintype.card_fin] at hiff
  exact ⟨fun h => hiff.2 h.pos, fun h => ⟨hM, hiff.1 h⟩⟩

theorem PositiveDefinite.det_ne_zero {n : Nat} {M : Matrix (Fin n) (Fin n) K}
    (hM : PositiveDefinite M) : M.det ≠ 0 := by
  intro hzero
  obtain ⟨v, hne, hv⟩ := Matrix.exists_mulVec_eq_zero_iff.2 hzero
  exact hM.ne_zero hne (by rw [hv, dotProduct_zero])

/-! ## 3. Products -/

variable [IsStrictOrderedRing K]

theorem negativeIndex_isGreatest (M : Matrix ι ι K) :
    IsGreatest {d | ∃ W : Submodule K (ι → K), Module.finrank K W = d ∧
      ∀ x ∈ W, x ≠ 0 → x ⬝ᵥ M *ᵥ x < 0} (negativeIndex M) := by
  unfold negativeIndex
  simpa only [Matrix.neg_mulVec, dotProduct_neg, Left.neg_pos_iff] using
    positiveIndex_isGreatest (-M)

/-- The index of a diagonal matrix is the number of its positive entries. -/
theorem positiveIndex_diagonal (d : ι → K) :
    positiveIndex (Matrix.diagonal d) = (Finset.univ.filter fun i => 0 < d i).card := by
  have hform : (Matrix.diagonal d).toQuadraticForm' = QuadraticMap.weightedSumSquares K d := by
    ext x
    rw [toQuadraticForm'_eq, QuadraticMap.weightedSumSquares_apply, dotProduct]
    refine Finset.sum_congr rfl fun i _ => ?_
    rw [Matrix.mulVec_diagonal, mul_left_comm, smul_eq_mul]
  rw [positiveIndex, hform, QuadraticForm.sigPos_weightedSumSquares, ← Set.ncard_coe_finset,
    Finset.coe_filter_univ]

/-- **Sylvester's law for `L D Lᵀ`**: if `L` is invertible, the index of the product is the number
    of positive entries of `D`. -/
theorem positiveIndex_mul_diagonal_mul {L : Matrix ι ι K} (hL : IsUnit L.det) (d : ι → K) :
    positiveIndex (L * Matrix.diagonal d * Lᵀ) = (Finset.univ.filter fun i => 0 < d i).card := by
  have hdet : IsUnit Lᵀ.det := by rwa [Matrix.det_transpose]
  rw [← positiveIndex_diagonal]
  refine positiveIndex_congr (Matrix.toLinearEquiv' Lᵀ (Matrix.invertibleOfIsUnitDet Lᵀ hdet))
    fun x => ?_
  show x ⬝ᵥ _ *ᵥ x = (Lᵀ *ᵥ x) ⬝ᵥ Matrix.diagonal d *ᵥ (Lᵀ *ᵥ x)
  rw [← Matrix.mulVec_mulVec, ← Matrix.mulVec_mulVec, Matrix.dotProduct_mulVec,
    ← Matrix.mulVec_transpose]

/-- **The indices of a product `L D Lᵀ` fill the space**, if `L` is invertible and no entry of `D`
    vanishes. -/
theorem positiveIndex_add_negativeIndex {L : Matrix ι ι K} (hL : IsUnit L.det) {d : ι → K}
    (hd : ∀ i, d i ≠ 0) :
    positiveIndex (L * Matrix.diagonal d * Lᵀ) + negativeIndex (L * Matrix.diagonal d * Lᵀ) =
      Fintype.card ι := by
  have hneg : -(L * Matrix.diagonal d * Lᵀ) = L * Matrix.diagonal (fun i => -d i) * Lᵀ := by
    rw [← Matrix.diagonal_neg, Matrix.mul_neg, Matrix.neg_mul]
  have hsign : (Finset.univ.filter fun i => 0 < -d i) = Finset.univ.filter fun i => ¬ 0 < d i :=
    Finset.filter_congr fun i _ => by
      rw [Left.neg_pos_iff, not_lt]
      exact ⟨le_of_lt, fun h => lt_of_le_of_ne h (hd i)⟩
  rw [negativeIndex, hneg, positiveIndex_mul_diagonal_mul hL, positiveIndex_mul_diagonal_mul hL,
    hsign, Finset.card_filter_add_card_filter_not, Finset.card_univ]

end Quasidefinite
