import Quasidefinite.Proofs.Factor.Correct

/-!
# What the triangular solves solve

Every strictly lower triangular matrix `L`, whether it came out of a factorization or not, makes
three solvable systems: with `I + L`, with its transpose, and with `(I + L) diag(d) (I + L)ᵀ` if no
entry of `d` is zero. In exact arithmetic each of the solves answers with the one solution of its
system (`Sparse.triangular_solves`). The rows of a column may stand in any order, and a row may
be stored several times in a column; its values then add up.
-/

namespace Quasidefinite

open scoped Scalar Matrix

variable {K : Type} [Field K] [LinearOrder K] [SquareRoot K]

/-! ## 1. The one solution -/

/-- The array holds the one solution of the equations with matrix `M` and right hand side `b`. -/
structure Solves {n : Nat} (M : Matrix (Fin n) (Fin n) K) (b x : Array K) : Prop where
  size_eq : x.size = n
  mulVec_eq : M *ᵥ vector n x = vector n b
  unique : ∀ y : Array K, y.size = n → M *ᵥ vector n y = vector n b → y = x

omit [LinearOrder K] [SquareRoot K] in
theorem eq_of_vector_eq {n : Nat} {x y : Array K} (hx : x.size = n) (hy : y.size = n)
    (h : vector n x = vector n y) : x = y :=
  ext_getD 0 (hx.trans hy.symm) fun i hi => congrFun h ⟨i, hx ▸ hi⟩

omit [LinearOrder K] [SquareRoot K] in
/-- A solution is the only one if the determinant does not vanish. -/
theorem solves_of_det {n : Nat} {M : Matrix (Fin n) (Fin n) K} {b x : Array K}
    (hdet : M.det ≠ 0) (hsize : x.size = n) (h : M *ᵥ vector n x = vector n b) :
    Solves M b x := by
  have hinjective : Function.Injective M.mulVec :=
    Matrix.mulVec_injective_of_isUnit
      ((Matrix.isUnit_iff_isUnit_det _).2 (isUnit_iff_ne_zero.2 hdet))
  exact
    { size_eq := hsize
      mulVec_eq := h
      unique := fun y hy heq => eq_of_vector_eq hy hsize (hinjective (heq.trans h.symm)) }

namespace Sparse

/-! ## 2. Products with a triangular factor -/

theorem one_add_matrix_mulVec (L : Sparse K) {n : Nat} (x : Nat → K) (r : Fin n) :
    ((1 + L.matrix n n) *ᵥ fun i : Fin n => x i) r =
      ∑ c ∈ Finset.range n, L.unitLower r c * x c := by
  rw [Finset.sum_range, Matrix.mulVec, dotProduct]
  exact Finset.sum_congr rfl fun c _ => by rw [one_add_matrix_apply]

theorem one_add_matrix_transpose_mulVec (L : Sparse K) {n : Nat} (x : Nat → K) (c : Fin n) :
    ((1 + L.matrix n n)ᵀ *ᵥ fun i : Fin n => x i) c =
      ∑ i ∈ Finset.range n, L.unitLower i c * x i := by
  rw [Finset.sum_range, Matrix.mulVec, dotProduct]
  exact Finset.sum_congr rfl fun i _ => by rw [Matrix.transpose_apply, one_add_matrix_apply]

/-! ## 3. The three systems -/

section Systems

variable {L : Sparse K} (hL : L.Shaped) (hsquare : L.rows = L.cols) (hlower : L.StrictLower)
  {b : Array K} (hb : b.size = L.cols)

include hL hsquare hlower hb

/-- **Forward substitution solves the system with `I + L`.** -/
theorem StrictLower.exists_lowerSolve :
    ∃ x, L.lowerSolve b = .ok x ∧ Solves (1 + L.matrix L.cols L.cols) b x := by
  obtain ⟨x, hrun, hsize, heq⟩ := hL.exists_lowerSolve hsquare hb
  refine ⟨x, hrun, solves_of_det ?_ hsize ?_⟩
  · rw [hlower.det_one_add]
    exact one_ne_zero
  · have hx : ∀ i, x.getD i 0 = L.lowerSweep L.cols (fun i => b.getD i 0) i := congrFun heq
    funext r
    refine (L.one_add_matrix_mulVec (fun i => x.getD i 0) r).trans ?_
    simp only [hx]
    rw [sum_unitLower_mul r.isLt, lowerSweep_eq hlower (Nat.le_refl _), sub_add_cancel]
    rfl

/-- **Backward substitution solves the system with the transpose of `I + L`.** -/
theorem StrictLower.exists_upperSolve :
    ∃ x, L.upperSolve b = .ok x ∧ Solves (1 + L.matrix L.cols L.cols)ᵀ b x := by
  obtain ⟨x, hrun, hsize, heq⟩ := hL.exists_upperSolve hsquare hb
  refine ⟨x, hrun, solves_of_det ?_ hsize ?_⟩
  · rw [Matrix.det_transpose, hlower.det_one_add]
    exact one_ne_zero
  · have hx : ∀ i, x.getD i 0 = L.upperSweep L.cols (fun i => b.getD i 0) i := congrFun heq
    funext c
    refine (L.one_add_matrix_transpose_mulVec (fun i => x.getD i 0) c).trans ?_
    have hsweep := upperSweep_eq hL hlower (Nat.le_refl _) (fun i => b.getD i 0) c.isLt
    rw [hsquare] at hsweep
    simp only [hx]
    rw [sum_mul_unitLower c.isLt, hsweep, sub_add_cancel]
    rfl

/-- **The solve with all factors solves the system with their product.** -/
theorem StrictLower.exists_factorSolve {d : Array K} (hd : d.size = L.cols)
    (hne : ∀ i < L.cols, d.getD i 0 ≠ 0) :
    ∃ x, L.factorSolve (Vec.recip d) b = .ok x ∧
      Solves ((1 + L.matrix L.cols L.cols) * Matrix.diagonal (vector L.cols d) *
        (1 + L.matrix L.cols L.cols)ᵀ) b x := by
  have hsizeInv : (Vec.recip d).size = L.cols := by rw [Vec.size_recip, hd]
  obtain ⟨x, hrun, hsize, heq⟩ := hL.exists_factorSolve hsquare hsizeInv hb
  refine ⟨x, hrun, solves_of_det ?_ hsize ?_⟩
  · rw [Matrix.det_mul, Matrix.det_mul, Matrix.det_transpose, hlower.det_one_add,
      Matrix.det_diagonal, one_mul, mul_one]
    exact Finset.prod_ne_zero_iff.2 fun i _ => hne i i.isLt
  · have hinverse : ∀ c < L.cols, d.getD c 0 * (Vec.recip d).getD c 0 = 1 := by
      intro c hc
      have hrecip := congrFun (Vec.vector_recip hd) ⟨c, hc⟩
      exact (congrArg _ hrecip).trans (mul_inv_cancel₀ (hne c hc))
    funext r
    have hsweep := factorSweep_eq hL hsquare hlower (fun c => d.getD c 0)
      (fun c => (Vec.recip d).getD c 0) hinverse (fun i => b.getD i 0) r.isLt
    rw [← heq] at hsweep
    rw [← Matrix.mulVec_mulVec, ← Matrix.mulVec_mulVec]
    refine Eq.trans ?_ hsweep
    rw [← L.one_add_matrix_mulVec]
    congr 1
    funext c
    rw [Matrix.mulVec_diagonal, ← L.one_add_matrix_transpose_mulVec]
    rfl

omit hb in
/-- **The triangular solves invert every unit lower triangular factor.** In exact arithmetic, for
    every square matrix `L` that stores entries below the diagonal alone, in whatever order, for
    every `d` without a zero and every right hand side: the three solves answer with the one
    solution of the system with `I + L`, with its transpose, and with their product around
    `diag(d)`, the last given the reciprocals of `d`. -/
theorem triangular_solves {d : Array K} (hd : d.size = L.cols)
    (hne : ∀ i < L.cols, d.getD i 0 ≠ 0) (hb : b.size = L.cols) :
    (∃ x, L.lowerSolve b = .ok x ∧ Solves (1 + L.matrix L.cols L.cols) b x) ∧
    (∃ x, L.upperSolve b = .ok x ∧ Solves (1 + L.matrix L.cols L.cols)ᵀ b x) ∧
    ∃ x, L.factorSolve (Vec.recip d) b = .ok x ∧
      Solves ((1 + L.matrix L.cols L.cols) * Matrix.diagonal (vector L.cols d) *
        (1 + L.matrix L.cols L.cols)ᵀ) b x :=
  ⟨hlower.exists_lowerSolve hL hsquare hb, hlower.exists_upperSolve hL hsquare hb,
    hlower.exists_factorSolve hL hsquare hb hd hne⟩

end Systems

/-- A strictly lower triangular matrix whose first column stores its rows out of order. -/
def sampleLower : Sparse ℚ where
  rows := 4
  cols := 4
  colStart := #[0, 2, 4, 5, 5]
  rowIndex := #[2, 1, 2, 3, 3]
  value := #[2, 1, 1, 7, -3]

/-- Three right hand sides for which the solution is `[-3, 2, 1, 4]`. -/
theorem triangular_solves_sample :
    Solves (1 + sampleLower.matrix 4 4) #[-3, -1, -3, 15] #[-3, 2, 1, 4] ∧
    Solves (1 + sampleLower.matrix 4 4)ᵀ #[1, 31, -11, 4] #[-3, 2, 1, 4] ∧
    Solves ((1 + sampleLower.matrix 4 4) *
      Matrix.diagonal (vector 4 #[4, -1, -2, 1]) * (1 + sampleLower.matrix 4 4)ᵀ)
      #[4, -27, -1, -279] #[-3, 2, 1, 4] := by
  have hL : sampleLower.Shaped :=
    { size_colStart := by decide
      size_value := by decide
      start_zero := by decide
      start_le_succ := by decide
      start_cols := by decide
      row_lt := by decide }
  have hlower : sampleLower.StrictLower := by
    unfold StrictLower
    decide
  have hne : ∀ i < sampleLower.cols, (#[4, -1, -2, 1] : Array ℚ).getD i 0 ≠ 0 := by
    decide +kernel
  have hrun : sampleLower.lowerSolve #[-3, -1, -3, 15] = .ok #[-3, 2, 1, 4] ∧
      sampleLower.upperSolve #[1, 31, -11, 4] = .ok #[-3, 2, 1, 4] ∧
      sampleLower.factorSolve (Vec.recip #[4, -1, -2, 1]) #[4, -27, -1, -279] =
        .ok #[-3, 2, 1, 4] := by
    decide +kernel
  obtain ⟨⟨x, hx, hsolves⟩, -, -⟩ :=
    triangular_solves hL rfl hlower rfl hne (b := #[-3, -1, -3, 15]) rfl
  obtain ⟨-, ⟨y, hy, hsolves'⟩, -⟩ :=
    triangular_solves hL rfl hlower rfl hne (b := #[1, 31, -11, 4]) rfl
  obtain ⟨-, -, z, hz, hsolves''⟩ :=
    triangular_solves hL rfl hlower rfl hne (b := #[4, -27, -1, -279]) rfl
  obtain rfl := Except.ok.inj (hx.symm.trans hrun.1)
  obtain rfl := Except.ok.inj (hy.symm.trans hrun.2.1)
  obtain rfl := Except.ok.inj (hz.symm.trans hrun.2.2)
  exact ⟨hsolves, hsolves', hsolves''⟩

end Sparse

end Quasidefinite
