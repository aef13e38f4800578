import Mathlib.LinearAlgebra.Matrix.Block
import Mathlib.LinearAlgebra.Matrix.NonsingularInverse
import Quasidefinite.Ordering.MinimumDegree
import Quasidefinite.Proofs.Factor.Exact
import Quasidefinite.Proofs.Factor.Factorization
import Quasidefinite.Proofs.Vec

/-!
# Factorizations in exact arithmetic

The factors of a factorization multiply to the symmetric matrix in the order that was chosen, with
what regularization adds to the pivots added to its diagonal
(`Factorization.Of.shifted_product_eq`). Without regularization nothing is added, and the solve
answers with the one solution of the equations of the matrix (`Factorization.Correct`,
`Factorization.correct_of_new`).
-/

namespace Quasidefinite

open scoped Scalar Matrix

variable {K : Type} [Field K] [LinearOrder K] [SquareRoot K]

/-! ## 1. Triangular factors as matrices -/

namespace Sparse

theorem one_add_matrix_apply (L : Sparse K) {n : Nat} (i c : Fin n) :
    (1 + L.matrix n n) i c = L.unitLower i c := by
  simp [unitLower, Matrix.one_apply, Fin.ext_iff]

/-- Entries of a product with a diagonal matrix in the middle. -/
theorem mul_diagonal_mul_apply (L : Sparse K) {n : Nat} (d : Nat → K) (i j : Fin n) :
    ((1 + L.matrix n n) * Matrix.diagonal (fun c : Fin n => d c) * (1 + L.matrix n n)ᵀ :
      Matrix (Fin n) (Fin n) K) i j =
      ∑ c ∈ Finset.range n, L.unitLower i c * d c * L.unitLower j c := by
  rw [Matrix.mul_apply, Finset.sum_range]
  refine Finset.sum_congr rfl fun c _ => ?_
  rw [Matrix.mul_diagonal, Matrix.transpose_apply, one_add_matrix_apply, one_add_matrix_apply]

/-- A triangular factor with its unit diagonal has determinant one. -/
theorem StrictLower.det_one_add {L : Sparse K} (hL : L.StrictLower) :
    (1 + L.matrix L.cols L.cols).det = 1 := by
  rw [Matrix.det_of_isLowerTriangular]
  · refine Finset.prod_eq_one fun c _ => ?_
    rw [one_add_matrix_apply, unitLower, if_pos rfl, hL.dense_eq_zero c.isLt (Nat.le_refl _),
      add_zero]
  · intro i c hic
    have hlt : (i : Nat) < c := by simpa using hic
    rw [one_add_matrix_apply, unitLower, if_neg (Nat.ne_of_lt hlt),
      hL.dense_eq_zero c.isLt (Nat.le_of_lt hlt), add_zero]

end Sparse

/-! ## 2. The factors of a plan -/

namespace FactorPlan

variable {plan : FactorPlan K} {F : Factors K}

/-- The entries of the factor lie below the diagonal. -/
theorem FactorsOf.strictLower (h : plan.FactorsOf F) (hplan : plan.Proper) :
    F.lower.StrictLower := by
  intro c hc p hp
  rw [h.cols_eq] at hc
  have hmem : (F.lower.row p, F.lower.val p) ∈ F.lower.entries c := List.mem_map_of_mem hp
  rw [h.entries_eq c hc] at hmem
  exact ((Sweep.View.sound_after hplan (Nat.le_refl _)).above c _ hmem).1

theorem FactorsOf.unitLower_eq (h : plan.FactorsOf F) (hplan : plan.Proper) {i c : Nat}
    (hi : i < plan.matrix.cols) (hc : c < plan.matrix.cols) :
    F.lower.unitLower i c = plan.unitLowerAt i c := by
  unfold Sparse.unitLower unitLowerAt Sparse.dense
  rw [h.entries_eq c hc, coeff_column_after hplan hi]

/-- **The factors multiply to the matrix of the plan**, with what regularization adds to the pivots
    added to its diagonal. -/
theorem FactorsOf.sum_eq (h : plan.FactorsOf F) (hplan : plan.Proper)
    (hdistinct : plan.matrix.Distinct)
    (hpivots : ∀ c < plan.matrix.cols, plan.pivotAt c ≠ 0) {i j : Nat}
    (hi : i < plan.matrix.cols) (hj : j < plan.matrix.cols) :
    ∑ c ∈ Finset.range plan.matrix.cols,
      F.lower.unitLower i c * F.pivot.getD c 0 * F.lower.unitLower j c =
        plan.matrix.symmetric i j + if i = j then plan.shiftAt i else 0 := by
  have hterms : ∀ {a b : Nat}, a ≤ b → b < plan.matrix.cols →
      ∑ c ∈ Finset.range plan.matrix.cols,
        F.lower.unitLower a c * F.pivot.getD c 0 * F.lower.unitLower b c =
          plan.matrix.symmetric a b + if a = b then plan.shiftAt b else 0 := by
    intro a b hab hb
    rw [Sparse.symmetric_of_le _ hab, ← shifted_entry_eq hplan hdistinct hab hb
      fun c hc => hpivots c (by omega)]
    refine Finset.sum_congr rfl fun c hc => ?_
    have hc := Finset.mem_range.1 hc
    rw [h.unitLower_eq hplan (by omega) hc, h.unitLower_eq hplan hb hc, h.pivot_eq c hc]
  rcases Nat.le_total i j with hij | hij
  · rw [hterms hij hj]
    by_cases h : i = j <;> simp [h]
  · rw [Sparse.symmetric_comm, if_congr (@eq_comm _ i j) rfl rfl, ← hterms hij hi]
    exact Finset.sum_congr rfl fun c _ => by ring

end FactorPlan

/-! ## 3. The factorization -/

namespace Factorization

/-- The factors of a factorization multiply to the symmetric matrix whose upper triangle is `A`, in
    the order of the factorization, and the solve answers with the one solution. -/
structure Correct (A : Sparse K) (F : Factorization K) : Prop where
  cols_eq : F.factors.lower.cols = A.cols
  strictLower : F.factors.lower.StrictLower
  pivot_ne : ∀ k < A.cols, F.factors.pivot.getD k 0 ≠ 0
  pivotInv_eq : ∀ k < A.cols, F.factors.pivotInv.getD k 0 = 1 / F.factors.pivot.getD k 0
  product_eq : ∃ σ : Equiv.Perm (Fin A.cols), (∀ k, (σ k : Nat) = F.perm.getD k 0) ∧
    (1 + F.factors.lower.matrix A.cols A.cols) *
        Matrix.diagonal (vector A.cols F.factors.pivot) *
        (1 + F.factors.lower.matrix A.cols A.cols)ᵀ =
      (A.symmetricMatrix A.cols).submatrix σ σ
  solve_eq : ∀ b : Array K, b.size = A.cols → ∃ x, F.solve b = .ok x ∧ x.size = A.cols ∧
    A.symmetricMatrix A.cols *ᵥ vector A.cols x = vector A.cols b ∧
    ∀ y, A.symmetricMatrix A.cols *ᵥ y = vector A.cols b → y = vector A.cols x

/-- The order of a factorization as a permutation. -/
def orderOf {n : Nat} {perm label : Array Nat} (hsize : perm.size = n)
    (h : Permutation.IsInverse perm label) : Equiv.Perm (Fin n) where
  toFun k := ⟨perm.getD k 0, (h.lt k (k.isLt.trans_eq hsize.symm)).trans_eq hsize⟩
  invFun j := ⟨label.getD j 0, (h.label_lt j (j.isLt.trans_eq hsize.symm)).trans_eq hsize⟩
  left_inv k := Fin.ext (h.label_perm k (k.isLt.trans_eq hsize.symm))
  right_inv j := Fin.ext (h.perm_label j (j.isLt.trans_eq hsize.symm))

/-- In exact arithmetic a pivot is usable unless it vanishes. -/
theorem usable_iff {plan : FactorPlan K} {k : Nat} :
    plan.usable k = true ↔ plan.pivotAt k ≠ 0 := by
  simp [FactorPlan.usable]

/-- No pivot of a successful sweep vanishes. -/
theorem pivotAt_ne_zero {plan : FactorPlan K} (h : outcome plan = .ok ()) :
    plan.firstBad = none ∧ ∀ c < plan.matrix.cols, plan.pivotAt c ≠ 0 := by
  refine ⟨firstBad_of_outcome h, fun c hc => usable_iff.1 ?_⟩
  simpa using List.find?_eq_none.1 (firstBad_of_outcome h) c (List.mem_range.2 hc)

/-- The relabelled matrix is the given one in the order of the plan. -/
theorem PlanOf.symmetric_eq {A : Sparse K} {perm : Array Nat} {opts : FactorOptions K}
    {plan : FactorPlan K} {place : Array Nat} (h : PlanOf A perm opts plan place) {i j : Nat}
    (hi : i < A.cols) (hj : j < A.cols) : plan.matrix.symmetric i j = A.symmetricIn perm i j := by
  obtain ⟨label, hinverse, hlabels, hrelabel⟩ := h.exists_labels
  rw [← h.size_perm] at hi hj
  have hperm : ∀ k < perm.size, perm.getD k 0 < A.cols := fun k hk =>
    (hinverse.lt k hk).trans_eq h.size_perm
  have heq := hrelabel.symmetric_eq h.triangle.toShaped hlabels h.triangle.upper (hperm i hi)
    (hperm j hj)
  rwa [hinverse.label_perm i hi, hinverse.label_perm j hj] at heq

section Sweep

variable {A : Sparse K} {opts : FactorOptions K} {F : Factorization K} {label : Array Nat}

/-- **The factors multiply to the symmetric matrix**, in the order of the factorization and with
    what regularization adds to the pivots added to its diagonal. -/
theorem Of.shifted_product_eq (h : Of A opts F) (hdistinct : A.Distinct)
    (hfactors : F.plan.FactorsOf F.factors)
    (hpivots : ∀ c < F.plan.matrix.cols, F.plan.pivotAt c ≠ 0)
    (hinverse : Permutation.IsInverse F.perm label) :
    (1 + F.factors.lower.matrix A.cols A.cols) *
        Matrix.diagonal (vector A.cols F.factors.pivot) *
        (1 + F.factors.lower.matrix A.cols A.cols)ᵀ =
      (A.symmetricMatrix A.cols).submatrix (orderOf h.planOf.size_perm hinverse)
        (orderOf h.planOf.size_perm hinverse) +
          Matrix.diagonal fun k : Fin A.cols => F.plan.shiftAt k := by
  have hn := h.planOf.cols_eq
  ext i j
  have hentry := hfactors.sum_eq h.planOf.proper (h.planOf.distinct hdistinct) hpivots
    (i.isLt.trans_eq hn.symm) (j.isLt.trans_eq hn.symm)
  rw [hn, h.planOf.symmetric_eq i.isLt j.isLt] at hentry
  rw [Matrix.add_apply, Matrix.diagonal_apply, if_congr (Fin.ext_iff : i = j ↔ _) rfl rfl]
  refine Eq.trans ?_ hentry
  exact F.factors.lower.mul_diagonal_mul_apply (fun c => F.factors.pivot.getD c 0) i j

/-- Without regularization the factors multiply to the symmetric matrix. -/
theorem Of.product_eq (h : Of A opts F) (hdistinct : A.Distinct) (hreg : opts.regularize = false)
    (hfactors : F.plan.FactorsOf F.factors)
    (hpivots : ∀ c < F.plan.matrix.cols, F.plan.pivotAt c ≠ 0)
    (hinverse : Permutation.IsInverse F.perm label) :
    (1 + F.factors.lower.matrix A.cols A.cols) *
        Matrix.diagonal (vector A.cols F.factors.pivot) *
        (1 + F.factors.lower.matrix A.cols A.cols)ᵀ =
      (A.symmetricMatrix A.cols).submatrix (orderOf h.planOf.size_perm hinverse)
        (orderOf h.planOf.size_perm hinverse) := by
  rw [h.shifted_product_eq hdistinct hfactors hpivots hinverse]
  simp [FactorPlan.shiftAt_of_none (h.planOf.regularizer_eq_none hreg)]

/-- **The solve answers with a solution.** -/
theorem Of.exists_solution (h : Of A opts F) (hstrict : F.factors.lower.StrictLower)
    (hinverse : Permutation.IsInverse F.perm label)
    (hpivots : ∀ k < A.cols, F.factors.pivot.getD k 0 * F.factors.pivotInv.getD k 0 = 1)
    {S : Matrix (Fin A.cols) (Fin A.cols) K}
    (hproduct : (1 + F.factors.lower.matrix A.cols A.cols) *
        Matrix.diagonal (vector A.cols F.factors.pivot) *
        (1 + F.factors.lower.matrix A.cols A.cols)ᵀ =
      S.submatrix (orderOf h.planOf.size_perm hinverse) (orderOf h.planOf.size_perm hinverse))
    {b : Array K} (hb : b.size = A.cols) :
    ∃ x, F.solve b = .ok x ∧ x.size = A.cols ∧ S *ᵥ vector A.cols x = vector A.cols b := by
  obtain ⟨x, hx, hsize, heq⟩ := h.exists_solve hinverse hb
  refine ⟨x, hx, hsize, ?_⟩
  have hcols : F.factors.lower.cols = A.cols := h.fits.cols_eq.trans h.planOf.cols_eq
  have hsquare : F.factors.lower.rows = F.factors.lower.cols :=
    h.fits.rows_eq.trans h.fits.cols_eq.symm
  -- the solution in the order of the factors
  let z : Fin A.cols → K := fun k => F.factors.lower.factorSweep A.cols
    (fun i => F.factors.pivotInv.getD i 0) (ordered A.cols F.perm b) k
  have hxz : vector A.cols x = z ∘ (orderOf h.planOf.size_perm hinverse).symm := by
    funext j
    exact heq j j.isLt
  have hz : S.submatrix (orderOf h.planOf.size_perm hinverse)
      (orderOf h.planOf.size_perm hinverse) *ᵥ z =
        vector A.cols b ∘ orderOf h.planOf.size_perm hinverse := by
    funext r
    have hsweep := Sparse.factorSweep_eq h.fits.shaped hsquare hstrict
      (fun c => F.factors.pivot.getD c 0) (fun c => F.factors.pivotInv.getD c 0)
      (fun c hc => hpivots c (hc.trans_eq hcols)) (ordered A.cols F.perm b)
      (r := r) (r.isLt.trans_eq hcols.symm)
    rw [hcols] at hsweep
    rw [← hproduct, ← Matrix.mulVec_mulVec, ← Matrix.mulVec_mulVec]
    refine Eq.trans ?_ (hsweep.trans (if_pos r.isLt))
    rw [Finset.sum_range, Matrix.mulVec, dotProduct]
    refine Finset.sum_congr rfl fun c _ => ?_
    rw [Sparse.one_add_matrix_apply, Matrix.mulVec_diagonal, Finset.sum_range, Matrix.mulVec,
      dotProduct]
    congr 2
    refine Finset.sum_congr rfl fun j _ => ?_
    rw [Matrix.transpose_apply, Sparse.one_add_matrix_apply]
  rw [Matrix.submatrix_mulVec_equiv, ← hxz] at hz
  exact (orderOf h.planOf.size_perm hinverse).surjective.injective_comp_right hz

end Sweep

/-- **A factorization whose sweep succeeded is correct.** -/
theorem Of.correct {A : Sparse K} {opts : FactorOptions K} {F : Factorization K} (h : Of A opts F)
    (hdistinct : A.Distinct) (hreg : opts.regularize = false) (houtcome : outcome F.plan = .ok ())
    (hholds : F.Holds) : Correct A F := by
  obtain ⟨hnone, hpivots⟩ := pivotAt_ne_zero houtcome
  have hfactors := hholds hnone
  have hn := h.planOf.cols_eq
  have hcols : F.factors.lower.cols = A.cols := hfactors.cols_eq.trans hn
  obtain ⟨label, hinverse, -, -⟩ := h.planOf.exists_labels
  have hpivot : ∀ k < A.cols, F.factors.pivot.getD k 0 ≠ 0 := fun k hk => by
    rw [hfactors.pivot_eq k (hk.trans_eq hn.symm)]
    exact hpivots k (hk.trans_eq hn.symm)
  have hpivotInv : ∀ k < A.cols,
      F.factors.pivotInv.getD k 0 = 1 / F.factors.pivot.getD k 0 := fun k hk => by
    rw [hfactors.pivotInv_eq k (hk.trans_eq hn.symm), hfactors.pivot_eq k (hk.trans_eq hn.symm)]
    rfl
  have hstrict := hfactors.strictLower h.planOf.proper
  have hproduct := h.product_eq hdistinct hreg hfactors hpivots hinverse
  -- the symmetric matrix is invertible, because its factors are
  have hdet : (A.symmetricMatrix A.cols).det ≠ 0 := by
    have hone : (1 + F.factors.lower.matrix A.cols A.cols).det = 1 := by
      have := hstrict.det_one_add
      rwa [hcols] at this
    rw [← Matrix.det_submatrix_equiv_self (orderOf h.planOf.size_perm hinverse), ← hproduct,
      Matrix.det_mul, Matrix.det_mul, Matrix.det_transpose, hone, Matrix.det_diagonal, one_mul,
      mul_one]
    exact Finset.prod_ne_zero_iff.2 fun k _ => hpivot k k.isLt
  have hinjective : Function.Injective (A.symmetricMatrix A.cols).mulVec :=
    Matrix.mulVec_injective_of_isUnit
      ((Matrix.isUnit_iff_isUnit_det _).2 (isUnit_iff_ne_zero.2 hdet))
  refine
    { cols_eq := hcols
      strictLower := hstrict
      pivot_ne := hpivot
      pivotInv_eq := hpivotInv
      product_eq := ⟨orderOf h.planOf.size_perm hinverse, fun k => rfl, hproduct⟩
      solve_eq := fun b hb => ?_ }
  obtain ⟨x, hx, hsize, hsolve⟩ := h.exists_solution hstrict hinverse
    (fun k hk => by rw [hpivotInv k hk, mul_one_div_cancel (hpivot k hk)]) hproduct hb
  exact ⟨x, hx, hsize, hsolve, fun y hy => hinjective (hy.trans hsolve.symm)⟩

/-- **Every factorization that is constructed is correct.** -/
theorem correct_of_new {ordering : FillOrdering} {A : Sparse K} {opts : FactorOptions K}
    {F : Factorization K} (hformat : A.checkFormat.run = .ok (.ok ()))
    (hsize : ∀ perm, opts.perm = some perm → perm.size = A.cols)
    (hreg : opts.regularize = false) (hnew : (new ordering A opts).run = .ok (.ok F)) :
    (choosePerm ordering A opts).run = .ok (.ok F.perm) ∧ Correct A F := by
  have hA := Sparse.wellFormed_of_checkFormat hformat
  obtain ⟨hchoose, hof, houtcome, hholds⟩ := of_new hA.toShaped hsize hnew
  exact ⟨hchoose, hof.correct hA.distinct hreg houtcome hholds⟩

/-- A matrix that stores no diagonal entry in its second column. -/
def sample : Sparse ℚ where
  rows := 3
  cols := 3
  colStart := #[0, 1, 2, 4]
  rowIndex := #[0, 0, 1, 2]
  value := #[2, 1, 3, 1]

/-- The factors in the order that starts with the last row exist and are correct. -/
theorem correct_of_new_sample : ∃ F,
    (new .minimumDegree sample { FactorOptions.standard with perm := some #[2, 0, 1] }).run =
      .ok (.ok F) ∧ F.perm = #[2, 0, 1] ∧ Correct sample F := by
  have hanswer : (new .minimumDegree sample
      { FactorOptions.standard with perm := some #[2, 0, 1] }).answer?.isSome := by
    decide +kernel
  obtain ⟨F, hF⟩ := Option.isSome_iff_exists.1 hanswer
  have hnew := Attempt.run_of_answer? hF
  obtain ⟨hchoose, hcorrect⟩ := correct_of_new (A := sample) (by decide +kernel)
    (fun perm hperm => by rw [← Option.some.inj hperm]; rfl) rfl hnew
  exact ⟨F, hnew, (Except.ok.inj (Except.ok.inj hchoose)).symm, hcorrect⟩

end Factorization

end Quasidefinite
