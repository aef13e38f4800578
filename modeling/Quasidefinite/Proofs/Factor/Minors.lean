import Quasidefinite.Proofs.Factor.Inertia

/-!
# Vanishing pivots and leading minors

The pivots before `k` factor the leading block of order `k` of the matrix, so the leading minor of
that order is their product (`FactorPlan.leadingMinor_eq_prod`). Hence the first pivot that vanishes
belongs to the first leading minor that does (`FactorPlan.firstBad_eq_some_iff`), which decides what
construction comes to (`Factorization.new_decided_by_minors`).
-/

namespace Quasidefinite

open scoped Scalar Matrix

variable {K : Type} [Field K] [LinearOrder K] [SquareRoot K]

/-! ## 1. Leading minors -/

/-- The determinant of the first `k` rows and columns. -/
def leadingMinor (S : Nat → Nat → K) (k : Nat) : K := (Matrix.of fun i j : Fin k => S i j).det

omit [LinearOrder K] [SquareRoot K] in
@[simp] theorem leadingMinor_zero (S : Nat → Nat → K) : leadingMinor S 0 = 1 := Matrix.det_isEmpty

omit [LinearOrder K] [SquareRoot K] in
/-- A leading minor reads its own rows and columns only. -/
theorem leadingMinor_congr {S T : Nat → Nat → K} {k : Nat}
    (h : ∀ i < k, ∀ j < k, S i j = T i j) : leadingMinor S k = leadingMinor T k := by
  unfold leadingMinor
  congr 1
  ext i j
  exact h i i.isLt j j.isLt

/-! ## 2. The minors of a plan -/

namespace FactorPlan

variable {plan : FactorPlan K}

/-- The leading block, as far as the pivots before its last one tell it, is a product of triangular
    matrices. -/
theorem leadingBlock_eq (hplan : plan.Proper) (hreg : plan.regularizer = none)
    (hdistinct : plan.matrix.Distinct) {k : Nat} (hk : k < plan.matrix.cols)
    (hpivots : ∀ c < k, plan.pivotAt c ≠ 0) :
    (Matrix.of fun i j : Fin (k + 1) => plan.matrix.symmetric i j) =
      (Matrix.of fun i c : Fin (k + 1) => plan.unitLowerAt i c) *
        Matrix.diagonal (fun c : Fin (k + 1) => plan.pivotAt c) *
        (Matrix.of fun i c : Fin (k + 1) => plan.unitLowerAt i c)ᵀ := by
  ext i j
  have hi : (i : Nat) ≤ k := Nat.lt_succ_iff.1 i.isLt
  have hj : (j : Nat) ≤ k := Nat.lt_succ_iff.1 j.isLt
  have hsub : Finset.range (k + 1) ⊆ Finset.range plan.matrix.cols := fun c hc =>
    Finset.mem_range.2 (by have := Finset.mem_range.1 hc; omega)
  rw [Matrix.mul_apply, Matrix.of_apply,
    symmetric_eq_sum hplan hreg hdistinct hk hpivots hi hj]
  -- the columns after `k` do not reach the rows of the block
  rw [← Finset.sum_subset hsub fun c _ hc => by
    have hkc : k < c := by simpa using hc
    rw [unitLowerAt, if_neg (by omega), lowerAt_of_le hplan (by omega) (by omega), add_zero,
      zero_mul, zero_mul], Finset.sum_range]
  refine Finset.sum_congr rfl fun c _ => ?_
  rw [Matrix.mul_diagonal, Matrix.transpose_apply, Matrix.of_apply, Matrix.of_apply]

theorem det_unitLowerAt (hplan : plan.Proper) {k : Nat} (hk : k ≤ plan.matrix.cols) :
    (Matrix.of fun i c : Fin k => plan.unitLowerAt i c).det = 1 := by
  rw [Matrix.det_of_isLowerTriangular]
  · refine Finset.prod_eq_one fun c _ => ?_
    have hc := c.isLt
    rw [Matrix.of_apply, unitLowerAt, if_pos rfl, lowerAt_of_le hplan (by omega) (Nat.le_refl _),
      add_zero]
  · intro i c hic
    have hlt : (i : Nat) < c := by simpa using hic
    have hc := c.isLt
    rw [Matrix.of_apply, unitLowerAt, if_neg (Nat.ne_of_lt hlt),
      lowerAt_of_le hplan (by omega) (Nat.le_of_lt hlt), add_zero]

/-- **A leading minor is the product of its pivots**, if none but the last of them vanishes. -/
theorem leadingMinor_eq_prod (hplan : plan.Proper) (hreg : plan.regularizer = none)
    (hdistinct : plan.matrix.Distinct) {k : Nat} (hk : k ≤ plan.matrix.cols)
    (hpivots : ∀ c, c + 1 < k → plan.pivotAt c ≠ 0) :
    leadingMinor plan.matrix.symmetric k = ∏ c ∈ Finset.range k, plan.pivotAt c := by
  cases k with
  | zero => rw [leadingMinor_zero, Finset.prod_range_zero]
  | succ k =>
    rw [leadingMinor, leadingBlock_eq hplan hreg hdistinct hk fun c hc => hpivots c (by omega),
      Matrix.det_mul, Matrix.det_mul, Matrix.det_transpose, det_unitLowerAt hplan hk,
      Matrix.det_diagonal, one_mul, mul_one, Finset.prod_range]

/-- The pivots before `k` do not vanish exactly if the leading minors up to order `k` do not. -/
theorem pivots_ne_zero_iff (hplan : plan.Proper) (hreg : plan.regularizer = none)
    (hdistinct : plan.matrix.Distinct) {k : Nat} (hk : k ≤ plan.matrix.cols) :
    (∀ c < k, plan.pivotAt c ≠ 0) ↔ ∀ j ≤ k, leadingMinor plan.matrix.symmetric j ≠ 0 := by
  constructor
  · intro h j hj
    rw [leadingMinor_eq_prod hplan hreg hdistinct (hj.trans hk) fun c hc => h c (by omega)]
    exact Finset.prod_ne_zero_iff.2 fun c hc => h c (by have := Finset.mem_range.1 hc; omega)
  · intro h c
    induction c using Nat.strongRecOn with
    | ind c ih =>
      intro hc hzero
      refine h (c + 1) hc ?_
      rw [leadingMinor_eq_prod hplan hreg hdistinct (by omega) fun d hd =>
        ih d (by omega) (by omega), Finset.prod_range_succ, hzero, mul_zero]

/-- A pivot is the quotient of two leading minors. -/
theorem pivotAt_eq_div (hplan : plan.Proper) (hreg : plan.regularizer = none)
    (hdistinct : plan.matrix.Distinct) {k : Nat} (hk : k < plan.matrix.cols)
    (hpivots : ∀ c < k, plan.pivotAt c ≠ 0) :
    plan.pivotAt k =
      leadingMinor plan.matrix.symmetric (k + 1) / leadingMinor plan.matrix.symmetric k := by
  rw [leadingMinor_eq_prod hplan hreg hdistinct hk fun c hc => hpivots c (by omega),
    leadingMinor_eq_prod hplan hreg hdistinct (Nat.le_of_lt hk) fun c hc => hpivots c (by omega),
    Finset.prod_range_succ, mul_div_cancel_left₀]
  exact Finset.prod_ne_zero_iff.2 fun c hc => hpivots c (Finset.mem_range.1 hc)

/-! ## 3. The first pivot that vanishes -/

/-- No pivot vanishes exactly if no leading minor does. -/
theorem firstBad_eq_none_iff (hplan : plan.Proper) (hreg : plan.regularizer = none)
    (hdistinct : plan.matrix.Distinct) :
    plan.firstBad = none ↔
      ∀ j ≤ plan.matrix.cols, leadingMinor plan.matrix.symmetric j ≠ 0 := by
  rw [← pivots_ne_zero_iff hplan hreg hdistinct (Nat.le_refl _), firstBad,
    List.find?_range_eq_none]
  simp [Factorization.usable_iff]

/-- **The first pivot that vanishes belongs to the first leading minor that does.** -/
theorem firstBad_eq_some_iff (hplan : plan.Proper) (hreg : plan.regularizer = none)
    (hdistinct : plan.matrix.Distinct) {k : Nat} :
    plan.firstBad = some k ↔ k < plan.matrix.cols ∧
      leadingMinor plan.matrix.symmetric (k + 1) = 0 ∧
        ∀ j ≤ k, leadingMinor plan.matrix.symmetric j ≠ 0 := by
  have hfind : plan.firstBad = some k ↔ k < plan.matrix.cols ∧ plan.pivotAt k = 0 ∧
      ∀ c < k, plan.pivotAt c ≠ 0 := by
    rw [firstBad, List.find?_range_eq_some]
    simp [usable, and_left_comm]
  rw [hfind]
  refine and_congr_right fun hk => ?_
  rw [← pivots_ne_zero_iff hplan hreg hdistinct (Nat.le_of_lt hk)]
  refine and_congr_left fun hpivots => ?_
  rw [leadingMinor_eq_prod hplan hreg hdistinct hk fun c hc => hpivots c (by omega),
    Finset.prod_range_succ, mul_eq_zero, or_iff_right]
  exact Finset.prod_ne_zero_iff.2 fun c hc => hpivots c (Finset.mem_range.1 hc)

end FactorPlan

/-! ## 4. Construction -/

namespace Factorization

/-- The leading minors of the plan are those of the matrix in the order of elimination. -/
theorem PlanOf.leadingMinor_eq {A : Sparse K} {perm : Array Nat} {opts : FactorOptions K}
    {plan : FactorPlan K} {place : Array Nat} (h : PlanOf A perm opts plan place) {k : Nat}
    (hk : k ≤ A.cols) :
    leadingMinor plan.matrix.symmetric k = leadingMinor (A.symmetricIn perm) k :=
  leadingMinor_congr fun _ hi _ hj => h.symmetric_eq (hi.trans_le hk) (hj.trans_le hk)

/-- **Without regularization construction fails at the first leading minor that vanishes**, of the
    symmetric matrix in the order of elimination, and succeeds if there is none. Then the pivots are
    the quotients of successive leading minors. -/
theorem new_decided_by_minors {ordering : FillOrdering} {A : Sparse K} {opts : FactorOptions K}
    (hformat : A.checkFormat.run = .ok (.ok ())) (hsquare : A.rows = A.cols) (hupper : A.Upper)
    (hfull : FullColumns A) (hreg : opts.regularize = false)
    (hsigns : ∀ s, opts.signs = some s → s.size = A.cols) {perm : Array Nat}
    (hopts : opts.perm = some perm) (hperm : perm.toList.Perm (List.range A.cols)) :
    (∀ k, (new ordering A opts).run = .ok (.error (.zeroPivot k)) ↔ k < A.cols ∧
      leadingMinor (A.symmetricIn perm) (k + 1) = 0 ∧
        ∀ j ≤ k, leadingMinor (A.symmetricIn perm) j ≠ 0) ∧
    ((∃ F, (new ordering A opts).run = .ok (.ok F)) ↔
      ∀ j ≤ A.cols, leadingMinor (A.symmetricIn perm) j ≠ 0) ∧
    ∀ F, (new ordering A opts).run = .ok (.ok F) → ∀ k < A.cols, F.factors.pivot.getD k 0 =
      leadingMinor (A.symmetricIn perm) (k + 1) / leadingMinor (A.symmetricIn perm) k := by
  have hA := Sparse.wellFormed_of_checkFormat hformat
  have hsize : perm.size = A.cols := by simpa using hperm.length_eq
  have hinverse : (Permutation.inverse? perm).isSome :=
    Permutation.isSome_inverse?_iff.2 (by rwa [hsize])
  have hchoose : (choosePerm ordering A opts).run = .ok (.ok perm) := by
    rw [choosePerm, hopts]
    rfl
  obtain ⟨F, rfl, hof, hholds, hrun⟩ := exists_new
    { hA.toShaped with square := hsquare, upper := hupper } hfull hchoose hsize hinverse hsigns
  have hproper := hof.planOf.proper
  have hnone := hof.planOf.regularizer_eq_none hreg
  have hdistinct := hof.planOf.distinct hA.distinct
  have hn := hof.planOf.cols_eq
  have hminor := fun j hj => hof.planOf.leadingMinor_eq (k := j) hj
  simp only [hrun, Except.ok.injEq, map_outcome_eq_error_iff, map_outcome_eq_ok_iff,
    exists_and_left, exists_eq', and_true]
  refine ⟨fun k => ?_, ?_, ?_⟩
  · rw [FactorPlan.firstBad_eq_some_iff hproper hnone hdistinct, hn]
    refine and_congr_right fun hk => ?_
    rw [hminor _ hk]
    refine and_congr_right fun _ => forall₂_congr fun j hj => ?_
    rw [hminor j (by omega)]
  · rw [FactorPlan.firstBad_eq_none_iff hproper hnone hdistinct, hn]
    exact forall₂_congr fun j hj => by rw [hminor j hj]
  · rintro G ⟨hgood, rfl⟩ k hk
    have hpivots := (FactorPlan.firstBad_eq_none_iff hproper hnone hdistinct).1 hgood
    rw [← FactorPlan.pivots_ne_zero_iff hproper hnone hdistinct (Nat.le_refl _), hn] at hpivots
    rw [(hholds hgood).pivot_eq k (hk.trans_eq hn.symm),
      FactorPlan.pivotAt_eq_div hproper hnone hdistinct (hk.trans_eq hn.symm) fun c hc =>
        hpivots c (hc.trans hk), hminor _ hk, hminor k (Nat.le_of_lt hk)]

/-- In the order that starts with its second row, whose diagonal entry is zero, the matrix has no
    factors. -/
theorem new_decided_by_minors_sample :
    (new .minimumDegree sample { FactorOptions.standard with perm := some #[1, 0, 2] }).run =
      .ok (.error (.zeroPivot 0)) := by
  have hformat : sample.checkFormat.run = .ok (.ok ()) := by decide +kernel
  have hupper : sample.Upper := by decide +kernel
  have hfull : FullColumns sample := by decide +kernel
  let opts : FactorOptions ℚ := { FactorOptions.standard with perm := some #[1, 0, 2] }
  have hsigns : ∀ s, opts.signs = some s → s.size = sample.cols := fun s hs => nomatch hs
  have hopts : opts.perm = some #[1, 0, 2] := rfl
  have hminor : leadingMinor (sample.symmetricIn #[1, 0, 2]) 1 = 0 := by
    rw [leadingMinor, Matrix.det_unique]
    decide +kernel
  obtain ⟨hfails, -, -⟩ := new_decided_by_minors hformat rfl hupper hfull rfl hsigns hopts
    (by decide)
  refine (hfails 0).2 ⟨by decide, hminor, fun j hj => ?_⟩
  rw [Nat.le_zero.1 hj, leadingMinor_zero]
  exact one_ne_zero

end Factorization

end Quasidefinite
