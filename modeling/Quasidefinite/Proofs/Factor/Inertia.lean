import Quasidefinite.Proofs.Factor.Correct
import Quasidefinite.Proofs.Signature

/-!
# Signs of the pivots

A symmetric matrix is quasidefinite under given signs if the quadratic form, with each of its rows
weighed by its sign, is positive (`IsQuasidefinite`). No pivoting is needed for such a matrix: pivot
`k` has the sign of row `k` (`FactorPlan.sign_pivotAt`), for every order of elimination.

The reason is a vector that the pivots before `k` suffice to find: with
`(I + L)ᵀ v = e_k`, restricted to the first `k + 1` rows, the matrix sends `v` to `d k * e_k` as far
as these rows go, and nothing else of `v` differs from zero.

Whatever the matrix, if no pivot vanishes, as many of them are positive as its quadratic form has
positive dimensions (`Factorization.Of.positive_eq`), in every order of elimination
(`Factorization.inertia_of_new`).
-/

namespace Quasidefinite

open scoped Scalar Matrix

variable {K : Type} [Field K] [LinearOrder K] [IsStrictOrderedRing K] [SquareRoot K]

/-- The rows of the quadratic form of `S`, each weighed by its sign, sum to a positive value. -/
def IsQuasidefinite (n : Nat) (S : Nat → Nat → K) (sign : Nat → K) : Prop :=
  ∀ x : Nat → K, (∃ i < n, x i ≠ 0) →
    0 < ∑ i ∈ Finset.range n, sign i * x i * ∑ j ∈ Finset.range n, S i j * x j

/-! ## 1. The vector of a pivot -/

omit [LinearOrder K] [IsStrictOrderedRing K] [SquareRoot K] in
/-- A system with the transpose of a unit lower triangle has a solution. -/
theorem exists_transpose_solution {L : Nat → Nat → K} {n : Nat}
    (hL : ∀ c < n, ∀ r ≤ c, L r c = 0) (b : Nat → K) :
    ∃ x : Nat → K, ∀ c < n, x c + ∑ r ∈ Finset.range n, L r c * x r = b c := by
  -- from the last row up: the rows from `k` on are solved
  suffices h : ∀ d k, k + d = n →
      ∃ x : Nat → K, ∀ c, k ≤ c → c < n → x c + ∑ r ∈ Finset.range n, L r c * x r = b c by
    obtain ⟨x, hx⟩ := h n 0 (Nat.zero_add n)
    exact ⟨x, fun c hc => hx c (Nat.zero_le c) hc⟩
  intro d
  induction d with
  | zero => exact fun k hk => ⟨fun _ => 0, fun c hkc hc => by omega⟩
  | succ d ih =>
    intro k hk
    obtain ⟨x, hx⟩ := ih (k + 1) (by omega)
    refine ⟨Function.update x k (b k - ∑ r ∈ Finset.range n, L r k * x r), fun c hkc hc => ?_⟩
    -- the sum of row `c` does not see entry `k`
    have hsum : ∑ r ∈ Finset.range n, L r c *
        Function.update x k (b k - ∑ r ∈ Finset.range n, L r k * x r) r =
        ∑ r ∈ Finset.range n, L r c * x r := by
      refine Finset.sum_congr rfl fun r _ => ?_
      by_cases hr : r = k
      · rw [hL c hc r (by omega), zero_mul, zero_mul]
      · rw [Function.update_of_ne hr]
    rw [hsum]
    rcases Nat.lt_or_eq_of_le hkc with hlt | rfl
    · rw [Function.update_of_ne (by omega)]
      exact hx c hlt hc
    · rw [Function.update_self, sub_add_cancel]

namespace FactorPlan

variable {plan : FactorPlan K}

omit [IsStrictOrderedRing K] in
/-- The matrix of the plan as far as the pivots before `k` tell it. -/
theorem symmetric_eq_sum (hplan : plan.Proper) (hreg : plan.regularizer = none)
    (hdistinct : plan.matrix.Distinct) {k : Nat} (hk : k < plan.matrix.cols)
    (hpivots : ∀ c < k, plan.pivotAt c ≠ 0) {i j : Nat} (hi : i ≤ k) (hj : j ≤ k) :
    plan.matrix.symmetric i j = ∑ c ∈ Finset.range plan.matrix.cols,
      plan.unitLowerAt i c * plan.pivotAt c * plan.unitLowerAt j c := by
  rcases Nat.le_total i j with hij | hij
  · rw [Sparse.symmetric_of_le _ hij]
    exact (entry_eq hplan hreg hdistinct hij (by omega) fun c hc => hpivots c (by omega)).symm
  · rw [Sparse.symmetric_comm, Sparse.symmetric_of_le _ hij,
      ← entry_eq hplan hreg hdistinct hij (by omega) fun c hc => hpivots c (by omega)]
    exact Finset.sum_congr rfl fun c _ => by ring

omit [IsStrictOrderedRing K] in
/-- A vector, zero after row `k`, with which the rows of the transposed triangle sum to the unit
    vector of `k`. -/
theorem exists_unit_combination (hplan : plan.Proper) {k : Nat} (hk : k < plan.matrix.cols) :
    ∃ v : Nat → K, v k = 1 ∧ (∀ i, k < i → v i = 0) ∧
      ∀ c, ∑ j ∈ Finset.range plan.matrix.cols, plan.unitLowerAt j c * v j =
        if c = k then 1 else 0 := by
  have hlower : ∀ c < k + 1, ∀ r ≤ c, plan.lowerAt r c = 0 := fun c hc r hr =>
    lowerAt_of_le hplan (by omega) hr
  obtain ⟨x, hx⟩ := exists_transpose_solution hlower fun c => if c = k then 1 else 0
  let v : Nat → K := fun i => if i ≤ k then x i else 0
  have hv : ∀ i, k < i → v i = 0 := fun i hi => if_neg (Nat.not_le.2 hi)
  have hsub : Finset.range (k + 1) ⊆ Finset.range plan.matrix.cols := fun r hr =>
    Finset.mem_range.2 (by have := Finset.mem_range.1 hr; omega)
  refine ⟨v, ?_, hv, fun c => ?_⟩
  · have hlast := hx k (Nat.lt_succ_self k)
    rw [Finset.sum_eq_zero fun r hr => by
      rw [hlower k (Nat.lt_succ_self k) r (Nat.lt_succ_iff.1 (Finset.mem_range.1 hr)), zero_mul],
      add_zero, if_pos rfl] at hlast
    exact (if_pos (Nat.le_refl k)).trans hlast
  · rw [← Finset.sum_subset hsub fun j _ hj => by
      rw [hv j (by simpa using hj), mul_zero]]
    have hterm : ∀ j ∈ Finset.range (k + 1), plan.unitLowerAt j c * v j =
        (if j = c then x j else 0) + plan.lowerAt j c * x j := by
      intro j hj
      have hj : j ≤ k := Nat.lt_succ_iff.1 (Finset.mem_range.1 hj)
      show _ * (if j ≤ k then x j else 0) = _
      rw [if_pos hj, unitLowerAt, add_mul, ite_mul, one_mul, zero_mul]
    rw [Finset.sum_congr rfl hterm, Finset.sum_add_distrib, Finset.sum_ite_eq']
    by_cases hc : c ≤ k
    · rw [if_pos (Finset.mem_range.2 (Nat.lt_succ_of_le hc))]
      exact hx c (Nat.lt_succ_of_le hc)
    · rw [if_neg (by simpa using hc), if_neg (by omega), zero_add]
      refine Finset.sum_eq_zero fun j hj => ?_
      have hj : j ≤ k := Nat.lt_succ_iff.1 (Finset.mem_range.1 hj)
      rw [lowerAt_of_le hplan (by omega) (by omega), zero_mul]

omit [IsStrictOrderedRing K] in
/-- **The vector of pivot `k`.** -/
theorem exists_pivot_vector (hplan : plan.Proper) (hreg : plan.regularizer = none)
    (hdistinct : plan.matrix.Distinct) {k : Nat} (hk : k < plan.matrix.cols)
    (hpivots : ∀ c < k, plan.pivotAt c ≠ 0) :
    ∃ v : Nat → K, v k = 1 ∧ (∀ i, k < i → v i = 0) ∧
      ∀ i ≤ k, ∑ j ∈ Finset.range plan.matrix.cols, plan.matrix.symmetric i j * v j =
        if i = k then plan.pivotAt k else 0 := by
  obtain ⟨v, hone, hv, hunit⟩ := exists_unit_combination hplan hk
  refine ⟨v, hone, hv, fun i hi => ?_⟩
  calc ∑ j ∈ Finset.range plan.matrix.cols, plan.matrix.symmetric i j * v j
      = ∑ j ∈ Finset.range plan.matrix.cols, (∑ c ∈ Finset.range plan.matrix.cols,
          plan.unitLowerAt i c * plan.pivotAt c * plan.unitLowerAt j c) * v j := by
        refine Finset.sum_congr rfl fun j _ => ?_
        by_cases hj : j ≤ k
        · rw [symmetric_eq_sum hplan hreg hdistinct hk hpivots hi hj]
        · rw [hv j (Nat.lt_of_not_le hj), mul_zero, mul_zero]
    _ = ∑ c ∈ Finset.range plan.matrix.cols, plan.unitLowerAt i c * plan.pivotAt c *
          ∑ j ∈ Finset.range plan.matrix.cols, plan.unitLowerAt j c * v j := by
        simp only [Finset.sum_mul, Finset.mul_sum, mul_assoc]
        exact Finset.sum_comm
    _ = plan.unitLowerAt i k * plan.pivotAt k := by
        simp only [hunit, mul_ite, mul_one, mul_zero, Finset.sum_ite_eq', Finset.mem_range, hk,
          if_true]
    _ = if i = k then plan.pivotAt k else 0 := by
        unfold unitLowerAt
        rw [lowerAt_of_le hplan (by omega) hi, add_zero, ite_mul, one_mul, zero_mul]

/-! ## 2. The signs -/

/-- **Every pivot of a quasidefinite matrix has the sign of its row.** -/
theorem sign_pivotAt (hplan : plan.Proper) (hreg : plan.regularizer = none)
    (hdistinct : plan.matrix.Distinct) {sign : Nat → K}
    (hquasi : IsQuasidefinite plan.matrix.cols plan.matrix.symmetric sign) {k : Nat}
    (hk : k < plan.matrix.cols) : 0 < sign k * plan.pivotAt k := by
  induction k using Nat.strongRecOn with
  | ind k ih =>
    have hpivots : ∀ c < k, plan.pivotAt c ≠ 0 := by
      intro c hc hzero
      have := ih c hc (by omega)
      rw [hzero, mul_zero] at this
      exact lt_irrefl _ this
    obtain ⟨v, hone, hzero, hrow⟩ := exists_pivot_vector hplan hreg hdistinct hk hpivots
    have hpos := hquasi v ⟨k, hk, by rw [hone]; exact one_ne_zero⟩
    rw [Finset.sum_eq_single k] at hpos
    · rwa [hone, mul_one, hrow k (Nat.le_refl k), if_pos rfl] at hpos
    · intro i _ hik
      rcases Nat.lt_or_gt_of_ne hik with hlt | hlt
      · rw [hrow i (Nat.le_of_lt hlt), if_neg hik, mul_zero]
      · rw [hzero i hlt, mul_zero, zero_mul]
    · intro hnot
      exact absurd (Finset.mem_range.2 hk) hnot

end FactorPlan

/-! ## 3. Factorizations -/

/-- A sum over all positions is the sum in any order. -/
theorem Permutation.IsInverse.sum_perm {M : Type} [AddCommMonoid M] {perm label : Array Nat}
    (h : Permutation.IsInverse perm label) (f : Nat → M) :
    ∑ k ∈ Finset.range perm.size, f (perm.getD k 0) = ∑ i ∈ Finset.range perm.size, f i := by
  refine Finset.sum_bij (fun k _ => perm.getD k 0)
    (fun k hk => Finset.mem_range.2 (h.lt k (Finset.mem_range.1 hk)))
    (fun k hk l hl => h.perm_inj (Finset.mem_range.1 hk) (Finset.mem_range.1 hl)) ?_
    fun k _ => rfl
  intro i hi
  have hi := Finset.mem_range.1 hi
  exact ⟨label.getD i 0, Finset.mem_range.2 (h.label_lt i hi), h.perm_label i hi⟩

/-- As many positions have a property in one order as in any other. -/
theorem Permutation.IsInverse.count_perm {perm label : Array Nat}
    (h : Permutation.IsInverse perm label) (p : Nat → Prop) [DecidablePred p] :
    Nat.count (fun k => p (perm.getD k 0)) perm.size = Nat.count p perm.size := by
  rw [Nat.count_eq_card_filter_range, Nat.count_eq_card_filter_range, Finset.card_filter,
    Finset.card_filter]
  exact h.sum_perm fun i => if p i then 1 else 0

theorem count_eq_of_iff {p q : Nat → Prop} [DecidablePred p] [DecidablePred q] {n : Nat}
    (h : ∀ k < n, p k ↔ q k) : Nat.count p n = Nat.count q n :=
  Nat.le_antisymm (Nat.count_mono_left fun k hk => (h k hk).1)
    (Nat.count_mono_left fun k hk => (h k hk).2)

omit [IsStrictOrderedRing K] [SquareRoot K] in
/-- Renumbering the rows and columns keeps a matrix quasidefinite. -/
theorem IsQuasidefinite.perm {S T : Nat → Nat → K} {sign : Nat → K} {perm label : Array Nat}
    (hquasi : IsQuasidefinite perm.size S sign) (h : Permutation.IsInverse perm label)
    (hT : ∀ i < perm.size, ∀ j < perm.size, T i j = S (perm.getD i 0) (perm.getD j 0)) :
    IsQuasidefinite perm.size T fun k => sign (perm.getD k 0) := by
  rintro x ⟨k, hk, hx⟩
  have hpos := hquasi (fun i => x (label.getD i 0)) ⟨perm.getD k 0, h.lt k hk, by
    rwa [h.label_perm k hk]⟩
  rw [← h.sum_perm] at hpos
  refine hpos.trans_eq (Finset.sum_congr rfl fun i hi => ?_)
  have hi := Finset.mem_range.1 hi
  rw [h.label_perm i hi, ← h.sum_perm]
  congr 1
  refine Finset.sum_congr rfl fun j hj => ?_
  have hj := Finset.mem_range.1 hj
  rw [h.label_perm j hj, hT i hi j hj]

/-- **The sweep over a quasidefinite matrix succeeds** in every order, and the positive pivots are
    as many as the positive signs. -/
theorem Factorization.Of.quasidefinite {A : Sparse K} {opts : FactorOptions K}
    {F : Factorization K} (h : Of A opts F) (hdistinct : A.Distinct)
    (hreg : opts.regularize = false) {sign : Nat → K}
    (hquasi : IsQuasidefinite A.cols A.symmetric sign) :
    outcome F.plan = .ok () ∧
      (F.Holds → F.factors.positive = Nat.count (fun i => 0 < sign i) A.cols) := by
  obtain ⟨label, hinverse, -, -⟩ := h.planOf.exists_labels
  have hn := h.planOf.cols_eq
  have hsize := h.planOf.size_perm
  -- the relabelled matrix is quasidefinite under the reordered signs
  have hquasi' : IsQuasidefinite F.plan.matrix.cols F.plan.matrix.symmetric
      fun k => sign (F.perm.getD k 0) := by
    rw [hn, ← hsize]
    rw [← hsize] at hquasi
    refine hquasi.perm hinverse fun i hi j hj => ?_
    exact h.planOf.symmetric_eq (hi.trans_eq hsize) (hj.trans_eq hsize)
  have hsign : ∀ k < A.cols, 0 < sign (F.perm.getD k 0) * F.plan.pivotAt k := fun k hk =>
    FactorPlan.sign_pivotAt h.planOf.proper (h.planOf.regularizer_eq_none hreg)
      (h.planOf.distinct hdistinct) hquasi' (hk.trans_eq hn.symm)
  have hnone : F.plan.firstBad = none := by
    refine List.find?_eq_none.2 fun k hk => ?_
    have hk : k < A.cols := (List.mem_range.1 hk).trans_eq hn
    have husable : F.plan.usable k = true := usable_iff.2 fun hzero => by
      have hpos := hsign k hk
      rw [hzero, mul_zero] at hpos
      exact lt_irrefl _ hpos
    simp [husable]
  refine ⟨by rw [outcome, hnone], fun hholds => ?_⟩
  rw [(hholds hnone).positive_eq, hn,
    count_eq_of_iff fun k hk => (pos_iff_pos_of_mul_pos (hsign k hk)).symm, ← hsize]
  exact hinverse.count_perm fun i => 0 < sign i

/-! ## 4. Any symmetric matrix -/

namespace Factorization

omit [IsStrictOrderedRing K] in
/-- A matrix with correct factors is invertible. -/
theorem Correct.det_ne_zero {A : Sparse K} {F : Factorization K} (h : Correct A F) :
    (A.symmetricMatrix A.cols).det ≠ 0 := by
  intro hzero
  obtain ⟨v, hne, hv⟩ := Matrix.exists_mulVec_eq_zero_iff.2 hzero
  obtain ⟨x, -, -, -, hunique⟩ := h.solve_eq (Array.replicate A.cols 0) (by simp)
  have hright : vector A.cols (Array.replicate A.cols (0 : K)) = 0 := by
    funext i
    simp [vector]
  rw [hright] at hunique
  exact hne ((hunique v hv).trans (hunique 0 (Matrix.mulVec_zero _)).symm)

omit [IsStrictOrderedRing K] in
theorem Correct.isUnit_det {A : Sparse K} {F : Factorization K} (h : Correct A F) :
    IsUnit (1 + F.factors.lower.matrix A.cols A.cols).det := by
  have hone := h.strictLower.det_one_add
  rw [h.cols_eq] at hone
  exact hone ▸ isUnit_one

/-- **The positive pivots are counted right**: they are as many as the largest subspace on which
    the form of the matrix is positive definite has dimensions. -/
theorem Of.positive_eq {A : Sparse K} {opts : FactorOptions K} {F : Factorization K}
    (h : Of A opts F) (hdistinct : A.Distinct) (hreg : opts.regularize = false)
    (houtcome : outcome F.plan = .ok ()) (hholds : F.Holds) :
    F.factors.positive = positiveIndex (A.symmetricMatrix A.cols) := by
  have hcorrect := h.correct hdistinct hreg houtcome hholds
  have hfactors := hholds (pivotAt_ne_zero houtcome).1
  have hn := h.planOf.cols_eq
  obtain ⟨σ, -, hproduct⟩ := hcorrect.product_eq
  rw [← positiveIndex_submatrix _ σ, ← hproduct,
    positiveIndex_mul_diagonal_mul hcorrect.isUnit_det, hfactors.positive_eq, hn,
    Nat.count_eq_card_filter_range, Finset.card_filter, Finset.card_filter, Finset.sum_range]
  refine Finset.sum_congr rfl fun k _ => ?_
  rw [vector, hfactors.pivot_eq k (k.isLt.trans_eq hn.symm)]

/-- The form of a matrix with correct factors is definite, one way or the other, in every
    direction. -/
theorem Correct.positiveIndex_add_negativeIndex {A : Sparse K} {F : Factorization K}
    (h : Correct A F) :
    positiveIndex (A.symmetricMatrix A.cols) + negativeIndex (A.symmetricMatrix A.cols) =
      A.cols := by
  obtain ⟨σ, -, hproduct⟩ := h.product_eq
  have hpivot : ∀ k : Fin A.cols, vector A.cols F.factors.pivot k ≠ 0 := fun k =>
    h.pivot_ne k k.isLt
  rw [← positiveIndex_submatrix _ σ, ← negativeIndex_submatrix _ σ, ← hproduct,
    Quasidefinite.positiveIndex_add_negativeIndex h.isUnit_det hpivot, Fintype.card_fin]

/-- Every factorization that is constructed counts the dimensions of the form of its matrix. -/
theorem indices_of_new {ordering : FillOrdering} {A : Sparse K} {opts : FactorOptions K}
    {F : Factorization K} (hformat : A.checkFormat.run = .ok (.ok ()))
    (hreg : opts.regularize = false) (hnew : (new ordering A opts).run = .ok (.ok F)) :
    F.factors.positive = positiveIndex (A.symmetricMatrix A.cols) ∧
      A.cols - F.factors.positive = negativeIndex (A.symmetricMatrix A.cols) := by
  have hA := Sparse.wellFormed_of_checkFormat hformat
  -- an order longer than the matrix is cut to it, which leaves the factors alone
  obtain ⟨hof, houtcome, hholds⟩ := trimmed_of_new hA.toShaped hnew
  have hpositive : F.factors.positive = positiveIndex (A.symmetricMatrix A.cols) :=
    hof.positive_eq hA.distinct hreg houtcome hholds
  have hsum :=
    (hof.correct hA.distinct hreg houtcome hholds).positiveIndex_add_negativeIndex
  exact ⟨hpositive, by omega⟩

/-- **The count of positive pivots does not depend on the order** of elimination: it is the largest
    dimension of a subspace on which the form of the matrix is positive definite, and what is left
    of the columns is that for negative definite. -/
theorem inertia_of_new {ordering₁ ordering₂ : FillOrdering} {A : Sparse K}
    (hformat : A.checkFormat.run = .ok (.ok ())) {opts₁ opts₂ : FactorOptions K}
    (hreg₁ : opts₁.regularize = false) (hreg₂ : opts₂.regularize = false)
    {F G : Factorization K} (hF : (new ordering₁ A opts₁).run = .ok (.ok F))
    (hG : (new ordering₂ A opts₂).run = .ok (.ok G)) :
    F.factors.positive = G.factors.positive ∧
    IsGreatest {d | ∃ W : Submodule K (Fin A.cols → K), Module.finrank K W = d ∧
      ∀ x ∈ W, x ≠ 0 → 0 < x ⬝ᵥ A.symmetricMatrix A.cols *ᵥ x} F.factors.positive ∧
    IsGreatest {d | ∃ W : Submodule K (Fin A.cols → K), Module.finrank K W = d ∧
      ∀ x ∈ W, x ≠ 0 → x ⬝ᵥ A.symmetricMatrix A.cols *ᵥ x < 0}
        (A.cols - F.factors.positive) := by
  obtain ⟨hpositive, hnegative⟩ := indices_of_new hformat hreg₁ hF
  obtain ⟨hpositive', -⟩ := indices_of_new hformat hreg₂ hG
  refine ⟨hpositive.trans hpositive'.symm, ?_, ?_⟩
  · rw [hpositive]
    exact positiveIndex_isGreatest _
  · rw [hnegative]
    exact negativeIndex_isGreatest _

/-- Two orders of one matrix, whose pivots differ. -/
theorem inertia_of_new_sample : ∃ F G,
    (new .minimumDegree sample { FactorOptions.standard with perm := some #[0, 1, 2] }).run =
      .ok (.ok F) ∧
    (new .minimumDegree sample { FactorOptions.standard with perm := some #[2, 0, 1] }).run =
      .ok (.ok G) ∧ F.factors.pivot ≠ G.factors.pivot ∧
    F.factors.positive = G.factors.positive := by
  have hanswer : (new .minimumDegree sample
      { FactorOptions.standard with perm := some #[0, 1, 2] }).answer?.map (·.factors.pivot) =
        some #[2, -1/2, 19] := by decide +kernel
  have hanswer' : (new .minimumDegree sample
      { FactorOptions.standard with perm := some #[2, 0, 1] }).answer?.map (·.factors.pivot) =
        some #[1, 2, -19/2] := by decide +kernel
  obtain ⟨F, hF, hpivot⟩ := Option.map_eq_some_iff.1 hanswer
  obtain ⟨G, hG, hpivot'⟩ := Option.map_eq_some_iff.1 hanswer'
  have hnew := Attempt.run_of_answer? hF
  have hnew' := Attempt.run_of_answer? hG
  refine ⟨F, G, hnew, hnew', ?_,
    (inertia_of_new (A := sample) (by decide +kernel) rfl rfl hnew hnew').1⟩
  rw [hpivot, hpivot']
  decide +kernel

end Factorization

end Quasidefinite
