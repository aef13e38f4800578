import Quasidefinite.Proofs.Factor.Course
import Quasidefinite.Proofs.Factor.Inertia
import Quasidefinite.Proofs.Factor.Refactoring

/-!
# Regularized pivots

A pivot that is too small, or of the wrong sign, is replaced while the sweep goes on, and every row
after it is solved with the replacement. In exact arithmetic no later row undoes this: whatever the
matrix, every pivot ends with the sign that is expected of it and away from zero, so the sweep
cannot fail, and the factors are those of the matrix with something added to the diagonal, in the
rows alone whose pivots were replaced (`Factorization.Regularized`).

A construction with regularization therefore answers for every triangle, every order and all signs,
and so does every refactorization after it (`Factorization.exists_new_regularized`).
-/

namespace Quasidefinite

open scoped Scalar Matrix

variable {K : Type} [Field K] [LinearOrder K] [SquareRoot K]

/-! ## 1. One pivot -/

/-- The sign expected of the pivot at position `k` of the order. -/
def FactorOptions.expectedSign (opts : FactorOptions K) (perm : Array Nat) (k : Nat) : K :=
  if opts.signAt perm k < 0 then -1 else 1

omit [SquareRoot K] in
theorem FactorOptions.expectedSign_pos_iff [IsStrictOrderedRing K] (opts : FactorOptions K)
    (perm : Array Nat) (k : Nat) :
    0 < opts.expectedSign perm k ↔ opts.expectedSign perm k = 1 := by
  unfold expectedSign
  split
  · have hneg : (-1 : K) < 0 := neg_one_lt_zero
    exact iff_of_false hneg.not_gt (hneg.trans one_pos).ne
  · exact iff_of_true one_pos rfl

namespace Sweep

variable {r : Regularizer K} {s d : K} {sign : Int}

/-- A pivot that is large enough is left alone. -/
theorem regularized_of_le (hs : s = if sign < 0 then -1 else 1) (h : r.threshold ≤ s * d) :
    regularized r sign d = d := by
  rw [mul_comm, hs] at h
  exact if_neg (not_lt.2 h)

/-- **A regularized pivot is large enough**, with the sign that is expected. -/
theorem min_le_regularized (hs : s = if sign < 0 then -1 else 1) :
    min r.threshold r.shift ≤ s * regularized r sign d := by
  by_cases h : s * d < r.threshold
  · have hreplaced : regularized r sign d = r.shift * s := by
      rw [mul_comm, hs] at h
      rw [hs]
      exact if_pos h
    have hone : s * s = 1 := by
      rw [hs]
      split <;> ring
    rw [hreplaced, mul_comm r.shift, ← mul_assoc, hone, one_mul]
    exact min_le_right _ _
  · rw [regularized_of_le hs (not_lt.1 h)]
    exact (min_le_left _ _).trans (not_lt.1 h)

end Sweep

/-! ## 2. All pivots -/

namespace Factorization

variable {A : Sparse K} {opts : FactorOptions K}

namespace PlanOf

variable {perm : Array Nat} {plan : FactorPlan K} {place : Array Nat}

theorem expectedSign_eq (h : PlanOf A perm opts plan place) {k : Nat} (hk : k < A.cols) :
    opts.expectedSign perm k = if plan.signs.getD k 0 < 0 then -1 else 1 := by
  rw [FactorOptions.expectedSign, h.getD_signs hk]

theorem pivotAt_eq (h : PlanOf A perm opts plan place) (hreg : opts.regularize = true) (k : Nat) :
    plan.pivotAt k = Sweep.regularized { threshold := opts.threshold, shift := opts.shift }
      (plan.signs.getD k 0) (plan.rawAt k) := by
  refine FactorPlan.pivotAt_of_some ?_ k
  rw [h.regularizer_eq, FactorOptions.regularizer, if_pos hreg]

theorem min_le_pivotAt (h : PlanOf A perm opts plan place) (hreg : opts.regularize = true)
    {k : Nat} (hk : k < A.cols) :
    min opts.threshold opts.shift ≤ opts.expectedSign perm k * plan.pivotAt k := by
  rw [h.pivotAt_eq hreg]
  exact Sweep.min_le_regularized (r := ⟨opts.threshold, opts.shift⟩) (h.expectedSign_eq hk)

theorem shiftAt_eq_zero (h : PlanOf A perm opts plan place) (hreg : opts.regularize = true)
    {k : Nat} (hk : k < A.cols)
    (hle : opts.threshold ≤ opts.expectedSign perm k * plan.rawAt k) : plan.shiftAt k = 0 := by
  rw [FactorPlan.shiftAt, h.pivotAt_eq hreg,
    Sweep.regularized_of_le (h.expectedSign_eq hk) hle, sub_self]

variable (h : PlanOf A perm opts plan place) (hreg : opts.regularize = true)
  (hthreshold : 0 < opts.threshold) (hshift : 0 < opts.shift)

include h hreg hthreshold hshift

/-- Every pivot has the expected sign. -/
theorem expectedSign_mul_pivotAt_pos {k : Nat} (hk : k < A.cols) :
    0 < opts.expectedSign perm k * plan.pivotAt k :=
  (lt_min hthreshold hshift).trans_le (h.min_le_pivotAt hreg hk)

theorem usable_of_regularize {k : Nat} (hk : k < A.cols) : plan.usable k = true := by
  have hne : plan.pivotAt k ≠ 0 := by
    intro hzero
    have hpos := h.expectedSign_mul_pivotAt_pos hreg hthreshold hshift hk
    rw [hzero, mul_zero] at hpos
    exact lt_irrefl _ hpos
  simp [FactorPlan.usable, hne]

/-- **A sweep with regularization meets no bad pivot.** -/
theorem firstBad_of_regularize : plan.firstBad = none := by
  refine List.find?_eq_none.2 fun k hk => ?_
  have hk : k < A.cols := (List.mem_range.1 hk).trans_eq h.cols_eq
  simp [h.usable_of_regularize hreg hthreshold hshift hk]

end PlanOf

/-! ## 3. Factorizations -/

/-- The factors of `F`, found over the factors `old`, multiply to the symmetric matrix whose upper
    triangle is `A` with something added to its diagonal, and every pivot has the sign expected of
    it. Nothing is added where the pivot was large enough when its row was solved. -/
structure Regularized (A : Sparse K) (opts : FactorOptions K) (old : Factors K)
    (F : Factorization K) : Prop where
  cols_eq : F.factors.lower.cols = A.cols
  strictLower : F.factors.lower.StrictLower
  min_pos : 0 < min opts.threshold opts.shift
  min_le : ∀ k < A.cols,
    min opts.threshold opts.shift ≤ opts.expectedSign F.perm k * F.factors.pivot.getD k 0
  positive_eq : F.factors.positive = Nat.count (fun k => opts.expectedSign F.perm k = 1) A.cols
  product_eq : ∃ (σ : Equiv.Perm (Fin A.cols)) (e : Fin A.cols → K),
    (∀ k, (σ k : Nat) = F.perm.getD k 0) ∧
    (1 + F.factors.lower.matrix A.cols A.cols) *
        Matrix.diagonal (vector A.cols F.factors.pivot) *
        (1 + F.factors.lower.matrix A.cols A.cols)ᵀ =
      (A.symmetricMatrix A.cols).submatrix σ σ + Matrix.diagonal e ∧
    ∀ k : Fin A.cols, (∃ s, Sweep.Reached F.plan old (.solving k [], s)) ∧
      ∀ s, Sweep.Reached F.plan old (.solving k [], s) →
        F.factors.pivot.getD k 0 = s.pivot.getD k 0 + e k ∧
        (opts.threshold ≤ opts.expectedSign F.perm k * s.pivot.getD k 0 → e k = 0)

variable [IsStrictOrderedRing K]

/-- **Every sweep with regularization succeeds**, and regularizes. -/
theorem Of.regularized {F : Factorization K} (h : Of A opts F) (hdistinct : A.Distinct)
    (hreg : opts.regularize = true) (hthreshold : 0 < opts.threshold) (hshift : 0 < opts.shift)
    (hholds : F.Holds) {old : Factors K} (hold : F.plan.Fits old) :
    outcome F.plan = .ok () ∧ Regularized A opts old F := by
  have hn := h.planOf.cols_eq
  have hproper := h.planOf.proper
  have hnone := h.planOf.firstBad_of_regularize hreg hthreshold hshift
  have hfactors := hholds hnone
  have houtcome : outcome F.plan = .ok () := by rw [outcome, hnone]
  have hpivot : ∀ k < A.cols, F.factors.pivot.getD k 0 = F.plan.pivotAt k := fun k hk =>
    hfactors.pivot_eq k (hk.trans_eq hn.symm)
  obtain ⟨label, hinverse, -, -⟩ := h.planOf.exists_labels
  have hreached : ∀ k : Fin A.cols, ∃ s, Sweep.Reached F.plan old (.solving k [], s) := fun k =>
    Sweep.exists_reached_solving hproper hold (k.isLt.trans_eq hn.symm) fun i hi =>
      h.planOf.usable_of_regularize hreg hthreshold hshift (hi.trans k.isLt)
  have hshifted : ∀ (k : Fin A.cols) (s : Sweep K), Sweep.Reached F.plan old (.solving k [], s) →
      F.factors.pivot.getD k 0 = s.pivot.getD k 0 + F.plan.shiftAt k ∧
      (opts.threshold ≤ opts.expectedSign F.perm k * s.pivot.getD k 0 →
        F.plan.shiftAt k = 0) := by
    intro k s hs
    rw [hs.pivot_eq hproper hold, hpivot k k.isLt, FactorPlan.shiftAt, add_sub_cancel]
    exact ⟨rfl, h.planOf.shiftAt_eq_zero hreg k.isLt⟩
  refine ⟨houtcome, ?_⟩
  exact
    { cols_eq := hfactors.cols_eq.trans hn
      strictLower := hfactors.strictLower hproper
      min_pos := lt_min hthreshold hshift
      min_le := fun k hk => by
        rw [hpivot k hk]
        exact h.planOf.min_le_pivotAt hreg hk
      positive_eq := by
        rw [hfactors.positive_eq, hn]
        refine count_eq_of_iff fun k hk => ?_
        have hpos := h.planOf.expectedSign_mul_pivotAt_pos hreg hthreshold hshift hk
        rw [← pos_iff_pos_of_mul_pos hpos]
        exact opts.expectedSign_pos_iff F.perm k
      product_eq := ⟨orderOf h.planOf.size_perm hinverse, fun k => F.plan.shiftAt k, fun k => rfl,
        h.shifted_product_eq hdistinct hfactors (pivotAt_ne_zero houtcome).2 hinverse,
        fun k => ⟨hreached k, hshifted k⟩⟩ }

/-- A triangle and the options of a factorization that regularizes. -/
structure Regularizable (A : Sparse K) (opts : FactorOptions K) : Prop where
  format_ok : A.checkFormat.run = .ok (.ok ())
  square : A.rows = A.cols
  upper : A.Upper
  full : FullColumns A
  perm_ok : ∀ perm, opts.perm = some perm →
    perm.size = A.cols ∧ (Permutation.inverse? perm).isSome
  size_signs : ∀ signs, opts.signs = some signs → signs.size = A.cols
  regularize : opts.regularize = true
  threshold_pos : 0 < opts.threshold
  shift_pos : 0 < opts.shift

/-- **Construction with regularization succeeds, and so does every refactorization**, whatever the
    values. -/
theorem exists_new_regularized (ordering : FillOrdering) (h : Regularizable A opts) :
    ∃ F, (new ordering A opts).run = .ok (.ok F) ∧
      (choosePerm ordering A opts).run = .ok (.ok F.perm) ∧ Regularized A opts F.plan.blank F ∧
      ∀ calls : List (Call K), (∀ b, .solve b ∈ calls → b.size = A.cols) →
        ∃ G H, calls.foldlM after F = .ok G ∧ G.refactor = .ok (H, .ok ()) ∧ H.perm = F.perm ∧
          Regularized { A with value := accepted A.value calls } opts G.factors H := by
  have hA := Sparse.wellFormed_of_checkFormat h.format_ok
  have htriangle : A.Triangle := { hA.toShaped with square := h.square, upper := h.upper }
  obtain ⟨perm, hchoose, hsize, hinverse, -⟩ :=
    exists_choosePerm ordering opts htriangle h.perm_ok
  obtain ⟨F, rfl, hof, hholds, hnew⟩ :=
    exists_new htriangle h.full hchoose hsize hinverse h.size_signs
  obtain ⟨houtcome, hregularized⟩ := hof.regularized hA.distinct h.regularize h.threshold_pos
    h.shift_pos hholds (FactorPlan.fits_blank hof.planOf.proper)
  rw [houtcome] at hnew
  refine ⟨F, hnew, hchoose, hregularized, fun calls hcalls => ?_⟩
  obtain ⟨G, hrun, hperm, hG⟩ := ((trimmed_of_size hsize).symm ▸ hof).exists_calls calls hcalls
  rw [trimmed_of_size (hperm ▸ hsize)] at hG
  obtain ⟨factors, hrefactor, hH, hholds⟩ := hG.exists_refactor
  obtain ⟨houtcome, hregularized⟩ := hH.regularized hA.distinct h.regularize h.threshold_pos
    h.shift_pos hholds hG.fits
  have houtcome : outcome G.plan = .ok () := houtcome
  rw [houtcome] at hrefactor
  exact ⟨G, { G with factors }, hrun, hrefactor, hperm, hregularized⟩

end Factorization

end Quasidefinite
