import Mathlib.Algebra.Order.BigOperators.Ring.Finset
import Mathlib.Analysis.Real.Sqrt
import Mathlib.LinearAlgebra.Matrix.Symmetric
import Quasidefinite.Proofs.Vec

/-!
# Euclidean norms and definite matrices

The norm that the solvers compute is, in exact arithmetic, the root of the sum of the squares
(`Vec.norm_eq`), as their program for square roots has it. If that program is exact (`ExactRoot`),
as it is for the real numbers, a coercive operator bounds a vector by its image
(`mul_euclidean_le`). What is said of definite matrices asks for no roots (`PositiveDefinite`).
-/

namespace Quasidefinite

open scoped Scalar Matrix

/-! ## 1. Exact square roots -/

/-- The program for square roots answers the nonnegative root of every value that has one. -/
class ExactRoot (K : Type) [Field K] [LinearOrder K] [SquareRoot K] : Prop where
  sqrt_nonneg : ∀ x : K, 0 ≤ x → 0 ≤ SquareRoot.sqrt x
  sqrt_mul_self : ∀ x : K, 0 ≤ x → SquareRoot.sqrt x * SquareRoot.sqrt x = x

noncomputable instance : SquareRoot ℝ := ⟨Real.sqrt⟩

instance : ExactRoot ℝ where
  sqrt_nonneg x _ := Real.sqrt_nonneg x
  sqrt_mul_self _ h := Real.mul_self_sqrt h

/-! ## 2. Norms -/

variable {K : Type} [Field K] [LinearOrder K] [SquareRoot K]

/-- The root of the sum of the squares. -/
def euclidean {ι : Type} [Fintype ι] (v : ι → K) : K := SquareRoot.sqrt (v ⬝ᵥ v)

/-- The norm that is computed. -/
theorem Vec.norm_eq {x : Array K} {n : Nat} (hx : x.size = n) :
    Vec.norm x = euclidean (vector n x) := by
  rw [Vec.norm, Vec.sumSquares_eq hx]
  rfl

theorem Scalar.exact_max (x y : K) : Scalar.max x y = Max.max x y := by
  show (if x < y then y else x) = Max.max x y
  rw [max_def_lt]

omit [LinearOrder K] in
theorem euclidean_comp_equiv {ι κ : Type} [Fintype ι] [Fintype κ] (e : ι ≃ κ) (v : κ → K) :
    euclidean (v ∘ e) = euclidean v := by
  unfold euclidean
  rw [comp_equiv_dotProduct_comp_equiv]

omit [LinearOrder K] in
theorem euclidean_neg {ι : Type} [Fintype ι] (v : ι → K) : euclidean (-v) = euclidean v := by
  unfold euclidean
  rw [neg_dotProduct_neg]

omit [LinearOrder K] in
theorem euclidean_elim_zero {ι κ : Type} [Fintype ι] [Fintype κ] (v : ι → K) :
    euclidean (Sum.elim v (0 : κ → K)) = euclidean v := by
  unfold euclidean
  rw [sumElim_dotProduct_sumElim, zero_dotProduct, add_zero]

section Exact

variable [IsStrictOrderedRing K] [ExactRoot K] {ι : Type} [Fintype ι]

omit [SquareRoot K] [ExactRoot K] in
theorem zero_le_dotProduct_self (v : ι → K) : 0 ≤ v ⬝ᵥ v :=
  Finset.sum_nonneg fun i _ => mul_self_nonneg (v i)

theorem euclidean_nonneg (v : ι → K) : 0 ≤ euclidean v :=
  ExactRoot.sqrt_nonneg _ (zero_le_dotProduct_self v)

theorem euclidean_mul_self (v : ι → K) : euclidean v * euclidean v = v ⬝ᵥ v :=
  ExactRoot.sqrt_mul_self _ (zero_le_dotProduct_self v)

theorem euclidean_zero : euclidean (0 : ι → K) = 0 :=
  mul_self_eq_zero.1 ((euclidean_mul_self 0).trans (dotProduct_zero 0))

/-- **An operator that is coercive along a vector bounds it by its image.** -/
theorem mul_euclidean_le {c : K} (hc : 0 ≤ c) {v w : ι → K} (h : c * (v ⬝ᵥ v) ≤ v ⬝ᵥ w) :
    c * euclidean v ≤ euclidean w := by
  have hv := zero_le_dotProduct_self v
  have hcauchy : (v ⬝ᵥ w) ^ 2 ≤ (v ⬝ᵥ v) * (w ⬝ᵥ w) := by
    have := Finset.sum_mul_sq_le_sq_mul_sq Finset.univ v w
    simpa only [dotProduct, sq] using this
  have hsquare : (c * euclidean v) ^ 2 ≤ euclidean w ^ 2 := by
    rw [mul_pow, sq (euclidean v), sq (euclidean w), euclidean_mul_self, euclidean_mul_self]
    rcases hv.eq_or_lt with hzero | hpos
    · rw [← hzero, mul_zero]
      exact zero_le_dotProduct_self w
    · refine le_of_mul_le_mul_left ?_ hpos
      calc (v ⬝ᵥ v) * (c ^ 2 * (v ⬝ᵥ v)) = (c * (v ⬝ᵥ v)) ^ 2 := by ring
        _ ≤ (v ⬝ᵥ w) ^ 2 := pow_le_pow_left₀ (mul_nonneg hc hv) h 2
        _ ≤ (v ⬝ᵥ v) * (w ⬝ᵥ w) := hcauchy
  exact (sq_le_sq₀ (mul_nonneg hc (euclidean_nonneg v)) (euclidean_nonneg w)).1 hsquare

end Exact

/-! ## 3. Definite matrices -/

/-- A matrix that is symmetric and positive definite. -/
structure PositiveDefinite {n : Nat} (M : Matrix (Fin n) (Fin n) K) : Prop where
  symm : M.IsSymm
  pos : ∀ v, v ≠ 0 → 0 < v ⬝ᵥ M *ᵥ v

namespace PositiveDefinite

variable {n : Nat} {M : Matrix (Fin n) (Fin n) K} (hM : PositiveDefinite M)

include hM

omit [SquareRoot K] in
theorem dotProduct_mulVec_comm (u v : Fin n → K) : u ⬝ᵥ M *ᵥ v = M *ᵥ u ⬝ᵥ v := by
  rw [Matrix.dotProduct_mulVec, ← Matrix.mulVec_transpose, hM.symm.eq]

omit [SquareRoot K] in
theorem ne_zero {v : Fin n → K} (hv : v ≠ 0) : v ⬝ᵥ M *ᵥ v ≠ 0 := (hM.pos v hv).ne'

end PositiveDefinite

omit [SquareRoot K] in
/-- A diagonal matrix with positive entries is positive definite. -/
theorem PositiveDefinite.diagonal [IsStrictOrderedRing K] {n : Nat} {d : Fin n → K}
    (hd : ∀ i, 0 < d i) : PositiveDefinite (Matrix.diagonal d) where
  symm := Matrix.diagonal_transpose d
  pos v hv := by
    obtain ⟨i, hi⟩ := Function.ne_iff.1 hv
    have hterm : ∀ i, v i * (Matrix.diagonal d *ᵥ v) i = d i * (v i * v i) := fun i => by
      rw [Matrix.mulVec_diagonal, mul_left_comm]
    refine Finset.sum_pos' (fun i _ => ?_) ⟨i, Finset.mem_univ i, ?_⟩
    · rw [hterm]
      exact mul_nonneg (hd i).le (mul_self_nonneg (v i))
    · rw [hterm]
      exact mul_pos (hd i) (mul_self_pos.2 hi)

end Quasidefinite
