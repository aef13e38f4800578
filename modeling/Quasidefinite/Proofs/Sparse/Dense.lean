import Mathlib.Algebra.BigOperators.Ring.Finset
import Mathlib.Algebra.Order.BigOperators.Group.Finset
import Mathlib.LinearAlgebra.Matrix.Defs
import Mathlib.Tactic.Ring
import Quasidefinite.Proofs.Exact
import Quasidefinite.Proofs.Sparse.Format
import Quasidefinite.Proofs.Sparse.Slots

/-!
# Dense reading of a sparse matrix

In exact arithmetic a sparse matrix stands for a dense one: entry `(i, j)` is the sum of what
column `j` stores in row `i` (`Sparse.dense`). A matrix can also be read as the upper triangle of a
symmetric one (`Sparse.symmetric`). Entries, sums over a column and sums over all positions are
the three forms in which the dense reading is used; `Sparse.matrix` and `Sparse.symmetricMatrix` are
the two readings as matrices.
-/

namespace Quasidefinite

open scoped Scalar

/-! ## 1. Lists of entries -/

section Coeff

variable {M : Type} [AddCommMonoid M]

/-- The sum of the values that a list of entries has in row `i`. -/
def coeff (entries : List (Nat × M)) (i : Nat) : M :=
  (entries.map fun e => if e.1 = i then e.2 else 0).sum

@[simp] theorem coeff_nil (i : Nat) : coeff ([] : List (Nat × M)) i = 0 := rfl

@[simp] theorem coeff_cons (e : Nat × M) (entries : List (Nat × M)) (i : Nat) :
    coeff (e :: entries) i = (if e.1 = i then e.2 else 0) + coeff entries i := by
  simp [coeff]

@[simp] theorem coeff_append (xs ys : List (Nat × M)) (i : Nat) :
    coeff (xs ++ ys) i = coeff xs i + coeff ys i := by
  simp [coeff]

theorem coeff_of_not_mem {entries : List (Nat × M)} {i : Nat} (h : i ∉ entries.map Prod.fst) :
    coeff entries i = 0 := by
  induction entries with
  | nil => rfl
  | cons e es ih =>
    rw [List.map_cons, List.mem_cons, not_or] at h
    rw [coeff_cons, if_neg (Ne.symm h.1), ih h.2, add_zero]

theorem coeff_of_mem {entries : List (Nat × M)} (hnodup : (entries.map Prod.fst).Nodup)
    {e : Nat × M} (he : e ∈ entries) : coeff entries e.1 = e.2 := by
  induction entries with
  | nil => exact absurd he List.not_mem_nil
  | cons e' entries ih =>
    rw [List.map_cons, List.nodup_cons] at hnodup
    rw [coeff_cons]
    rcases List.mem_cons.1 he with rfl | hmem
    · rw [if_pos rfl, coeff_of_not_mem hnodup.1, add_zero]
    · have hne : e'.1 ≠ e.1 := fun heq => hnodup.1 (heq.symm ▸ List.mem_map_of_mem hmem)
      rw [if_neg hne, zero_add, ih hnodup.2 hmem]

end Coeff

/-- A weighted sum over a list of entries is the weighted sum over all rows. -/
theorem sum_map_mul_eq_sum_coeff {R : Type} [NonUnitalNonAssocSemiring R]
    {entries : List (Nat × R)} {m : Nat} (h : ∀ e ∈ entries, e.1 < m) (x : Nat → R) :
    (entries.map fun e => e.2 * x e.1).sum = ∑ i ∈ Finset.range m, coeff entries i * x i := by
  induction entries with
  | nil => simp
  | cons e es ih =>
    have hterm : ∑ i ∈ Finset.range m, (if e.1 = i then e.2 else 0) * x i = e.2 * x e.1 := by
      rw [Finset.sum_eq_single e.1]
      · rw [if_pos rfl]
      · intro i _ hi
        rw [if_neg (Ne.symm hi), zero_mul]
      · intro he
        exact absurd (Finset.mem_range.2 (h e List.mem_cons_self)) he
    simp only [List.map_cons, List.sum_cons, coeff_cons, add_mul, Finset.sum_add_distrib]
    rw [hterm, ih fun e' he' => h e' (List.mem_cons_of_mem e he')]

theorem subtractEntries_eq {K : Type} [Field K] [LinearOrder K] [SquareRoot K] (y : K)
    (entries : List (Nat × K)) (x : Nat → K) (i : Nat) :
    subtractEntries y entries x i = x i - coeff entries i * y := by
  induction entries generalizing x with
  | nil => simp [subtractEntries]
  | cons e es ih =>
    have := ih (Function.update x e.1 (x e.1 - e.2 * y))
    unfold subtractEntries
    rw [List.foldl_cons]
    refine Eq.trans this ?_
    rw [coeff_cons, Function.update_apply]
    by_cases hi : e.1 = i
    · rw [if_pos hi.symm, if_pos hi, hi]
      ring
    · rw [if_neg (Ne.symm hi), if_neg hi]
      ring

/-! ## 2. Dense and symmetric reading -/

namespace Sparse

variable {K : Type} [Field K] [LinearOrder K] [SquareRoot K]

/-- Entry `(i, j)` of the matrix. -/
def dense (A : Sparse K) (i j : Nat) : K := coeff (A.entries j) i

/-- Entry `(i, j)` of the symmetric matrix whose upper triangle is that of `A`. -/
def symmetric (A : Sparse K) (i j : Nat) : K := A.dense (min i j) (max i j)

/-- Entry `(i, j)` of that matrix with its rows and columns in the order `perm`. -/
def symmetricIn (A : Sparse K) (perm : Array Nat) (i j : Nat) : K :=
  A.symmetric (perm.getD i 0) (perm.getD j 0)

theorem symmetric_comm (A : Sparse K) (i j : Nat) : A.symmetric i j = A.symmetric j i := by
  rw [symmetric, symmetric, min_comm, max_comm]

theorem symmetric_of_le (A : Sparse K) {i j : Nat} (h : i ≤ j) :
    A.symmetric i j = A.dense i j := by
  unfold symmetric
  rw [min_eq_left h, max_eq_right h]

theorem dense_eq_sum_positions (A : Sparse K) (i j : Nat) :
    A.dense i j = ((A.positions j).map fun p => if A.row p = i then A.val p else 0).sum := by
  simp [dense, coeff, entries, Function.comp_def]

/-- Where no position of the column lies in the row, nothing is stored. -/
theorem dense_eq_zero_of_forall_ne {A : Sparse K} {i j : Nat}
    (h : ∀ p ∈ A.positions j, A.row p ≠ i) : A.dense i j = 0 := by
  refine coeff_of_not_mem fun hi => ?_
  rw [map_fst_entries] at hi
  obtain ⟨p, hp, rfl⟩ := List.mem_map.1 hi
  exact h p hp rfl

/-- Nothing is stored below the diagonal of an upper triangle. -/
theorem Upper.dense_eq_zero {A : Sparse K} (h : A.Upper) {i j : Nat} (hj : j < A.cols)
    (hij : j < i) : A.dense i j = 0 := by
  refine dense_eq_zero_of_forall_ne fun p hp => ?_
  have := h j hj p hp
  omega

/-- Nothing is stored on or above the diagonal of a strict lower triangle. -/
theorem StrictLower.dense_eq_zero {A : Sparse K} (h : A.StrictLower) {i j : Nat} (hj : j < A.cols)
    (hij : i ≤ j) : A.dense i j = 0 := by
  refine dense_eq_zero_of_forall_ne fun p hp => ?_
  have := h j hj p hp
  omega

namespace Shaped

variable {A : Sparse K} (h : A.Shaped)

include h

/-- An entry of the matrix as a sum over all positions. -/
theorem dense_eq_sum {i j : Nat} (hj : j < A.cols) :
    A.dense i j = ∑ p ∈ Finset.range A.rowIndex.size,
      if A.row p = i ∧ A.colOf p = j then A.val p else 0 := by
  have hnodup : (A.positions j).Nodup := List.nodup_range'
  rw [dense_eq_sum_positions, ← List.sum_toFinset _ hnodup]
  have hsub : (A.positions j).toFinset ⊆ Finset.range A.rowIndex.size := fun p hp =>
    Finset.mem_range.2 (h.lt_size_of_mem hj (List.mem_toFinset.1 hp))
  rw [← Finset.sum_subset hsub]
  · refine Finset.sum_congr rfl fun p hp => ?_
    have hcol := h.colOf_eq hj (List.mem_toFinset.1 hp)
    simp [hcol]
  · intro p hp hnot
    refine if_neg fun hand => hnot (List.mem_toFinset.2 ?_)
    exact (h.mem_positions_iff hj).2 ⟨Finset.mem_range.1 hp, hand.2⟩

/-- A weighted sum over a column is the weighted sum over all rows. -/
theorem sum_column {j : Nat} (hj : j < A.cols) (x : Nat → K) :
    ((A.entries j).map fun e => e.2 * x e.1).sum =
      ∑ i ∈ Finset.range A.rows, A.dense i j * x i := by
  refine sum_map_mul_eq_sum_coeff (fun e he => ?_) x
  obtain ⟨p, hp, rfl⟩ := List.mem_map.1 he
  exact h.row_lt p (h.lt_size_of_mem hj hp)

end Shaped

/-! ## 3. Matrices -/

/-- The dense matrix that is stored. -/
def matrix (A : Sparse K) (m n : Nat) : Matrix (Fin m) (Fin n) K := .of fun i j => A.dense i j

/-- The symmetric matrix whose upper triangle is stored. -/
def symmetricMatrix (A : Sparse K) (n : Nat) : Matrix (Fin n) (Fin n) K :=
  .of fun i j => A.symmetric i j

@[simp] theorem matrix_apply (A : Sparse K) (m n : Nat) (i : Fin m) (j : Fin n) :
    A.matrix m n i j = A.dense i j := rfl

@[simp] theorem symmetricMatrix_apply (A : Sparse K) (n : Nat) (i j : Fin n) :
    A.symmetricMatrix n i j = A.symmetric i j := rfl

end Sparse

end Quasidefinite
