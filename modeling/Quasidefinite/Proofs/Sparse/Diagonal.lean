import Quasidefinite.Proofs.Sparse.Product

/-!
# Diagonals and sums of squares

The program for the diagonal adds up what is stored at the diagonal positions, and the one for the
weighted squares of the columns never forms a product of matrices. In exact arithmetic they find the
diagonals of the matrix (`Shaped.exists_vector_diagonal`) and, if no row is listed twice in a
column, of `Aᵀ diag(w) A` (`Shaped.exists_vector_columnWeightedSquares`).
-/

namespace Quasidefinite

namespace Sparse

open scoped Scalar Matrix

variable {K : Type} [Field K] [LinearOrder K] [SquareRoot K] {A : Sparse K}

/-! ## 1. The diagonal -/

/-- What the first `n` positions add to diagonal entry `j`. -/
def diagonalSum (A : Sparse K) (n j : Nat) : K :=
  ∑ p ∈ Finset.range n, if A.row p = j ∧ A.colOf p = j then A.val p else 0

theorem diagonalSum_succ (A : Sparse K) (n j : Nat) : A.diagonalSum (n + 1) j =
    A.diagonalSum n j + if A.row n = j ∧ A.colOf n = j then A.val n else 0 :=
  Finset.sum_range_succ _ n

/-- **The diagonal is that of the matrix**, whatever was held before. -/
theorem Shaped.exists_vector_diagonal (hA : A.Shaped) (hsquare : A.rows = A.cols) {diag : Array K}
    (hdiag : diag.size = A.cols) : ∃ z, A.diagonal diag = .ok z ∧ z.size = A.cols ∧
      vector A.cols z = (A.matrix A.cols A.cols).diag := by
  unfold diagonal
  rw [Checked.require_of _ _ hsquare, Checked.ok_bind, Checked.require_of _ _ hdiag,
    Checked.ok_bind]
  obtain ⟨z, hz, hsize, hsum⟩ := hA.exists_foldColumns
    (fun n (z : Array K) => z.size = A.cols ∧ ∀ j, z.getD j 0 = A.diagonalSum n j)
    (fun col diag p row =>
      if row = col then do
        let v ← Checked.entry A.value p
        Checked.adjust diag col (· + v)
      else pure diag)
    (Vec.fill diag 0)
    ⟨(Vec.size_fill _ _).trans hdiag, fun j => by
      by_cases hj : j < diag.size <;> simp [Vec.fill, Array.getD, diagonalSum, hj]⟩ (by
      intro col p z hcol hp hinv
      obtain ⟨hsize, hsum⟩ := hinv
      have hcolOf : A.colOf p = col := hA.colOf_eq hcol hp
      by_cases hrow : A.row p = col
      · have hlt : col < z.size := hsize.symm ▸ hcol
        rw [if_pos hrow, hA.entry_value (hA.lt_size_of_mem hcol hp), Checked.ok_bind,
          Checked.adjust_eq _ _ _ 0 hlt]
        refine ⟨_, rfl, (Array.size_set _).trans hsize, fun j => ?_⟩
        rw [getD_set, diagonalSum_succ]
        by_cases hj : j = col
        · subst hj
          rw [if_pos rfl, if_pos ⟨hrow, hcolOf⟩, hsum]
        · rw [if_neg hj, if_neg fun hboth => hj (hboth.2.symm.trans hcolOf), add_zero, hsum]
      · rw [if_neg hrow]
        refine ⟨z, rfl, hsize, fun j => ?_⟩
        have hnot : ¬ (A.row p = j ∧ A.colOf p = j) := fun hboth =>
          hrow (hboth.1.trans (hboth.2.symm.trans hcolOf))
        rw [diagonalSum_succ, if_neg hnot, add_zero, hsum])
  refine ⟨z, hz, hsize, funext fun j => (hsum j).trans ?_⟩
  rw [Matrix.diag_apply, matrix_apply, hA.dense_eq_sum j.isLt]
  rfl

/-! ## 2. Weighted sums of squares -/

/-- In a column that lists no row twice, the factors of a square are entries of the matrix. -/
theorem Shaped.weightedSquares_eq (hA : A.Shaped) (hdistinct : A.Distinct) {w : Array K}
    (hw : w.size = A.rows) {j : Nat} (hj : j < A.cols) :
    A.weightedSquares w j =
      .ok (∑ i ∈ Finset.range A.rows, A.dense i j * (w.getD i 0 * A.dense i j)) := by
  rw [← hA.sum_column hj fun i => w.getD i 0 * A.dense i j,
    ← dotEntries_eq _ fun i => w.getD i 0 * A.dense i j]
  unfold weightedSquares
  rw [hA.column_eq hj, Checked.ok_bind]
  refine (Checked.foldlM_eq_ok (fun _ => True) _
    (fun sum (e : Nat × K) => sum + e.2 * (w.getD e.1 0 * A.dense e.1 j)) (A.entries j) 0 trivial
    fun s e he _ => ⟨?_, trivial⟩).1
  have hentry : A.dense e.1 j = e.2 :=
    coeff_of_mem ((map_fst_entries A j).symm ▸ hdistinct j hj) he
  show (do
    let wr ← Checked.entry w e.1
    pure (s + wr * e.2 * e.2)) = _
  rw [Checked.entry_eq _ _ 0 (hw ▸ hA.fst_lt_of_mem_entries hj e he), Checked.ok_bind, hentry,
    mul_comm e.2]
  rfl

omit [LinearOrder K] [SquareRoot K] in
theorem diag_weighted {m n : Nat} (M : Matrix (Fin m) (Fin n) K) (w : Fin m → K) (j : Fin n) :
    (Mᵀ * Matrix.diagonal w * M).diag j = ∑ i, M i j * (w i * M i j) := by
  rw [Matrix.diag_apply, Matrix.mul_apply]
  refine Finset.sum_congr rfl fun i _ => ?_
  rw [Matrix.mul_diagonal, Matrix.transpose_apply, mul_assoc]

/-- **The weighted sums of squares are the diagonal of `Aᵀ diag(w) A`** if no row is listed twice
    in a column. -/
theorem Shaped.exists_vector_columnWeightedSquares (hA : A.Shaped) (hdistinct : A.Distinct)
    {out w : Array K} (hout : out.size = A.cols) (hw : w.size = A.rows) :
    ∃ z, A.columnWeightedSquares out w = .ok z ∧ z.size = A.cols ∧ vector A.cols z =
      ((A.matrix A.rows A.cols)ᵀ * Matrix.diagonal (vector A.rows w) *
        A.matrix A.rows A.cols).diag := by
  unfold columnWeightedSquares
  rw [Checked.require_of _ _ hout, Checked.ok_bind, Checked.require_of _ _ hw, Checked.ok_bind]
  obtain ⟨z, hz, hsize, hsum⟩ := Checked.exists_foldRange
    (fun n (z : Array K) => z.size = A.cols ∧ ∀ j < n, z.getD j 0 =
      ∑ i ∈ Finset.range A.rows, A.dense i j * (w.getD i 0 * A.dense i j))
    (fun (out : Array K) j => do
      let s ← A.weightedSquares w j
      Checked.store out j s)
    0 A.cols out (Nat.zero_le _) ⟨hout, fun j hj => absurd hj (Nat.not_lt_zero j)⟩ (by
      intro col z _ hcol hinv
      obtain ⟨hsize, hsum⟩ := hinv
      rw [hA.weightedSquares_eq hdistinct hw hcol, Checked.ok_bind,
        Checked.store_of_lt _ _ _ (hsize.symm ▸ hcol)]
      refine ⟨_, rfl, (Array.size_set _).trans hsize, fun j hj => ?_⟩
      rw [getD_set]
      by_cases hjcol : j = col
      · rw [if_pos hjcol, hjcol]
      · rw [if_neg hjcol]
        exact hsum j (Nat.lt_of_le_of_ne (Nat.le_of_lt_succ hj) hjcol))
  refine ⟨z, hz, hsize, funext fun j => (hsum j j.isLt).trans ?_⟩
  rw [diag_weighted, Finset.sum_range]
  rfl

end Sparse

end Quasidefinite
