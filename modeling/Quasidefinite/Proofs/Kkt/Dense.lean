import Mathlib.Data.Matrix.Block
import Quasidefinite.Proofs.Kkt.Assembly
import Quasidefinite.Proofs.Factor.Correct

/-!
# The assembled matrix as a dense one

In exact arithmetic the symmetric matrix whose upper triangle is assembled is, block by block, the
matrix of the system

    [ ρₓ I + P   Aᵀ         ]
    [ A          -diag(ρ_y) ]

(`Kkt.system`), with its rows and columns numbered through (`Assembled.submatrix_eq`). So a vector
solves one of them if and only if it solves the other (`Assembled.solves_iff`).
-/

namespace Quasidefinite

open scoped Scalar Matrix

variable {K : Type} [Field K] [LinearOrder K] [SquareRoot K]

/-! ## 1. Quadratic terms -/

namespace Sparse

/-- The two forms in which a symmetric matrix is stored: as its upper triangle, or in full. -/
inductive Stores {n : Nat} (P : Sparse K) (S : Matrix (Fin n) (Fin n) K) : Prop
  | triangle (hupper : P.Upper) (h : P.symmetricMatrix n = S)
  | full (hsymm : S.IsSymm) (h : P.matrix n n = S)

/-- In either form the upper triangle decides the matrix. -/
theorem Stores.symmetricMatrix_eq {n : Nat} {P : Sparse K} {S : Matrix (Fin n) (Fin n) K}
    (h : P.Stores S) : P.symmetricMatrix n = S := by
  cases h with
  | triangle _ h => exact h
  | full hsymm h =>
    subst h
    ext i j
    rcases Nat.le_total i j with hij | hji
    · rw [symmetricMatrix_apply, symmetric_of_le P hij, matrix_apply]
    · rw [symmetricMatrix_apply, symmetric_comm, symmetric_of_le P hji]
      exact hsymm.apply i j

theorem Stores.isSymm {n : Nat} {P : Sparse K} {S : Matrix (Fin n) (Fin n) K} (h : P.Stores S) :
    S.IsSymm := by
  rw [← h.symmetricMatrix_eq]
  exact Matrix.IsSymm.ext fun i j => P.symmetric_comm j i

theorem Stores.upper_or_symmetric {n : Nat} {P : Sparse K} {S : Matrix (Fin n) (Fin n) K}
    (h : P.Stores S) (hcols : P.cols = n) :
    P.Upper ∨ ∀ i < P.cols, ∀ j < P.cols, P.dense i j = P.dense j i := by
  cases h with
  | triangle hupper _ => exact .inl hupper
  | full hsymm h =>
    subst h
    exact .inr fun i hi j hj => hsymm.apply ⟨j, hcols ▸ hj⟩ ⟨i, hcols ▸ hi⟩

theorem Stores.of_symm {n : Nat} {P : Sparse K}
    (h : ∀ i j : Fin n, P.dense j i = P.dense i j) : P.Stores (P.matrix n n) :=
  .full (Matrix.IsSymm.ext h) rfl

/-- The entries of a matrix on and above its diagonal are those of its upper triangle. -/
theorem symmetric_upperPart (P : Sparse K) {i j : Nat} (hi : i < P.cols) (hj : j < P.cols) :
    P.upperPart.symmetric i j = P.symmetric i j := by
  have hmax : max i j < P.cols := max_lt hi hj
  rw [symmetric, symmetric, dense, dense, entries_upperPart P hmax, upperEntries, coeff, coeff]
  generalize P.entries (max i j) = entries
  induction entries with
  | nil => rfl
  | cons e entries ih =>
    rw [List.filter_cons, List.map_cons, List.sum_cons, ← ih]
    by_cases he : e.1 ≤ max i j
    · rw [if_pos (by exact decide_eq_true he), List.map_cons, List.sum_cons]
    · have hne : e.1 ≠ min i j := by omega
      rw [if_neg (by simpa using he), if_neg hne, zero_add]

theorem symmetricMatrix_upperPart {n : Nat} {P : Sparse K} (hcols : P.cols = n) :
    P.upperPart.symmetricMatrix n = P.symmetricMatrix n := by
  ext i j
  exact P.symmetric_upperPart (i.isLt.trans_eq hcols.symm) (j.isLt.trans_eq hcols.symm)

/-- The upper triangle of a matrix that stores a symmetric one stores it too. -/
theorem Stores.upperPart {n : Nat} {P : Sparse K} {S : Matrix (Fin n) (Fin n) K} (h : P.Stores S)
    (hcols : P.cols = n) : P.upperPart.Stores S :=
  .triangle P.upper_upperPart ((symmetricMatrix_upperPart hcols).trans h.symmetricMatrix_eq)

end Sparse

namespace Kkt

/-! ## 2. The system -/

/-- The matrix of the system. -/
def system (A : Sparse K) (S : Matrix (Fin A.cols) (Fin A.cols) K) (primal : K)
    (dual : Array K) : Matrix (Fin A.cols ⊕ Fin A.rows) (Fin A.cols ⊕ Fin A.rows) K :=
  Matrix.fromBlocks (primal • (1 : Matrix (Fin A.cols) (Fin A.cols) K) + S)
    (A.matrix A.rows A.cols)ᵀ (A.matrix A.rows A.cols) (-Matrix.diagonal (vector A.rows dual))

/-- A vector of the length of the system, in two blocks. -/
def blocks (A : Sparse K) (z : Array K) : Fin A.cols ⊕ Fin A.rows → K :=
  Sum.elim (fun j => z.getD j 0) fun i => z.getD (A.cols + i) 0

/-- The unknowns in two blocks, numbered through. -/
def number {m n size : Nat} (h : n + m = size) : Fin n ⊕ Fin m ≃ Fin size :=
  finSumFinEquiv.trans (finCongr h)

section Number

variable {m n size : Nat} (h : n + m = size)

@[simp] theorem number_inl (j : Fin n) : (number h (.inl j) : Nat) = j := rfl

@[simp] theorem number_inr (i : Fin m) : (number h (.inr i) : Nat) = n + i := rfl

end Number

omit [LinearOrder K] [SquareRoot K] in
theorem blocks_eq (A : Sparse K) {size : Nat} (h : A.cols + A.rows = size) (z : Array K) :
    blocks A z = vector size z ∘ number h := by
  funext i
  cases i <;> rfl

/-! ## 3. The assembled matrix -/

theorem column_regularizedTriplets (P A : Sparse K) (f : K → K) (d : Nat → K) (j : Nat) :
    Triplet.column (regularizedTriplets P A f d) j = (Triplet.column (triplets P A) j).map
      fun e => (e.1, regularized A.cols f d ⟨e.1, j, e.2⟩) := by
  rw [regularizedTriplets, Triplet.column, Triplet.column, List.filter_map, List.map_map,
    List.map_map]
  refine List.map_congr_left fun t ht => ?_
  have hcol : t.col = j := by simpa using (List.mem_filter.1 ht).2
  simp only [Function.comp_apply, ← hcol]

omit [LinearOrder K] [SquareRoot K] in
/-- The entries at one position of a list of triplets. -/
theorem coeff_column (ts : List (Triplet K)) (i j : Nat) : coeff (Triplet.column ts j) i =
    (ts.map fun t => if t.row = i ∧ t.col = j then t.val else 0).sum := by
  induction ts with
  | nil => rfl
  | cons t ts ih =>
    rw [← List.singleton_append, Triplet.column_append, coeff_append, ih, Triplet.column_singleton,
      List.map_append, List.sum_append]
    by_cases hcol : t.col = j <;> simp [hcol]

omit [LinearOrder K] [SquareRoot K] in
/-- What is added to the entries of row `j` shows as often as that row is listed. -/
theorem coeff_add_row (entries : List (Nat × K)) (i j : Nat) (c : K) :
    coeff (entries.map fun e => (e.1, e.2 + if e.1 = j then c else 0)) i =
      coeff entries i + (entries.map Prod.fst).count i * if i = j then c else 0 := by
  induction entries with
  | nil => simp
  | cons e entries ih =>
    rw [List.map_cons, coeff_cons, coeff_cons, ih, List.map_cons, List.count_cons]
    by_cases he : e.1 = i
    · rw [he, if_pos rfl, if_pos rfl, if_pos (beq_self_eq_true i)]
      push_cast
      ring
    · have hbeq : ¬ (e.1 == i) = true := by simpa using he
      rw [if_neg he, if_neg he, if_neg hbeq]
      simp

namespace Assembled

variable {P A : Sparse K} (h : Blocks P A) {primal : K} {d : Nat → K} {M : Kkt K}
  (hM : Assembled P A (fun v => v + primal) d M)

include h hM

/-- The columns of the variables hold those of the quadratic term, with the primal regularizer
    added on the diagonal. -/
theorem dense_primal {i j : Nat} (hj : j < A.cols) :
    M.matrix.dense i j = P.dense i j + if i = j then primal else 0 := by
  have hlt : j < A.rows + A.cols := by omega
  have hvalue : ∀ e : Nat × K, regularized A.cols (fun v => v + primal) d ⟨e.1, j, e.2⟩ =
      e.2 + if e.1 = j then primal else 0 := by
    intro e
    by_cases he : e.1 = j
    · simp [regularized, he, hj]
    · simp [regularized, he]
  have hcolumn : coeff (Triplet.column (triplets P A) j) i = P.dense i j := by
    rw [h.column_left hj, coeff_append, ← Sparse.dense]
    by_cases hmem : j ∈ P.rowsOf j <;> simp [hmem]
  have hcount : ((Triplet.column (triplets P A) j).map Prod.fst).count j = 1 :=
    List.count_eq_one_of_mem (hM.rowsOf_eq hlt ▸ hM.distinct h j (hM.layout.cols_eq ▸ hlt))
      (List.mem_of_getLast? (h.getLast?_column hlt))
  rw [Sparse.dense, hM.layout.entries_eq hlt, column_regularizedTriplets]
  simp only [hvalue]
  rw [coeff_add_row, hcolumn]
  by_cases hij : i = j
  · rw [hij, if_pos rfl, hcount, Nat.cast_one, one_mul]
  · rw [if_neg hij, mul_zero]

omit hM in
/-- The constraint matrix lies above the dual diagonal. -/
theorem lt_of_mem_constraint {j : Nat} {e : Nat × K}
    (he : e ∈ Triplet.column (blockTriplets A fun row col => (col, row + A.cols)) j) :
    e.1 < A.cols := by
  obtain ⟨t, ht, rfl⟩ := List.mem_map.1 he
  obtain ⟨p, hp, rfl⟩ := List.mem_map.1 (List.mem_filter.1 ht).1
  exact h.constraint.colOf_lt (List.mem_range.1 hp)

/-- Above its diagonal the column of a constraint holds the row of the constraint matrix. -/
theorem dense_constraint {i k : Nat} (hk : k < A.rows) : M.matrix.dense i (A.cols + k) =
    coeff (Triplet.column (blockTriplets A fun row col => (col, row + A.cols)) (A.cols + k)) i +
      if A.cols + k = i then d k else 0 := by
  have hlt : A.cols + k < A.rows + A.cols := by omega
  have hsame : (Triplet.column (blockTriplets A fun row col => (col, row + A.cols))
      (A.cols + k)).map (fun e => (e.1, regularized A.cols (fun v => v + primal) d
        ⟨e.1, A.cols + k, e.2⟩)) =
      Triplet.column (blockTriplets A fun row col => (col, row + A.cols)) (A.cols + k) := by
    refine (List.map_congr_left fun e he => ?_).trans (List.map_id _)
    have := lt_of_mem_constraint h he
    unfold regularized
    rw [if_neg (by dsimp only; omega)]
    rfl
  have hdual : regularized A.cols (fun v => v + primal) d ⟨A.cols + k, A.cols + k, 0⟩ = d k := by
    simp [regularized]
  unfold Sparse.dense
  rw [hM.layout.entries_eq hlt, column_regularizedTriplets, h.column_right hk, List.map_append,
    hsame, coeff_append, List.map_singleton, hdual, coeff_cons, coeff_nil, add_zero]

/-- The columns of the constraints hold the rows of the constraint matrix. -/
theorem dense_cross {i k : Nat} (hi : i < A.cols) (hk : k < A.rows) :
    M.matrix.dense i (A.cols + k) = A.dense k i := by
  have hne : A.cols + k ≠ i := by omega
  rw [hM.dense_constraint h hk, if_neg hne, add_zero, coeff_column, blockTriplets, List.map_map,
    h.constraint.toShaped.dense_eq_sum hi, ← List.sum_toFinset _ List.nodup_range,
    List.toFinset_range]
  refine Finset.sum_congr rfl fun p _ => ?_
  simp only [Function.comp_apply, Nat.add_comm A.cols, Nat.add_right_cancel_iff, and_comm]

/-- The columns of the constraints hold the values of the dual diagonal. -/
theorem dense_dual {k l : Nat} (hl : l < A.rows) :
    M.matrix.dense (A.cols + k) (A.cols + l) = if k = l then d l else 0 := by
  rw [hM.dense_constraint h hl, coeff_of_not_mem, zero_add]
  · simp only [Nat.add_right_inj, eq_comm]
  · intro hmem
    obtain ⟨e, he, heq⟩ := List.mem_map.1 hmem
    have := lt_of_mem_constraint h he
    omega

/-! ## 4. The assembled matrix and the system -/

variable {dual : Array K}

theorem symmetric_primal {i j : Nat} (hi : i < A.cols) (hj : j < A.cols) :
    M.matrix.symmetric i j = P.symmetric i j + if i = j then primal else 0 := by
  rw [Sparse.symmetric, hM.dense_primal h (max_lt hi hj), Sparse.symmetric]
  have hiff : min i j = max i j ↔ i = j := by omega
  simp only [hiff]

theorem symmetric_cross {j k : Nat} (hj : j < A.cols) (hk : k < A.rows) :
    M.matrix.symmetric j (A.cols + k) = A.dense k j := by
  rw [Sparse.symmetric_of_le _ (by omega), hM.dense_cross h hj hk]

theorem symmetric_dual {k l : Nat} (hk : k < A.rows) (hl : l < A.rows) :
    M.matrix.symmetric (A.cols + k) (A.cols + l) = if k = l then d k else 0 := by
  rcases Nat.le_total k l with hle | hle
  · rw [Sparse.symmetric_of_le _ (by omega), hM.dense_dual h hl]
    by_cases hkl : k = l <;> simp [hkl]
  · rw [Sparse.symmetric_comm, Sparse.symmetric_of_le _ (by omega), hM.dense_dual h hk]
    by_cases hkl : k = l <;> simp [hkl, eq_comm]

/-- **The assembled matrix is that of the system**, numbered through. -/
theorem submatrix_eq (hd : ∀ i < A.rows, d i = -dual.getD i 0) {size : Nat}
    (hsize : A.cols + A.rows = size) :
    (M.matrix.symmetricMatrix size).submatrix (number hsize) (number hsize) =
      system A (P.symmetricMatrix A.cols) primal dual := by
  ext i j
  rw [Matrix.submatrix_apply, Sparse.symmetricMatrix_apply]
  rcases i with i | k <;> rcases j with j | l
  · rw [number_inl, number_inl, hM.symmetric_primal h i.isLt j.isLt]
    simp [system, Matrix.one_apply, Fin.ext_iff, add_comm]
  · rw [number_inl, number_inr, hM.symmetric_cross h i.isLt l.isLt]
    rfl
  · rw [number_inl, number_inr, Sparse.symmetric_comm, hM.symmetric_cross h j.isLt k.isLt]
    rfl
  · rw [number_inr, number_inr, hM.symmetric_dual h k.isLt l.isLt, hd k k.isLt]
    by_cases hkl : k = l
    · simp [system, hkl, vector]
    · simp [system, hkl, Fin.val_ne_of_ne hkl]

/-- **A vector solves the numbered system if and only if it solves the system in blocks.** -/
theorem mulVec_iff (hd : ∀ i < A.rows, d i = -dual.getD i 0) {size : Nat}
    (hsize : A.cols + A.rows = size) (y : Fin A.cols ⊕ Fin A.rows → K) (b : Array K) :
    M.matrix.symmetricMatrix size *ᵥ (y ∘ (number hsize).symm) = vector size b ↔
      system A (P.symmetricMatrix A.cols) primal dual *ᵥ y = blocks A b := by
  rw [← hM.submatrix_eq h hd hsize, Matrix.submatrix_mulVec_equiv, blocks_eq A hsize]
  exact ((number hsize).surjective.injective_comp_right.eq_iff).symm

/-- A vector that is numbered through solves the numbered system if and only if its blocks solve
    the system. -/
theorem mulVec_blocks_iff (hd : ∀ i < A.rows, d i = -dual.getD i 0) {size : Nat}
    (hsize : A.cols + A.rows = size) (z b : Array K) :
    M.matrix.symmetricMatrix size *ᵥ vector size z = vector size b ↔
      system A (P.symmetricMatrix A.cols) primal dual *ᵥ blocks A z = blocks A b := by
  rw [← hM.mulVec_iff h hd hsize, blocks_eq A hsize, Function.comp_assoc, Equiv.self_comp_symm,
    Function.comp_id]

/-- If the numbered system has no other solution, neither has the system. -/
theorem eq_blocks (hd : ∀ i < A.rows, d i = -dual.getD i 0) {size : Nat}
    (hsize : A.cols + A.rows = size) {z b : Array K}
    (hunique : ∀ y, M.matrix.symmetricMatrix size *ᵥ y = vector size b → y = vector size z)
    {y : Fin A.cols ⊕ Fin A.rows → K}
    (hy : system A (P.symmetricMatrix A.cols) primal dual *ᵥ y = blocks A b) : y = blocks A z := by
  have hnumbered := hunique _ ((hM.mulVec_iff h hd hsize y b).2 hy)
  rw [blocks_eq A hsize, ← hnumbered, Function.comp_assoc, Equiv.symm_comp_self, Function.comp_id]

end Assembled

end Kkt

end Quasidefinite
