import Quasidefinite.Indirect.Jacobi
import Quasidefinite.Indirect.ReducedOperator
import Quasidefinite.Proofs.Kkt.Reduced
import Quasidefinite.Proofs.Sparse.Diagonal

/-!
# The reduced operator and its preconditioner

On matrices that fit together the program for the reduced operator answers, and in exact arithmetic
it applies one matrix (`ReducedOperator.Fits.exists_vector_apply`), whose diagonal it finds
(`ReducedOperator.Fits.exists_vector_diagonal`). With the reciprocals of the dual regularizer as
weights that matrix is the reduced one (`ReducedOperator.exists_apply`). The Jacobi preconditioner
is a diagonal matrix. Its entries stay positive whatever diagonals it has been fitted to
(`Jacobi.Positive.update`), so this matrix is positive definite.
-/

namespace Quasidefinite

open scoped Matrix

/-! ## 1. Lengths and totality -/

section Lengths

variable {α : Type} [Scalar α]

/-- The reduced operator keeps the length of the vector that it writes over. -/
theorem ReducedOperator.size_apply {op : ReducedOperator α} {y x work z u : Array α}
    (h : op.apply y x work = .ok (z, u)) : z.size = y.size := by
  unfold apply addQuadratic at h
  obtain ⟨y₁, hquadratic, h⟩ := Checked.bind_eq_ok.1 h
  obtain ⟨w, -, h⟩ := Checked.bind_eq_ok.1 h
  obtain ⟨y₂, hconstraint, h⟩ := Checked.bind_eq_ok.1 h
  cases h
  have hsize : y₁.size = y.size := by
    rw [← Vec.size_mapOver (op.primal * ·) y x]
    split at hquadratic
    · exact Sparse.size_symv hquadratic
    · exact Sparse.size_gemv hquadratic
  exact (Sparse.size_gemvT hconstraint).trans hsize

theorem Jacobi.apply_eq_ok {p : Jacobi α} {z r y : Array α} : p.apply z r = .ok y ↔
    z.size = r.size ∧ (if p.enabled then Vec.hadamard r p.inverse else r) = y := by
  unfold apply
  simp only [Checked.bind_eq_ok, Checked.pure_eq_ok, Except.ok.injEq, Vec.copy_eq_ok]
  constructor
  · rintro ⟨z, ⟨hsize, rfl⟩, rfl⟩
    exact ⟨hsize, rfl⟩
  · rintro ⟨hsize, rfl⟩
    exact ⟨r, ⟨hsize, rfl⟩, rfl⟩

theorem Jacobi.size_apply {p : Jacobi α} {z r y : Array α} (h : p.apply z r = .ok y) :
    y.size = z.size := by
  obtain ⟨hsize, rfl⟩ := apply_eq_ok.1 h
  split
  · rw [Vec.size_hadamard, hsize]
  · exact hsize.symm

/-- The diagonal of the reduced operator is found on matrices that fit together. -/
theorem ReducedOperator.exists_diagonal (op : ReducedOperator α) (hA : op.constraint.Shaped)
    (hP : op.quadratic.Shaped) (hrows : op.quadratic.rows = op.constraint.cols)
    (hcols : op.quadratic.cols = op.constraint.cols)
    (hweights : op.weights.size = op.constraint.rows) {diag : Array α}
    (hdiag : diag.size = op.constraint.cols) : ∃ z, op.diagonal diag = .ok z := by
  obtain ⟨d, hd, hsize⟩ :=
    hP.exists_diagonal (hrows.trans hcols.symm) (hdiag.trans hcols.symm)
  obtain ⟨w, hw, hsize'⟩ := hA.exists_columnWeightedSquares
    ((Vec.size_zeros diag.size).trans hdiag) hweights
  have hsum := Vec.axpby_eq_ok (a := (1 : α)) (b := 1).2
    ⟨(hsize.trans hcols).trans hsize'.symm, rfl⟩
  rw [diagonal, hd, Checked.ok_bind, hw, Checked.ok_bind, hsum]
  exact ⟨_, rfl⟩

end Lengths

/-! ## 2. The reduced operator -/

open scoped Scalar

variable {K : Type} [Field K] [LinearOrder K] [SquareRoot K]

namespace ReducedOperator

variable {op : ReducedOperator K}

/-- The matrix as which the operator reads its quadratic term. -/
def quadraticTerm (op : ReducedOperator K) (n : Nat) : Matrix (Fin n) (Fin n) K :=
  if op.upperOnly then op.quadratic.symmetricMatrix n else op.quadratic.matrix n n

theorem diag_quadraticTerm (op : ReducedOperator K) (n : Nat) :
    (op.quadraticTerm n).diag = (op.quadratic.matrix n n).diag := by
  unfold quadraticTerm
  split
  · funext j
    exact op.quadratic.symmetric_of_le (Nat.le_refl j)
  · rfl

/-- The matrix of the operator. -/
def matrix (op : ReducedOperator K) :
    Matrix (Fin op.constraint.cols) (Fin op.constraint.cols) K :=
  Kkt.schur op.constraint (op.quadraticTerm op.constraint.cols) op.primal
    (vector op.constraint.rows op.weights)

/-- The parts of the operator fit together, and a quadratic term that is read as an upper triangle
    is one. -/
structure Fits (op : ReducedOperator K) : Prop where
  constraint : op.constraint.Shaped
  quadratic : op.quadratic.Shaped
  rows_eq : op.quadratic.rows = op.constraint.cols
  cols_eq : op.quadratic.cols = op.constraint.cols
  upper : op.upperOnly = true → op.quadratic.Upper
  size_weights : op.weights.size = op.constraint.rows

namespace Fits

variable (h : op.Fits)

include h

theorem exists_addQuadratic {y x : Array K} (hy : y.size = op.constraint.cols)
    (hx : x.size = op.constraint.cols) : ∃ z, op.addQuadratic y x = .ok z ∧
      z.size = op.constraint.cols ∧ vector op.constraint.cols z =
        op.quadraticTerm op.constraint.cols *ᵥ vector op.constraint.cols x +
          vector op.constraint.cols y := by
  unfold addQuadratic quadraticTerm
  rw [← h.cols_eq] at hx hy ⊢
  cases hupper : op.upperOnly with
  | true =>
    obtain ⟨z, hz, hsize, heq⟩ := Sparse.Triangle.exists_vector_symv
      ⟨h.quadratic, h.rows_eq.trans h.cols_eq.symm, h.upper hupper⟩ hx hy (1 : K) 1
    rw [one_smul, one_smul] at heq
    exact ⟨z, hz, hsize, heq⟩
  | false =>
    have hsquare : op.quadratic.rows = op.quadratic.cols := h.rows_eq.trans h.cols_eq.symm
    obtain ⟨z, hz, hsize, heq⟩ :=
      h.quadratic.exists_vector_gemv hx (hy.trans hsquare.symm) (1 : K) 1
    rw [one_smul, one_smul] at heq
    rw [hsquare] at hsize heq
    exact ⟨z, hz, hsize, heq⟩

/-- **The operator applies its matrix**, whatever was held where it writes. -/
theorem exists_vector_apply {y x work : Array K} (hy : y.size = op.constraint.cols)
    (hx : x.size = op.constraint.cols) (hwork : work.size = op.constraint.rows) :
    ∃ z u, op.apply y x work = .ok (z, u) ∧ z.size = op.constraint.cols ∧
      vector op.constraint.cols z = op.matrix *ᵥ vector op.constraint.cols x := by
  have hy₀ : (Vec.mapOver (op.primal * ·) y x).size = op.constraint.cols :=
    (Vec.size_mapOver _ _ _).trans hy
  obtain ⟨y₁, hy₁, hsize₁, heq₁⟩ := h.exists_addQuadratic hy₀ hx
  obtain ⟨w, hw, hsize, heq⟩ := h.constraint.exists_vector_gemv hx hwork (1 : K) 0
  have hsize' : (Vec.hadamard w op.weights).size = op.constraint.rows :=
    (Vec.size_hadamard _ _).trans hsize
  obtain ⟨y₂, hy₂, hsize₂, heq₂⟩ := h.constraint.exists_vector_gemvT hsize' hsize₁ (1 : K) 1
  refine ⟨y₂, Vec.hadamard w op.weights, ?_, hsize₂, ?_⟩
  · rw [apply, hy₁, Checked.ok_bind, hw, Checked.ok_bind]
    dsimp only
    rw [hy₂]
    rfl
  · have hprimal : vector op.constraint.cols (Vec.mapOver (op.primal * ·) y x) =
        op.primal • vector op.constraint.cols x := Vec.vector_mapOver _ hy hx
    rw [heq₂, heq₁, hprimal, Vec.vector_hadamard hsize h.size_weights, heq, matrix,
      Kkt.schur_mulVec, one_smul, one_smul, one_smul, zero_smul, add_zero]
    abel

/-- **The diagonal of the operator is that of its matrix** if no constraint is listed twice in a
    column. -/
theorem exists_vector_diagonal (hdistinct : op.constraint.Distinct) {diag : Array K}
    (hdiag : diag.size = op.constraint.cols) : ∃ d, op.diagonal diag = .ok d ∧
      d.size = op.constraint.cols ∧ vector op.constraint.cols d = op.matrix.diag := by
  obtain ⟨d, hd, hsize, heq⟩ := h.quadratic.exists_vector_diagonal
    (h.rows_eq.trans h.cols_eq.symm) (hdiag.trans h.cols_eq.symm)
  obtain ⟨w, hw, hsize', heq'⟩ := h.constraint.exists_vector_columnWeightedSquares hdistinct
    ((Vec.size_zeros diag.size).trans hdiag) h.size_weights
  rw [h.cols_eq] at hsize heq
  obtain ⟨u, hu⟩ : ∃ u, Vec.axpby d 1 w 1 = .ok u :=
    ⟨_, Vec.axpby_eq_ok.2 ⟨hsize.trans hsize'.symm, rfl⟩⟩
  have husize : u.size = op.constraint.cols := (Vec.size_axpby hu).trans hsize
  refine ⟨u.map (· + op.primal), ?_, by rw [Array.size_map, husize], ?_⟩
  · rw [diagonal, hd, Checked.ok_bind, hw, Checked.ok_bind, hu]
    rfl
  · have hsum := Vec.vector_axpby hu hsize
    rw [one_smul, one_smul, heq, heq', ← diag_quadraticTerm] at hsum
    rw [Vec.vector_map _ husize, hsum]
    funext j
    simp only [matrix, Kkt.schur, Pi.add_apply, Matrix.diag_apply, Matrix.add_apply,
      Matrix.smul_apply, Matrix.one_apply_eq, smul_eq_mul, mul_one]
    ring

end Fits

/-- **The reduced operator applies the reduced matrix.** -/
theorem exists_apply (op : ReducedOperator K) {dual : Array K} (hA : op.constraint.Shaped)
    (hP : op.quadratic.Shaped) (hrows : op.quadratic.rows = op.constraint.cols)
    (hcols : op.quadratic.cols = op.constraint.cols)
    (hupper : op.upperOnly = decide op.quadratic.Upper) (hdual : dual.size = op.constraint.rows)
    (hweights : op.weights = Vec.recip dual) {y x work : Array K}
    (hy : y.size = op.constraint.cols) (hx : x.size = op.constraint.cols)
    (hwork : work.size = op.constraint.rows) :
    ∃ z u, op.apply y x work = .ok (z, u) ∧ vector op.constraint.cols z =
      Kkt.reduced op.constraint (op.quadratic.quadraticMatrix op.constraint.cols) op.primal dual *ᵥ
        vector op.constraint.cols x := by
  have hfits : op.Fits := ⟨hA, hP, hrows, hcols,
    fun h => of_decide_eq_true (hupper.symm.trans h), by rw [hweights, Vec.size_recip, hdual]⟩
  have hterm : op.quadraticTerm op.constraint.cols =
      op.quadratic.quadraticMatrix op.constraint.cols := by
    unfold quadraticTerm Sparse.quadraticMatrix
    simp only [hupper, decide_eq_true_eq]
  obtain ⟨z, u, happly, -, heq⟩ := hfits.exists_vector_apply hy hx hwork
  refine ⟨z, u, happly, ?_⟩
  rw [heq, matrix, hterm, hweights, Vec.vector_recip hdual, Kkt.reduced_eq_schur]

end ReducedOperator

/-! ## 3. The preconditioner -/

namespace Jacobi

variable {n : Nat}

/-- The matrix of the preconditioner. -/
def matrix (p : Jacobi K) (n : Nat) : Matrix (Fin n) (Fin n) K :=
  Matrix.diagonal (if p.enabled then vector n p.inverse else 1)

/-- The preconditioner has size `n` and positive entries. -/
structure Positive (n : Nat) (p : Jacobi K) : Prop where
  size_inverse : p.inverse.size = n
  inverse_pos : ∀ i : Fin n, 0 < vector n p.inverse i

variable {p : Jacobi K}

theorem vector_apply (hp : p.inverse.size = n) {z r y : Array K} (hr : r.size = n)
    (h : p.apply z r = .ok y) : vector n y = p.matrix n *ᵥ vector n r := by
  obtain ⟨-, rfl⟩ := apply_eq_ok.1 h
  unfold matrix
  rw [Kkt.diagonal_mulVec]
  split
  · exact Vec.vector_hadamard hr hp
  · rw [mul_one]

variable [IsStrictOrderedRing K]

theorem reciprocal_pos (d : K) : 0 < reciprocal d := by
  unfold reciprocal
  rw [Scalar.exact_isPositiveFinite, Scalar.exact_recip]
  split
  case isTrue hd => exact inv_pos.2 (of_decide_eq_true hd)
  case isFalse => exact one_pos

theorem positive_ones (n : Nat) (enabled : Bool) : (ones n enabled : Jacobi K).Positive n where
  size_inverse := Array.size_replicate
  inverse_pos i := by
    unfold vector ones
    rw [getD_of_lt _ _ _ (by simp), Array.getElem_replicate]
    exact one_pos

/-- **Whatever diagonal it is fitted to, the preconditioner stays positive.** -/
theorem Positive.update (h : p.Positive n) (diag : Array K) : (p.update diag).Positive n := by
  unfold Jacobi.update
  split
  · refine ⟨(Vec.size_mapOver _ _ _).trans h.size_inverse, fun i => ?_⟩
    have hi : (i : Nat) < p.inverse.size := i.isLt.trans_eq h.size_inverse.symm
    have hentry := h.inverse_pos i
    unfold vector at hentry ⊢
    rw [getD_of_lt _ _ _ hi] at hentry
    rw [getD_of_lt _ _ _ (by rwa [Vec.size_mapOver])]
    simp only [Vec.mapOver, Vec.overlay, Array.getElem_mapIdx]
    split
    · exact reciprocal_pos _
    · exact hentry
  · exact h

omit [SquareRoot K] in
theorem Positive.positiveDefinite (h : p.Positive n) : PositiveDefinite (p.matrix n) := by
  refine .diagonal fun i => ?_
  split
  · exact h.inverse_pos i
  · exact one_pos

end Jacobi

end Quasidefinite
