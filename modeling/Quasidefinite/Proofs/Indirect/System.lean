import Quasidefinite.Indirect.System
import Quasidefinite.Proofs.Indirect.Conjugacy
import Quasidefinite.Proofs.Indirect.Operator

/-!
# What an indirect system keeps

`IndirectSystem.Invariant` says what holds of an indirect system at all times, whatever matrices its
calls were given: its regularizers are those it was built with and given last, its vectors have the
lengths of the fingerprint, and its preconditioner is positive. Construction establishes the
invariant (`invariant_of_new`), solves and updates keep it (`Invariant.solve`, `Invariant.update`).

All that a solve and an update can come to, with whatever matrices and in every arithmetic, is
listed first (`cases_solve`, `cases_update`).

On matrices with the fingerprint of the system a solve answers (`Invariant.exists_solve`). The
second equation then holds exactly, the residual that is reported is that of the whole system, and
the problem that conjugate gradients solve (`pose`) is the reduced one. On positive semidefinite
data the solve succeeds (`Invariant.converges`).
-/

namespace Quasidefinite

namespace IndirectSystem

open ConjugateGradient

/-! ## 1. The parts of a solve -/

section Parts

variable {α : Type} [Scalar α] {s t : IndirectSystem α} {A P : Sparse α} {b z dual : Array α}
  {warm : Option (Array α)} {tol : α}

/-- The problem that a solve hands to conjugate gradients, and where they begin. -/
def pose (s : IndirectSystem α) (A P : Sparse α) (b : Array α) (warm : Option (Array α))
    (tol : α) : Checked (Problem α × Array α) := do
  let bx ← Checked.slice b 0 s.fingerprint.cols
  let bY ← Checked.slice b s.fingerprint.cols b.size
  Checked.require (bY.size = s.fingerprint.rows) .lengthMismatch
  let rhs ← s.reducedRhs A bx bY
  let x ← s.start warm
  let op ← s.operator A P
  let problem : Problem α :=
    { op := fun y v => do pure (← op.apply y v bY).1
      precond := s.precond.apply
      rhs
      threshold := threshold tol b }
  pure (problem, x)

/-- **A solve poses its problem, runs conjugate gradients, and recovers the second block.** -/
theorem solve_eq : s.solve A P b warm tol = (do
    let (q, x) ← s.pose A P b warm tol
    let (result, x, work) ← run q s.maxIter x s.work
    let t := { s with x, work, info := s.info.recordSolve result.iterations result.residual }
    if Vec.isFinite x then
      let y ← s.recover A x (← Checked.slice b s.fingerprint.cols b.size)
      pure ({ t with hasPrevious := true }, x ++ y,
        if result.converged then .success else .notConverged)
    else pure ({ t with hasPrevious := false }, b, .numericalError)) := by
  simp only [solve, pose, bind_assoc, Checked.pure_eq_ok]
  refine bind_congr fun bx => ?_
  cases Checked.slice b s.fingerprint.cols b.size with
  | error e => rfl
  | ok bY => rfl

theorem pose_eq_ok {q : Problem α} {x : Array α} : s.pose A P b warm tol = .ok (q, x) ↔
    ∃ bx bY rhs op, Checked.slice b 0 s.fingerprint.cols = .ok bx ∧
      Checked.slice b s.fingerprint.cols b.size = .ok bY ∧ bY.size = s.fingerprint.rows ∧
      s.reducedRhs A bx bY = .ok rhs ∧ s.start warm = .ok x ∧ s.operator A P = .ok op ∧
      q = { op := fun y v => do pure (← op.apply y v bY).1
            precond := s.precond.apply
            rhs
            threshold := threshold tol b } := by
  unfold pose
  simp only [Checked.bind_eq_ok, Checked.require_eq_ok, Checked.pure_eq_ok, Except.ok.injEq,
    Prod.mk.injEq]
  constructor
  · rintro ⟨bx, hbx, bY, hbY, -, hsize, rhs, hrhs, x, hx, op, hop, rfl, rfl⟩
    exact ⟨bx, bY, rhs, op, hbx, hbY, hsize, hrhs, hx, hop, rfl⟩
  · rintro ⟨bx, bY, rhs, op, hbx, hbY, hsize, hrhs, hx, hop, rfl⟩
    exact ⟨bx, hbx, bY, hbY, (), hsize, rhs, hrhs, x, hx, op, hop, rfl, rfl⟩

/-- What is kept after a solve that found `x`. -/
def solved (s : IndirectSystem α) (result : Result α) (x : Array α) (work : Scratch α) :
    IndirectSystem α :=
  { s with
    x
    work
    hasPrevious := Vec.isFinite x
    info := s.info.recordSolve result.iterations result.residual }

/-- **What an indirect solve can come to**: conjugate gradients find the first block; if that is
    finite the second one is recovered from it, and both are handed back. -/
theorem cases_solve {status : Status} (h : s.solve A P b warm tol = .ok (t, z, status)) :
    ∃ q x₀ result x work, s.pose A P b warm tol = .ok (q, x₀) ∧
      run q s.maxIter x₀ s.work = .ok (result, x, work) ∧ t = s.solved result x work ∧
      ((Vec.isFinite x = true ∧ (∃ y,
          s.recover A x (b.extract s.fingerprint.cols b.size) = .ok y ∧ z = x ++ y) ∧
          status = if result.converged then .success else .notConverged) ∨
        (Vec.isFinite x = false ∧ z = b ∧ status = .numericalError)) := by
  rw [solve_eq] at h
  obtain ⟨⟨q, x₀⟩, hpose, h⟩ := Checked.bind_eq_ok.1 h
  obtain ⟨⟨result, x, work⟩, hrun, h⟩ := Checked.bind_eq_ok.1 h
  refine ⟨q, x₀, result, x, work, hpose, hrun, ?_⟩
  dsimp only at h
  split at h
  case isTrue hfinite =>
    obtain ⟨bY, hbY, h⟩ := Checked.bind_eq_ok.1 h
    obtain ⟨y, hy, h⟩ := Checked.bind_eq_ok.1 h
    cases h
    obtain ⟨-, rfl⟩ := Checked.slice_eq_ok.1 hbY
    exact ⟨by rw [solved, hfinite], .inl ⟨hfinite, ⟨y, hy, rfl⟩, rfl⟩⟩
  case isFalse hfinite =>
    rw [Bool.not_eq_true] at hfinite
    cases h
    exact ⟨by rw [solved, hfinite], .inr ⟨hfinite, rfl, rfl⟩⟩

/-- A solve comes to what its run leads to. -/
theorem solve_of_run {q : Problem α} {x₀ x : Array α} {result : Result α} {work : Scratch α}
    {status : Status} (hpose : s.pose A P b warm tol = .ok (q, x₀))
    (hrun : run q s.maxIter x₀ s.work = .ok (result, x, work))
    (houtcome : (Vec.isFinite x = true ∧ (∃ y,
          s.recover A x (b.extract s.fingerprint.cols b.size) = .ok y ∧ z = x ++ y) ∧
          status = if result.converged then .success else .notConverged) ∨
        (Vec.isFinite x = false ∧ z = b ∧ status = .numericalError)) :
    s.solve A P b warm tol = .ok (s.solved result x work, z, status) := by
  obtain ⟨-, bY, -, -, -, hslice, -⟩ := pose_eq_ok.1 hpose
  obtain ⟨-, rfl⟩ := Checked.slice_eq_ok.1 hslice
  rw [solve_eq, hpose, Checked.ok_bind]
  dsimp only
  rw [hrun, Checked.ok_bind]
  dsimp only
  rcases houtcome with ⟨hfinite, ⟨y, hy, rfl⟩, rfl⟩ | ⟨hfinite, rfl, rfl⟩
  · rw [if_pos hfinite, hslice, Checked.ok_bind, hy, solved, hfinite]
    rfl
  · rw [if_neg (by simp [hfinite]), solved, hfinite]
    rfl

/-- **What an indirect update can come to**: it is refused for its matrices, or it succeeds. -/
theorem cases_update {result : Except SystemError Unit}
    (h : s.update A P dual = .ok (t, result)) :
    (t = s ∧ result = .error .matrixMismatch) ∨
      s.dataMatches A P = true ∧ s.dual.size = dual.size ∧ result = .ok () ∧
        { s with dual, dualInv := Vec.recip dual }.updatePreconditioner A P = .ok t := by
  unfold update at h
  split at h
  case isFalse =>
    cases h
    exact .inl ⟨rfl, rfl⟩
  case isTrue hmatches =>
    obtain ⟨copied, hcopy, h⟩ := Checked.bind_eq_ok.1 h
    obtain ⟨hsize, rfl⟩ := Vec.copy_eq_ok.1 hcopy
    obtain ⟨v, hv, h⟩ := Checked.bind_eq_ok.1 h
    cases h
    exact .inr ⟨hmatches, hsize, rfl, hv⟩

/-- The problem that is posed keeps the lengths of vectors, whatever the matrices. -/
theorem keeps_of_pose {q : Problem α} {x : Array α} (h : s.pose A P b warm tol = .ok (q, x)) :
    q.Keeps := by
  obtain ⟨bx, bY, rhs, op, -, -, -, -, -, -, rfl⟩ := pose_eq_ok.1 h
  refine ⟨fun hop => ?_, Jacobi.size_apply⟩
  obtain ⟨⟨z, u⟩, happly, hz⟩ := Checked.bind_eq_ok.1 hop
  cases hz
  exact ReducedOperator.size_apply happly

/-- The reduced operator of the system, for matrices of good form. -/
def reducedOperator (s : IndirectSystem α) (A P : Sparse α) : ReducedOperator α where
  constraint := A
  quadratic := P
  upperOnly := decide P.Upper
  primal := s.primal
  weights := s.dualInv

omit [Scalar α] in
theorem operator_eq (hP : P.Shaped) : s.operator A P = .ok (s.reducedOperator A P) := by
  rw [operator, hP.isUpper_eq]
  rfl

theorem size_start {x : Array α} (h : s.start warm = .ok x) : x.size = s.x.size := by
  cases warm with
  | none =>
    cases h
    split
    · rfl
    · exact Vec.size_fill _ _
  | some warm =>
    obtain ⟨head, -, h⟩ := Checked.bind_eq_ok.1 h
    obtain ⟨hsize, rfl⟩ := Vec.copy_eq_ok.1 h
    exact hsize.symm

theorem exists_updatePreconditioner (hA : A.Shaped) (hP : P.Shaped) (hrows : P.rows = A.cols)
    (hcols : P.cols = A.cols) (hn : s.fingerprint.cols = A.cols)
    (hdualInv : s.dualInv.size = A.rows) : ∃ t, s.updatePreconditioner A P = .ok t := by
  have hzeros : (Vec.zeros s.fingerprint.cols : Array α).size = A.cols :=
    (Vec.size_zeros _).trans hn
  obtain ⟨diag, hdiag⟩ :=
    (s.reducedOperator A P).exists_diagonal hA hP hrows hcols hdualInv hzeros
  rw [updatePreconditioner, operator_eq hP, Checked.ok_bind, hdiag]
  exact ⟨_, rfl⟩

/-- **Construction succeeds** on well-formed matrices that fit together. -/
theorem exists_new (hA : A.Shaped) (hP : P.Shaped) (hrows : P.rows = A.cols)
    (hcols : P.cols = A.cols) {reg : Regularization α} (hdual : reg.dual.size = A.rows)
    (settings : Settings α) : ∃ s, new A P reg settings = .ok s := by
  rw [new, Fingerprint.of_eq hA hP]
  exact exists_updatePreconditioner hA hP hrows hcols rfl ((Vec.size_recip _).trans hdual)

theorem updatePreconditioner_eq_ok (h : s.updatePreconditioner A P = .ok t) :
    ∃ diag, t = { s with precond := s.precond.update diag } := by
  unfold updatePreconditioner at h
  obtain ⟨op, -, h⟩ := Checked.bind_eq_ok.1 h
  obtain ⟨diag, -, h⟩ := Checked.bind_eq_ok.1 h
  cases h
  exact ⟨diag, rfl⟩

theorem fingerprint_of_new {reg : Regularization α} {settings : Settings α}
    (h : new A P reg settings = .ok s) : Fingerprint.of A P = .ok s.fingerprint := by
  unfold new at h
  obtain ⟨f, hf, h⟩ := Checked.bind_eq_ok.1 h
  obtain ⟨diag, rfl⟩ := updatePreconditioner_eq_ok h
  exact hf

end Parts

/-! ## 2. The invariant -/

open scoped Scalar Matrix

variable {K : Type} [Field K] [LinearOrder K] [SquareRoot K]

theorem dims_of_fingerprint {α : Type} {f : Fingerprint} {A P : Sparse α}
    (h : Fingerprint.of A P = .ok f) :
    f.rows = A.rows ∧ f.cols = A.cols := by
  unfold Fingerprint.of at h
  obtain ⟨a, -, h⟩ := Checked.bind_eq_ok.1 h
  obtain ⟨p, -, h⟩ := Checked.bind_eq_ok.1 h
  cases h
  exact ⟨rfl, rfl⟩

/-- **What holds of an indirect system at all times**, if `dual` is the dual regularizer written
    last. -/
structure Invariant (f : Fingerprint) (primal : K) (setting : UInt32) (dual : Array K)
    (s : IndirectSystem K) : Prop where
  fingerprint_eq : s.fingerprint = f
  primal_eq : s.primal = primal
  dual_eq : s.dual = dual
  dualInv_eq : s.dualInv = Vec.recip dual
  size_dual : dual.size = f.rows
  dual_ok : dual.all Scalar.isPositiveFinite = true
  size_x : s.x.size = f.cols
  work : s.work.Sized f.cols
  precond : s.precond.Positive f.cols
  maxIter_eq : s.maxIter = iterationLimit setting f.cols

variable {f : Fingerprint} {A P : Sparse K} {primal : K} {setting : UInt32} {dual : Array K}
  {s t : IndirectSystem K}

/-- **Construction establishes the invariant.** -/
theorem invariant_of_new [IsStrictOrderedRing K] {reg : Regularization K} {settings : Settings K}
    (hdual : reg.dual.size = A.rows) (h : new A P reg settings = .ok s) :
    ∃ f, Fingerprint.of A P = .ok f ∧
      Invariant f reg.primal settings.cgMaxIter reg.dual s := by
  unfold new at h
  obtain ⟨f, hf, h⟩ := Checked.bind_eq_ok.1 h
  obtain ⟨diag, rfl⟩ := updatePreconditioner_eq_ok h
  have hdims := dims_of_fingerprint hf
  refine ⟨f, hf, ?_⟩
  exact {
    fingerprint_eq := rfl
    primal_eq := rfl
    dual_eq := rfl
    dualInv_eq := rfl
    size_dual := hdual.trans hdims.1.symm
    dual_ok := reg.dual_ok
    size_x := (Vec.size_zeros _).trans hdims.2.symm
    work := hdims.2.symm ▸ Scratch.sized_new A.cols
    precond := hdims.2.symm ▸ (Jacobi.positive_ones A.cols settings.precondition).update diag
    maxIter_eq := by rw [hdims.2] }

namespace Invariant

variable (h : Invariant f primal setting dual s)

include h

/-- **A solve keeps the invariant**, with whatever arguments. -/
theorem solve {b z : Array K} {warm : Option (Array K)} {tol : K} {status : Status}
    (hsolve : s.solve A P b warm tol = .ok (t, z, status)) :
    Invariant f primal setting dual t := by
  obtain ⟨q, x, result, x', w', hpose, hrun, rfl, -⟩ := cases_solve hsolve
  obtain ⟨-, -, -, -, -, -, -, -, hstart, -, -⟩ := pose_eq_ok.1 hpose
  have hsizes := sized_of_run (keeps_of_pose hpose) ((size_start hstart).trans h.size_x) h.work hrun
  exact { h with size_x := hsizes.1, work := hsizes.2 }

/-- **An update keeps the invariant**: if it succeeds, for the new dual regularizer. -/
theorem update [IsStrictOrderedRing K] {new : Array K} {result : Except SystemError Unit}
    (hsize : new.size = f.rows) (hnew : new.all Scalar.isPositiveFinite = true)
    (hupdate : s.update A P new = .ok (t, result)) :
    Invariant f primal setting (if result.isOk then new else dual) t := by
  rcases cases_update hupdate with ⟨rfl, rfl⟩ | ⟨-, -, rfl, hfitted⟩
  · exact h
  · obtain ⟨diag, rfl⟩ := updatePreconditioner_eq_ok hfitted
    exact { h with
      dual_eq := rfl
      dualInv_eq := rfl
      size_dual := hsize
      dual_ok := hnew
      precond := h.precond.update diag }

end Invariant

/-! ## 3. Solves on matrices with the fingerprint -/

/-- Well-formed matrices that fit together and have the fingerprint `f`. -/
structure Suits (f : Fingerprint) (A P : Sparse K) : Prop where
  constraint : A.WellFormed
  quadratic : P.WellFormed
  fingerprint_eq : Fingerprint.of A P = .ok f
  rows_eq : P.rows = A.cols
  cols_eq : P.cols = A.cols

theorem le_iterationLimit {setting : UInt32} {n : Nat} (h : setting = 0 ∨ n ≤ setting.toNat) :
    n ≤ iterationLimit setting n := by
  unfold iterationLimit
  split
  case isTrue => omega
  case isFalse hne => exact h.resolve_left hne

/-- The problem is the reduced one: its matrix, its right hand side and its threshold. -/
structure Poses (A P : Sparse K) (primal : K) (dual b : Array K) (tol : K) (precond : Jacobi K)
    (q : Problem K) : Prop where
  denotes : q.Denotes A.cols (Kkt.reduced A (P.quadraticMatrix A.cols) primal dual)
    (precond.matrix A.cols)
  rhs_eq : vector A.cols q.rhs = Kkt.blocks A b ∘ Sum.inl + (A.matrix A.rows A.cols)ᵀ *ᵥ
    (Kkt.blocks A b ∘ Sum.inr * (vector A.rows dual)⁻¹)
  threshold_eq : q.threshold = tol * max 1 (euclidean (Kkt.blocks A b))

/-- **What a solve comes to**: the second equation holds exactly, the norm of the residual of the
    whole system is the one that is reported, and it decides on success. -/
structure Outcome (A P : Sparse K) (primal : K) (dual b : Array K) (tol : K)
    (t : IndirectSystem K) (z : Array K) (status : Status) : Prop where
  cases_status : status = .success ∨ status = .notConverged
  size_eq : z.size = A.rows + A.cols
  second_eq : Kkt.blocks A z ∘ Sum.inr =
    Kkt.recovered A dual (Kkt.blocks A z ∘ Sum.inl) (Kkt.blocks A b ∘ Sum.inr)
  residual_eq : euclidean (Kkt.system A (P.quadraticMatrix A.cols) primal dual *ᵥ Kkt.blocks A z -
    Kkt.blocks A b) = t.info.lastResidual
  success_iff : status = .success ↔
    t.info.lastResidual ≤ tol * max 1 (euclidean (Kkt.blocks A b))

namespace Invariant

variable (h : Invariant f primal setting dual s) (hsuits : Suits f A P) {b : Array K}
  {warm : Option (Array K)} (hb : b.size = A.rows + A.cols)
  (hwarm : ∀ x ∈ warm, x.size = A.rows + A.cols)

include h hsuits hwarm

theorem exists_start : ∃ x, s.start warm = .ok x ∧ x.size = A.cols := by
  obtain ⟨hrows, hcols⟩ := dims_of_fingerprint hsuits.fingerprint_eq
  have hx : s.x.size = A.cols := h.size_x.trans hcols
  suffices hstart : ∃ x, s.start warm = .ok x by
    obtain ⟨x, hstart⟩ := hstart
    exact ⟨x, hstart, (size_start hstart).trans hx⟩
  cases warm with
  | none => exact ⟨_, rfl⟩
  | some warm =>
    have hsize := hwarm warm rfl
    have hslice := Checked.slice_eq warm (Nat.zero_le A.cols) (by omega)
    unfold start
    dsimp only
    rw [h.fingerprint_eq, hcols, hslice]
    exact ⟨_, Vec.copy_eq_ok.2 ⟨by simp [hx, hsize], rfl⟩⟩

omit hwarm in
theorem exists_apply {y v work : Array K} (hy : y.size = A.cols) (hv : v.size = A.cols)
    (hwork : work.size = A.rows) : ∃ z u, (s.reducedOperator A P).apply y v work = .ok (z, u) ∧
      vector A.cols z =
        Kkt.reduced A (P.quadraticMatrix A.cols) primal dual *ᵥ vector A.cols v := by
  obtain ⟨hrows, -⟩ := dims_of_fingerprint hsuits.fingerprint_eq
  rw [← h.primal_eq]
  exact (s.reducedOperator A P).exists_apply hsuits.constraint.toShaped hsuits.quadratic.toShaped
    hsuits.rows_eq hsuits.cols_eq rfl (h.size_dual.trans hrows) h.dualInv_eq hy hv hwork

include hb

/-- **On matrices with the fingerprint the problem that is posed is the reduced one.** -/
theorem exists_pose (tol : K) : ∃ q x, s.pose A P b warm tol = .ok (q, x) ∧ x.size = A.cols ∧
    Poses A P primal dual b tol s.precond q := by
  obtain ⟨hrows, hcols⟩ := dims_of_fingerprint hsuits.fingerprint_eq
  have hdual : dual.size = A.rows := h.size_dual.trans hrows
  obtain ⟨x, hx, hsizex⟩ := h.exists_start hsuits hwarm
  have hbx : (b.extract 0 A.cols).size = A.cols := by simp; omega
  have hbY : (b.extract A.cols b.size).size = A.rows := by simp; omega
  obtain ⟨rhs, hrhs, hsize, heq⟩ := hsuits.constraint.exists_vector_gemvT
    (x := Vec.hadamard (b.extract A.cols b.size) s.dualInv)
    ((Vec.size_hadamard _ _).trans hbY) hbx (1 : K) 1
  have hpose : s.pose A P b warm tol = .ok (_, x) := pose_eq_ok.2 ⟨_, _, rhs, _,
    by rw [h.fingerprint_eq, hcols]; exact Checked.slice_eq b (Nat.zero_le _) (by omega),
    by rw [h.fingerprint_eq, hcols]; exact Checked.slice_eq b (by omega) (Nat.le_refl _),
    by rw [hbY, h.fingerprint_eq, hrows], hrhs, hx, operator_eq hsuits.quadratic.toShaped, rfl⟩
  refine ⟨_, x, hpose, hsizex, ⟨⟨⟨keeps_of_pose hpose, hsize, ?_, ?_⟩, ?_, ?_⟩, ?_, ?_⟩⟩
  · intro y v hy hv
    obtain ⟨z, u, happly, -⟩ := h.exists_apply hsuits hy hv hbY
    exact ⟨z, by dsimp only; rw [happly]; rfl⟩
  · intro z r hz hr
    exact ⟨_, Jacobi.apply_eq_ok.2 ⟨hz.trans hr.symm, rfl⟩⟩
  · intro y v z hy hv hop
    obtain ⟨z', u, happly, heq⟩ := h.exists_apply hsuits hy hv hbY
    dsimp only at hop
    rw [happly] at hop
    cases hop
    exact heq
  · intro z r y hz hr hy
    exact Jacobi.vector_apply (h.precond.size_inverse.trans hcols) hr hy
  · rw [heq, one_smul, one_smul, add_comm, Kkt.vector_extract_left, Vec.vector_hadamard hbY
      (by rw [h.dualInv_eq, Vec.size_recip, hdual]), Kkt.vector_extract_right, h.dualInv_eq,
      Vec.vector_recip hdual]
  · dsimp only [threshold]
    rw [Kkt.norm_eq_blocks hb, Scalar.exact_max]

omit hb hwarm in
/-- The second block is the one that goes with the first. -/
theorem exists_recover {x bY : Array K} (hx : x.size = A.cols) (hbY : bY.size = A.rows) :
    ∃ y, s.recover A x bY = .ok y ∧ y.size = A.rows ∧
      vector A.rows y = Kkt.recovered A dual (vector A.cols x) (vector A.rows bY) := by
  obtain ⟨hrows, -⟩ := dims_of_fingerprint hsuits.fingerprint_eq
  have hdual : dual.size = A.rows := h.size_dual.trans hrows
  obtain ⟨y, hy, hsize, heq⟩ := hsuits.constraint.exists_vector_gemv hx hbY (1 : K) (-1)
  refine ⟨Vec.hadamard y s.dualInv, ?_, (Vec.size_hadamard _ _).trans hsize, ?_⟩
  · rw [recover, hy]
    rfl
  · rw [Vec.vector_hadamard hsize (by rw [h.dualInv_eq, Vec.size_recip, hdual]), heq, h.dualInv_eq,
      Vec.vector_recip hdual, one_smul, neg_one_smul, ← sub_eq_add_neg, Kkt.recovered]

/-- **On matrices with the fingerprint a solve answers**, with the outcome of a run for the problem
    that it poses. -/
theorem exists_solve (tol : K) : ∃ q x result x' w' t z status,
    s.pose A P b warm tol = .ok (q, x) ∧ x.size = A.cols ∧ Poses A P primal dual b tol s.precond q ∧
    run q s.maxIter x s.work = .ok (result, x', w') ∧
    s.solve A P b warm tol = .ok (t, z, status) ∧ Outcome A P primal dual b tol t z status ∧
    t.info.lastIterations = result.iterations ∧
    (status = .success ↔ result.converged = true) := by
  obtain ⟨hrows, hcols⟩ := dims_of_fingerprint hsuits.fingerprint_eq
  obtain ⟨q, x, hpose, hx, hq⟩ := h.exists_pose hsuits hb hwarm tol
  obtain ⟨result, x', w', hrun, hx', hresidual, hconverged⟩ :=
    hq.denotes.exists_run hx (hcols ▸ h.work) s.maxIter
  have hbY : (b.extract A.cols b.size).size = A.rows := by simp; omega
  obtain ⟨y, hy, hsize, heq⟩ := h.exists_recover hsuits hx' hbY
  have hfinite : Vec.isFinite x' = true := by simp [Vec.isFinite]
  have hcols' : s.fingerprint.cols = A.cols := by rw [h.fingerprint_eq, hcols]
  have hsolve := solve_of_run hpose hrun (.inl ⟨hfinite, ⟨y, hcols'.symm ▸ hy, rfl⟩, rfl⟩)
  have hsuccess : (if result.converged then Status.success else .notConverged) = .success ↔
      result.converged = true := by
    cases result.converged <;> simp
  refine ⟨q, x, result, x', w', _, _, _, hpose, hx, hq, hrun, hsolve, ⟨?_, ?_, ?_, ?_, ?_⟩, rfl,
    hsuccess⟩
  · cases result.converged <;> simp
  · rw [Array.size_append, hx', hsize, Nat.add_comm]
  · rw [Kkt.blocks_append hx', heq, Kkt.vector_extract_right, Sum.elim_comp_inl, Sum.elim_comp_inr]
  · show _ = result.residual
    have hpositive := vector_pos (h.size_dual.trans hrows) h.dual_ok
    rw [Kkt.blocks_append hx', heq, Kkt.vector_extract_right,
      Kkt.system_residual _ _ fun i => (hpositive i).ne', euclidean_elim_zero, hresidual,
      Problem.residual, hq.rhs_eq, ← euclidean_neg, neg_sub]
  · rw [hsuccess, hconverged, hq.threshold_eq]
    rfl

/-- **On positive semidefinite data a solve succeeds within as many iterations as there are
    variables**, and none of its iterations breaks down or starts the search again. -/
theorem converges [IsStrictOrderedRing K] [ExactRoot K] {S : Matrix (Fin A.cols) (Fin A.cols) K}
    (hS : P.Stores S) (hsemidefinite : ∀ x, 0 ≤ x ⬝ᵥ S *ᵥ x) (hprimal : 0 < primal)
    (hlimit : setting = 0 ∨ A.cols ≤ setting.toNat) {tol : K} (htol : 0 < tol) :
    ∃ t z q x, s.solve A P b warm tol = .ok (t, z, .success) ∧ t.info.lastIterations ≤ A.cols ∧
      s.pose A P b warm tol = .ok (q, x) ∧
      ∀ state, Passes q x s.work state → state.rz ≠ 0 ∧ ∀ branch p, Iteration q state branch p →
        branch ≠ .brokenDown ∧ branch ≠ .restarted := by
  obtain ⟨hrows, hcols⟩ := dims_of_fingerprint hsuits.fingerprint_eq
  obtain ⟨q, x, result, x', w', t, z, status, hpose, hx, hq, hrun, hsolve, -, hiterations,
    hstatus⟩ := h.exists_solve hsuits hb hwarm tol
  have hM : PositiveDefinite (Kkt.reduced A (P.quadraticMatrix A.cols) primal dual) := by
    rw [hS.quadraticMatrix_eq]
    exact Kkt.positiveDefinite_reduced hS.isSymm hsemidefinite hprimal
      (vector_pos (h.size_dual.trans hrows) h.dual_ok)
  have hD := (hcols ▸ h.precond).positiveDefinite
  have hwork : s.work.Sized A.cols := hcols ▸ h.work
  have hthreshold : 0 < q.threshold := by
    rw [hq.threshold_eq]
    exact mul_pos htol (one_pos.trans_le (le_max_left 1 _))
  have hmaxIter : A.cols ≤ s.maxIter := by
    rw [h.maxIter_eq, hcols]
    exact le_iterationLimit hlimit
  obtain ⟨hconverged, hle⟩ := hq.denotes.converges hM hD hthreshold hx hwork hmaxIter hrun
  obtain rfl := hstatus.2 hconverged
  exact ⟨t, z, q, x, hsolve, hiterations.trans_le hle, hpose, fun state hpasses =>
    hq.denotes.never_stalls hM hD hthreshold hx hwork hpasses⟩

end Invariant

end IndirectSystem

end Quasidefinite
