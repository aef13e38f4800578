import Quasidefinite.Proofs.Indirect.Oblivious
import Quasidefinite.Proofs.Workspace.Record

/-!
# What an indirect system carries over

All that an indirect system holds besides its iterate, its scratch space and its counters is settled
by the data, the settings and the regularizers (`IndirectSystem.Built`): construction builds it, a
solve leaves it alone, and an update builds it anew for another dual regularizer, whatever stood
there before. Of the iterate a solve uses no more than it starts from, and of the scratch space
nothing. Two systems built in the same way that start from the same vector therefore come to the
same answer (`Built.solve_congr`), and every solve of fitting arguments answers
(`Built.exists_solve`). All of this holds in every arithmetic.
-/

namespace Quasidefinite

variable {α : Type} [Scalar α]

/-! ## 1. The diagonal and the preconditioner -/

theorem Sparse.size_diagonal {A : Sparse α} {diag z : Array α} (h : A.diagonal diag = .ok z) :
    z.size = diag.size := by
  obtain ⟨⟨⟩, -, h⟩ := Checked.bind_eq_ok.1 h
  obtain ⟨⟨⟩, -, h⟩ := Checked.bind_eq_ok.1 h
  refine Checked.foldRange_keeps (fun z : Array α => z.size = diag.size) h (Vec.size_fill _ _)
    fun s j t hs h => ?_
  obtain ⟨first, -, h⟩ := Checked.bind_eq_ok.1 h
  obtain ⟨last, -, h⟩ := Checked.bind_eq_ok.1 h
  refine Checked.foldRange_keeps (fun z : Array α => z.size = diag.size) h hs fun s p t hs h => ?_
  obtain ⟨row, -, h⟩ := Checked.bind_eq_ok.1 h
  dsimp only at h
  split at h
  · obtain ⟨v, -, h⟩ := Checked.bind_eq_ok.1 h
    exact (Checked.size_of_adjust h).trans hs
  · cases h
    exact hs

theorem ReducedOperator.size_diagonal {op : ReducedOperator α} {diag z : Array α}
    (h : op.diagonal diag = .ok z) : z.size = diag.size := by
  obtain ⟨d, hd, h⟩ := Checked.bind_eq_ok.1 h
  obtain ⟨w, -, h⟩ := Checked.bind_eq_ok.1 h
  obtain ⟨sum, hsum, h⟩ := Checked.bind_eq_ok.1 h
  cases h
  rw [Array.size_map, Vec.size_axpby hsum, Sparse.size_diagonal hd]

omit [Scalar α] in
/-- Writing over a vector that has been written over in whole leaves no trace of the first time. -/
theorem Vec.mapOver_mapOver {β : Type} (f : β → α) (x : Array α) {v w : Array β}
    (h : x.size ≤ w.size) : mapOver f (mapOver f x v) w = mapOver f x w := by
  refine Array.ext (by simp) fun i hi _ => ?_
  have hw : i < w.size := by
    simp only [size_mapOver] at hi
    omega
  simp [mapOver, overlay, hw]

/-- Fitted to another diagonal, a preconditioner forgets the one before. -/
theorem Jacobi.update_update (p : Jacobi α) {d e : Array α} (h : p.inverse.size ≤ e.size) :
    (p.update d).update e = p.update e := by
  unfold update
  by_cases henabled : p.enabled = true
  · simp only [if_pos henabled, Vec.mapOver_mapOver _ _ h]
  · simp only [if_neg henabled]

/-- The reduced operator answers on matrices that fit together. -/
theorem ReducedOperator.exists_apply_of_shaped {op : ReducedOperator α}
    (hA : op.constraint.Shaped) (hP : op.quadratic.Shaped)
    (hrows : op.quadratic.rows = op.constraint.cols)
    (hcols : op.quadratic.cols = op.constraint.cols)
    (hupper : op.upperOnly = decide op.quadratic.Upper) {y x work : Array α}
    (hy : y.size = op.constraint.cols) (hx : x.size = op.constraint.cols)
    (hwork : work.size = op.constraint.rows) : ∃ z u, op.apply y x work = .ok (z, u) := by
  have hy₀ : (Vec.mapOver (op.primal * ·) y x).size = op.constraint.cols :=
    (Vec.size_mapOver _ _ _).trans hy
  obtain ⟨y₁, hy₁, hsize₁⟩ : ∃ z, op.addQuadratic (Vec.mapOver (op.primal * ·) y x) x = .ok z ∧
      z.size = op.constraint.cols := by
    unfold addQuadratic
    rw [hupper]
    by_cases h : op.quadratic.Upper
    · obtain ⟨z, hz, hsize, -⟩ := Sparse.Triangle.exists_symv ⟨hP, hrows.trans hcols.symm, h⟩
        (hx.trans hcols.symm) (hy₀.trans hcols.symm) 1 1
      rw [if_pos (decide_eq_true h)]
      exact ⟨z, hz, hsize.trans hcols⟩
    · obtain ⟨z, hz, hsize, -⟩ := hP.exists_gemv (hx.trans hcols.symm) (hy₀.trans hrows.symm) 1 1
      rw [if_neg (by simpa using h)]
      exact ⟨z, hz, hsize.trans hrows⟩
  obtain ⟨w, hw, hsize, -⟩ := hA.exists_gemv hx hwork 1 0
  obtain ⟨y₂, hy₂, -, -⟩ := hA.exists_gemvT
    ((Vec.size_hadamard w op.weights).trans hsize) hsize₁ 1 1
  refine ⟨y₂, Vec.hadamard w op.weights, ?_⟩
  rw [apply, hy₁, Checked.ok_bind, hw, Checked.ok_bind]
  dsimp only
  rw [hy₂]
  rfl

namespace IndirectSystem

open ConjugateGradient

/-! ## 2. Systems built for the same data -/

/-- The preconditioner for the data, the settings and the regularizers. -/
def fitted (A P : Sparse α) (reg : Regularization α) (settings : Settings α) :
    Checked (Jacobi α) := do
  let op : ReducedOperator α :=
    { constraint := A
      quadratic := P
      upperOnly := ← P.isUpper
      primal := reg.primal
      weights := Vec.recip reg.dual }
  return (Jacobi.ones A.cols settings.precondition).update (← op.diagonal (Vec.zeros A.cols))

/-- **The system is built for the data, the settings and the regularizers**, its iterate, scratch
    space and counters apart. -/
structure Built (A P : Sparse α) (reg : Regularization α) (settings : Settings α)
    (s : IndirectSystem α) : Prop where
  fingerprint_eq : Fingerprint.of A P = .ok s.fingerprint
  primal_eq : s.primal = reg.primal
  dual_eq : s.dual = reg.dual
  dualInv_eq : s.dualInv = Vec.recip reg.dual
  precond_eq : fitted A P reg settings = .ok s.precond
  maxIter_eq : s.maxIter = iterationLimit settings.cgMaxIter A.cols
  warmStart_eq : s.warmStart = settings.warmStart
  values_eq : s.values = if settings.checkInputs then some (A.value, P.value) else none
  size_x : s.x.size = A.cols
  work : s.work.Sized A.cols

variable {A P : Sparse α} {reg : Regularization α} {settings : Settings α}
  {s t : IndirectSystem α} {b : Array α} {warm warm' : Option (Array α)} {tol : α}

/-- **Construction builds the system.** -/
theorem built_of_new (h : new A P reg settings = .ok s) :
    Built A P reg settings s ∧ s.x = Vec.zeros A.cols ∧ s.hasPrevious = false := by
  obtain ⟨f, hf, h⟩ := Checked.bind_eq_ok.1 h
  obtain ⟨op, hop, h⟩ := Checked.bind_eq_ok.1 h
  obtain ⟨diag, hdiag, h⟩ := Checked.bind_eq_ok.1 h
  cases h
  obtain ⟨upper, hupper, hop⟩ := Checked.bind_eq_ok.1 hop
  cases hop
  dsimp only at hdiag
  rw [(dims_of_fingerprint hf).2] at hdiag
  refine ⟨{
    fingerprint_eq := hf
    primal_eq := rfl
    dual_eq := rfl
    dualInv_eq := rfl
    precond_eq := ?_
    maxIter_eq := rfl
    warmStart_eq := rfl
    values_eq := rfl
    size_x := Vec.size_zeros _
    work := Scratch.sized_new _ }, rfl, rfl⟩
  unfold fitted
  rw [hupper, Checked.ok_bind]
  dsimp only
  rw [hdiag]
  rfl

/-! ## 3. Solves that answer -/

/-- **A solve answers** if the matrices and vectors that it is given fit together and fit what the
    system keeps. -/
theorem exists_solve_of_fits (hdims : s.fingerprint.rows = A.rows ∧ s.fingerprint.cols = A.cols)
    (hx : s.x.size = A.cols) (hwork : s.work.Sized A.cols) (hA : A.Shaped) (hP : P.Shaped)
    (hrows : P.rows = A.cols) (hcols : P.cols = A.cols) (hb : b.size = A.rows + A.cols)
    (hwarm : ∀ v ∈ warm, v.size = A.rows + A.cols) (tol : α) :
    ∃ t z status, s.solve A P b warm tol = .ok (t, z, status) := by
  have hbx : (b.extract 0 A.cols).size = A.cols := by simp; omega
  have hbY : (b.extract A.cols b.size).size = A.rows := by simp; omega
  have hslice : Checked.slice b A.cols b.size = .ok (b.extract A.cols b.size) :=
    Checked.slice_eq b (by omega) (Nat.le_refl _)
  obtain ⟨x₀, hx₀⟩ : ∃ x, s.start warm = .ok x := by
    cases warm with
    | none => exact ⟨_, rfl⟩
    | some v =>
      have hv : A.cols ≤ v.size := by rw [hwarm v rfl]; omega
      refine ⟨v.extract 0 A.cols, ?_⟩
      rw [start, hdims.2, Checked.slice_eq v (Nat.zero_le _) hv, Checked.ok_bind]
      exact Vec.copy_eq_ok.2 ⟨by simp [hx, hv], rfl⟩
  have hsize₀ : x₀.size = A.cols := (size_start hx₀).trans hx
  obtain ⟨rhs, hrhs, hsizerhs, -⟩ := hA.exists_gemvT
    (x := Vec.hadamard (b.extract A.cols b.size) s.dualInv)
    ((Vec.size_hadamard _ _).trans hbY) hbx 1 1
  have hpose : s.pose A P b warm tol = .ok (_, x₀) := pose_eq_ok.2 ⟨_, _, rhs, _,
    by rw [hdims.2]; exact Checked.slice_eq b (Nat.zero_le _) (by omega),
    by rw [hdims.2]; exact hslice, by rw [hbY, hdims.1], hrhs, hx₀, operator_eq hP, rfl⟩
  have hfits : Problem.Fits _ A.cols :=
    { keeps_of_pose hpose with
      size_rhs := hsizerhs
      exists_op := fun {y v} hy hv => by
        obtain ⟨z, u, happly⟩ := (s.reducedOperator A P).exists_apply_of_shaped hA hP hrows hcols
          rfl hy hv hbY
        exact ⟨z, by dsimp only; rw [happly]; rfl⟩
      exists_precond := fun {z r} hz hr => ⟨_, Jacobi.apply_eq_ok.2 ⟨hz.trans hr.symm, rfl⟩⟩ }
  obtain ⟨result, x, work, hrun⟩ := hfits.exists_run hsize₀ hwork s.maxIter
  have hsizex := (sized_of_run hfits.toKeeps hsize₀ hwork hrun).1
  obtain ⟨y, hy, -, -⟩ := hA.exists_gemv hsizex hbY 1 (-1)
  by_cases hfinite : Vec.isFinite x = true
  · have hrecover : s.recover A x (b.extract s.fingerprint.cols b.size) =
        .ok (Vec.hadamard y s.dualInv) := by
      rw [recover, hdims.2, hy]
      rfl
    exact ⟨_, _, _, solve_of_run hpose hrun (.inl ⟨hfinite, ⟨_, hrecover, rfl⟩, rfl⟩)⟩
  · rw [Bool.not_eq_true] at hfinite
    exact ⟨_, _, _, solve_of_run hpose hrun (.inr ⟨hfinite, rfl, rfl⟩)⟩

namespace Built

variable (hs : Built A P reg settings s)

include hs

theorem dims : s.fingerprint.rows = A.rows ∧ s.fingerprint.cols = A.cols :=
  dims_of_fingerprint hs.fingerprint_eq

/-- **A solve leaves alone what was built**, whatever its arguments. -/
theorem solve {B Q : Sparse α} {z : Array α} {status : Status}
    (h : s.solve B Q b warm tol = .ok (t, z, status)) : Built A P reg settings t := by
  obtain ⟨q, x₀, result, x, work, hpose, hrun, rfl, -⟩ := cases_solve h
  obtain ⟨-, -, -, -, -, -, -, -, hstart, -, -⟩ := pose_eq_ok.1 hpose
  obtain ⟨hx, hwork⟩ := sized_of_run (keeps_of_pose hpose) ((size_start hstart).trans hs.size_x)
    hs.work hrun
  exact { hs with size_x := hx, work := hwork }

/-- **An update builds the system anew** for the new dual regularizer. -/
theorem update (new : Regularization α) (hprimal : new.primal = reg.primal)
    (h : s.update A P new.dual = .ok (t, .ok ())) :
    Built A P new settings t ∧ t.x = s.x ∧ t.hasPrevious = s.hasPrevious := by
  rcases cases_update h with ⟨-, hresult⟩ | ⟨-, -, -, h⟩
  · cases hresult
  obtain ⟨op, hop, h⟩ := Checked.bind_eq_ok.1 h
  obtain ⟨diag, hdiag, h⟩ := Checked.bind_eq_ok.1 h
  cases h
  obtain ⟨upper, hupper, hop⟩ := Checked.bind_eq_ok.1 hop
  cases hop
  dsimp only at hdiag
  rw [hs.dims.2, hs.primal_eq, ← hprimal] at hdiag
  refine ⟨{ hs with
    primal_eq := hs.primal_eq.trans hprimal.symm
    dual_eq := rfl
    dualInv_eq := rfl
    precond_eq := ?_ }, rfl, rfl⟩
  have hfitted := hs.precond_eq
  unfold fitted at hfitted ⊢
  rw [hupper, Checked.ok_bind] at hfitted ⊢
  obtain ⟨old, -, hfitted⟩ := Checked.bind_eq_ok.1 hfitted
  dsimp only
  rw [hdiag, Checked.ok_bind, ← Except.ok.inj hfitted, Jacobi.update_update]
  · rfl
  · rw [ReducedOperator.size_diagonal hdiag, Vec.size_zeros]
    exact Nat.le_of_eq Array.size_replicate

/-- **A solve with fitting arguments answers.** -/
theorem exists_solve (hA : A.Shaped) (hP : P.Shaped) (hrows : P.rows = A.cols)
    (hcols : P.cols = A.cols) (hb : b.size = A.rows + A.cols)
    (hwarm : ∀ v ∈ warm, v.size = A.rows + A.cols) (tol : α) :
    ∃ t z status, s.solve A P b warm tol = .ok (t, z, status) :=
  exists_solve_of_fits hs.dims hs.size_x hs.work hA hP hrows hcols hb hwarm tol

end Built

end IndirectSystem

end Quasidefinite
