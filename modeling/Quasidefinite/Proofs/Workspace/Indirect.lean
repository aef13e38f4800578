import Quasidefinite.Proofs.Indirect.System
import Quasidefinite.Proofs.Workspace.Session

/-!
# Sessions of the indirect method

A session of the indirect method keeps the invariant of its system, whatever matrices its calls are
given (`Session.Reachable.ofIndirect`). So in every session a solve on matrices with the fingerprint
of the workspace reports the residual of the whole system (`Workspace.indirect_reports_residual`).
If the quadratic term is positive semidefinite, it succeeds within as many iterations as there are
variables (`Workspace.indirect_converges`).
-/

namespace Quasidefinite

open ConjugateGradient
open scoped Scalar Matrix

/-! ## 1. Calls -/

namespace Workspace

variable {α : Type} [Scalar α] {A P : Sparse α}

/-- A workspace for the indirect method holds an indirect system. -/
theorem run_buildChecked_indirect {ordering : FillOrdering} {reg : Regularization α}
    {settings : Settings α} (hmethod : settings.method = .indirect) {w : Workspace α} :
    (buildChecked ordering A P reg settings).run = .ok (.ok w) ↔
      ∃ s, IndirectSystem.new A P reg settings = .ok s ∧ w = .indirect s := by
  unfold buildChecked
  rw [hmethod]
  dsimp only
  rw [Attempt.run_bind_eq_ok]
  refine exists_congr fun s => and_congr Attempt.run_lift_eq_ok ?_
  rw [Attempt.run_pure_eq_ok, eq_comm]

end Workspace

/-- **Construction for the indirect method succeeds** once the checks pass. -/
theorem Workspace.exists_new_indirect {α : Type} [Scalar α] {A P : Sparse α}
    {reg : Regularization α} {settings : Settings α} (hA : A.Shaped) (hP : P.Shaped)
    (hadmissible : Workspace.Admissible A P settings) (hdual : reg.dual.size = A.rows)
    (hmethod : settings.method = .indirect) (ordering : FillOrdering) :
    ∃ s, (Workspace.new ordering A P reg settings).run = .ok (.ok (.indirect s)) ∧
      Fingerprint.of A P = .ok s.fingerprint := by
  obtain ⟨s, hs⟩ := IndirectSystem.exists_new hA hP hadmissible.rows_eq hadmissible.cols_eq hdual
    settings
  refine ⟨s, ?_, IndirectSystem.fingerprint_of_new hs⟩
  rw [Workspace.run_new_of_admissible hadmissible hdual,
    Workspace.run_buildChecked_indirect hmethod]
  exact ⟨s, hs, rfl⟩

/-! ## 2. Sessions -/

variable {K : Type} [Field K] [LinearOrder K] [SquareRoot K]

namespace Session

/-- **The sessions of the indirect method**: the system keeps its invariant for the dual
    regularizer accepted last. -/
inductive OfIndirect (primal : K) (setting : UInt32) : Session K → Prop
  | intro {s : IndirectSystem K} {dual : Array K} (f : Fingerprint)
      (h : IndirectSystem.Invariant f primal setting dual s) :
      OfIndirect primal setting ⟨.indirect s, dual⟩

variable [IsStrictOrderedRing K] {reg : Regularization K} {settings : Settings K}

/-- A workspace that was built begins a session of the indirect method. -/
theorem ofIndirect_of_new {ordering : FillOrdering} {A P : Sparse K} {w : Workspace K}
    (hmethod : settings.method = .indirect)
    (h : (Workspace.new ordering A P reg settings).run = .ok (.ok w)) :
    OfIndirect reg.primal settings.cgMaxIter ⟨w, reg.dual⟩ := by
  obtain ⟨hadmissible, hdual⟩ := Workspace.admissible_of_new h
  rw [Workspace.run_new_of_admissible hadmissible hdual,
    Workspace.run_buildChecked_indirect hmethod] at h
  obtain ⟨s, hnew, rfl⟩ := h
  obtain ⟨f, -, hs⟩ := IndirectSystem.invariant_of_new hdual hnew
  exact ⟨f, hs⟩

/-- A call that answers keeps the session one of the indirect method, with whatever matrices. -/
theorem OfIndirect.call {primal : K} {setting : UInt32} {A P : Sparse K} {c : Call K}
    {s t : Session K} (hs : OfIndirect primal setting s) (h : s.call A P c = .ok t) :
    OfIndirect primal setting t := by
  obtain ⟨f, hs⟩ := hs
  cases c with
  | solve b warm tol =>
    obtain ⟨⟨w, z, status⟩, hsolve, h⟩ := Checked.bind_eq_ok.1 h
    cases h
    rcases Workspace.cases_solve hsolve with ⟨rfl, -⟩ | ⟨-, -, hsolve⟩
    · exact ⟨f, hs⟩
    · obtain ⟨t, hsystem, rfl⟩ := Workspace.solveChecked_indirect_eq_ok.1 hsolve
      exact ⟨f, hs.solve hsystem⟩
  | update dual =>
    obtain ⟨⟨w, result⟩, hupdate, h⟩ := Checked.bind_eq_ok.1 h
    cases h
    rcases Workspace.cases_update hupdate with ⟨rfl, hpassed⟩ | ⟨hcheck, hupdate⟩
    · dsimp only
      rw [isOk_of_not_passed hpassed]
      exact ⟨f, hs⟩
    · obtain ⟨t, hsystem, rfl⟩ := Workspace.updateChecked_indirect_eq_ok.1 hupdate
      rw [Workspace.checkUpdate_eq_ok, Workspace.fingerprint, hs.fingerprint_eq] at hcheck
      exact ⟨f, hs.update hcheck.1 hcheck.2 hsystem⟩

/-- **Every reachable session keeps the invariant.** -/
theorem Reachable.ofIndirect {ordering : FillOrdering} {A P : Sparse K}
    (hmethod : settings.method = .indirect) {s : Session K}
    (hs : Reachable ordering A P reg settings s) :
    OfIndirect reg.primal settings.cgMaxIter s := by
  induction hs with
  | new w h => exact ofIndirect_of_new hmethod h
  | call B Q c s t _ h ih => exact ih.call h

end Session

/-! ## 3. A small problem over the real numbers -/

namespace Sample

/-- One constraint on two variables. -/
noncomputable def realConstraint : Sparse ℝ where
  rows := 1
  cols := 2
  colStart := #[0, 1, 2]
  rowIndex := #[0, 0]
  value := #[1, -1]

/-- The upper triangle of a quadratic term. -/
noncomputable def realTriangle : Sparse ℝ where
  rows := 2
  cols := 2
  colStart := #[0, 1, 3]
  rowIndex := #[0, 0, 1]
  value := #[2, 1, 3]

/-- The quadratic term itself, stored in full. -/
noncomputable def realFull : Sparse ℝ where
  rows := 2
  cols := 2
  colStart := #[0, 2, 4]
  rowIndex := #[0, 1, 0, 1]
  value := #[2, 1, 1, 3]

/-- Regularizers with the given dual entry. -/
noncomputable def realRegularization (dual : ℝ) (h : 0 < dual) : Regularization ℝ where
  primal := 1 / 2
  dual := #[dual]
  primal_ok := by simp
  dual_ok := by simp [h]

/-- The standard settings, for the given method. -/
noncomputable def realSettings (direct : Bool) : Settings ℝ := { Settings.standard with direct }

theorem realConstraint_ok : realConstraint.checkFormat.run = .ok (.ok ()) := by decide +kernel

theorem realTriangle_ok : realTriangle.checkFormat.run = .ok (.ok ()) := by decide +kernel

theorem realTriangle_upper : realTriangle.Upper := by decide +kernel

theorem realSettings_ok (direct : Bool) : (realSettings direct).validate = .ok () := by
  have hengine : Settings.validateEngine "auto" = .ok () := by decide +kernel
  have hscale : Settings.validateDenseScale 1.5 = .ok () := by decide +kernel
  unfold Settings.validate realSettings Settings.standard
  simp only [hengine, hscale]
  norm_num
  rfl

theorem realTriangle_dense : realTriangle.dense 0 0 = 2 ∧ realTriangle.dense 0 1 = 1 ∧
    realTriangle.dense 1 1 = 3 := by
  simp [Sparse.dense, coeff, Sparse.entries, Sparse.positions, Sparse.start, Sparse.row, Sparse.val,
    List.range', realTriangle]

/-- The quadratic term is positive semidefinite. -/
theorem realTriangle_semidefinite (x : Fin 2 → ℝ) :
    0 ≤ x ⬝ᵥ realTriangle.symmetricMatrix 2 *ᵥ x := by
  simp only [dotProduct, Matrix.mulVec, Fin.sum_univ_two, Sparse.symmetricMatrix_apply,
    Sparse.symmetric, Fin.val_zero, Fin.val_one, min_self, max_self, zero_le, min_eq_left,
    min_eq_right, max_eq_left, max_eq_right, realTriangle_dense]
  nlinarith [sq_nonneg (x 0 + x 1), sq_nonneg (x 0), sq_nonneg (x 1)]

/-- The small problem has a workspace for the indirect method. -/
theorem exists_new_real_indirect (dual : ℝ) (h : 0 < dual) : ∃ s,
    (Workspace.new .minimumDegree realConstraint realTriangle (realRegularization dual h)
      (realSettings false)).run = .ok (.ok (.indirect s)) ∧
      Fingerprint.of realConstraint realTriangle = .ok s.fingerprint := by
  have hA := Sparse.wellFormed_of_checkFormat realConstraint_ok
  have hP := Sparse.wellFormed_of_checkFormat realTriangle_ok
  exact Workspace.exists_new_indirect hA.toShaped hP.toShaped
    ⟨realSettings_ok false, rfl, rfl, fun _ => Workspace.checkMatrices_eq_ok realConstraint_ok
      realTriangle_ok rfl (.inl realTriangle_upper)⟩ rfl rfl .minimumDegree

end Sample

/-! ## 4. Solves -/

namespace IndirectSystem

namespace Invariant

variable {f : Fingerprint} {A P : Sparse K} {primal : K} {setting : UInt32} {dual : Array K}
  {s : IndirectSystem K} (h : Invariant f primal setting dual s)
  (hfingerprint : Fingerprint.of A P = .ok f) {b : Array K} {warm : Option (Array K)}

include h hfingerprint

/-- Of the matrices with the fingerprint those with a fitting quadratic term are admitted. -/
theorem admits_eq : (Workspace.indirect s).fingerprint.admits A P =
    .ok (decide (P.rows = A.cols ∧ P.cols = A.cols)) := by
  obtain ⟨-, hcols⟩ := dims_of_fingerprint hfingerprint
  rw [Workspace.fingerprint, h.fingerprint_eq, Fingerprint.admits, hfingerprint, Checked.ok_bind,
    hcols, Checked.pure_eq_ok]
  simp

theorem workspace_solve_of_suits (hsuits : P.rows = A.cols ∧ P.cols = A.cols)
    (hb : b.size = A.rows + A.cols) (hwarm : ∀ x ∈ warm, x.size = A.rows + A.cols) {tol : K}
    (htol : 0 < tol) {t : IndirectSystem K} {z : Array K} {status : Status}
    (hsolve : s.solve A P b warm tol = .ok (t, z, status)) :
    (Workspace.indirect s).solve A P b warm tol = .ok (.indirect t, z, status) := by
  obtain ⟨hrows, hcols⟩ := dims_of_fingerprint hfingerprint
  have hsize : f.size = A.rows + A.cols := by rw [Fingerprint.size, hrows, hcols]
  have hvalid : (Workspace.indirect s).validSolve b warm tol = true := by
    rw [Workspace.validSolve_iff, Workspace.fingerprint, h.fingerprint_eq, hsize]
    exact ⟨hb, hwarm, by simpa using htol⟩
  rw [Workspace.solve_of_admits (h.admits_eq hfingerprint), decide_eq_true hsuits, hvalid,
    Bool.and_self, if_pos rfl]
  exact Workspace.solveChecked_indirect_eq_ok.2 ⟨t, hsolve, rfl⟩

theorem workspace_solve_of_not_suits (hsuits : ¬ (P.rows = A.cols ∧ P.cols = A.cols)) (tol : K) :
    (Workspace.indirect s).solve A P b warm tol = .ok (.indirect s, b, .invalidInput) := by
  rw [Workspace.solve_of_admits (h.admits_eq hfingerprint), decide_eq_false hsuits, Bool.false_and,
    if_neg Bool.false_ne_true]

end Invariant

end IndirectSystem

namespace Workspace

variable [IsStrictOrderedRing K]

/-- **The indirect method reports the residual of the whole system.** In every session, a solve on
    well-formed matrices with the fingerprint of the workspace answers. Unless the dimensions of the
    quadratic term are wrong it succeeds or has not converged; then the second equation holds
    exactly, the residual that is reported is the norm of that of the whole system, for the dual
    regularizer accepted last, and it decides which of the two it is. -/
theorem indirect_reports_residual {ordering : FillOrdering} {A₀ P₀ : Sparse K}
    {reg : Regularization K} {settings : Settings K} (hmethod : settings.method = .indirect)
    {s : Session K} (hs : s.Reachable ordering A₀ P₀ reg settings) {A P : Sparse K}
    (hA : A.checkFormat.run = .ok (.ok ()))
    (hP : P.checkFormat.run = .ok (.ok ()))
    (hfingerprint : Fingerprint.of A P = .ok s.workspace.fingerprint) {b : Array K}
    (hb : b.size = A.rows + A.cols) {warm : Option (Array K)}
    (hwarm : ∀ x ∈ warm, x.size = A.rows + A.cols) {tol : K} (htol : 0 < tol) :
    ∃ t z status, s.workspace.solve A P b warm tol = .ok (t, z, status) ∧
      (P.rows = A.cols ∧ P.cols = A.cols → status = .success ∨ status = .notConverged) ∧
      (status = .success ∨ status = .notConverged →
        z.size = A.rows + A.cols ∧
        A.matrix A.rows A.cols *ᵥ (Kkt.blocks A z ∘ Sum.inl) -
          vector A.rows s.dual * (Kkt.blocks A z ∘ Sum.inr) = Kkt.blocks A b ∘ Sum.inr ∧
        euclidean (Kkt.system A (P.quadraticMatrix A.cols) reg.primal s.dual *ᵥ Kkt.blocks A z -
          Kkt.blocks A b) = t.info.lastResidual ∧
        (status = .success ↔
          t.info.lastResidual ≤ tol * max 1 (euclidean (Kkt.blocks A b)))) := by
  obtain ⟨f, h⟩ := hs.ofIndirect hmethod
  rw [fingerprint, h.fingerprint_eq] at hfingerprint
  by_cases hdims : P.rows = A.cols ∧ P.cols = A.cols
  · have hsuits : IndirectSystem.Suits f A P := ⟨Sparse.wellFormed_of_checkFormat hA,
      Sparse.wellFormed_of_checkFormat hP, hfingerprint, hdims.1, hdims.2⟩
    obtain ⟨q, x, result, x', w', t, z, status, -, -, -, -, hsolve, houtcome, -⟩ :=
      h.exists_solve hsuits hb hwarm tol
    refine ⟨_, z, status,
      h.workspace_solve_of_suits hfingerprint hdims hb hwarm htol hsolve,
      fun _ => houtcome.cases_status, fun _ => ⟨houtcome.size_eq, ?_, houtcome.residual_eq,
        houtcome.success_iff⟩⟩
    obtain ⟨hrows, -⟩ := IndirectSystem.dims_of_fingerprint hfingerprint
    have hpositive := vector_pos (h.size_dual.trans hrows) h.dual_ok
    rw [houtcome.second_eq]
    exact Kkt.mulVec_sub_recovered (fun i => (hpositive i).ne') _ _
  · refine ⟨_, b, _, h.workspace_solve_of_not_suits hfingerprint hdims tol,
      fun hdims' => absurd hdims' hdims, ?_⟩
    rintro (hstatus | hstatus) <;> cases hstatus

/-- The small problem is solved from the start `(1, 1)`, and the residual that is reported is the
    Euclidean norm of that of the system. -/
theorem indirect_reports_residual_sample : ∃ w t z status,
    (new .minimumDegree Sample.realConstraint Sample.realTriangle
      (Sample.realRegularization 3 three_pos) (Sample.realSettings false)).run = .ok (.ok w) ∧
    w.solve Sample.realConstraint Sample.realTriangle #[1, 2, 3] (some #[1, 1, 0]) (1 / 2) =
      .ok (t, z, status) ∧
    (status = .success ∨ status = .notConverged) ∧
    euclidean (Kkt.system Sample.realConstraint (Sample.realTriangle.quadraticMatrix 2) (1 / 2)
        #[3] *ᵥ Kkt.blocks Sample.realConstraint z -
          Kkt.blocks Sample.realConstraint #[1, 2, 3]) = t.info.lastResidual := by
  obtain ⟨s, hnew, hfingerprint⟩ := Sample.exists_new_real_indirect 3 three_pos
  obtain ⟨t, z, status, hsolve, hstatus, houtcome⟩ := indirect_reports_residual rfl
    (.new _ hnew) Sample.realConstraint_ok Sample.realTriangle_ok hfingerprint
    (b := #[1, 2, 3]) rfl
    (show ∀ x ∈ some #[1, 1, 0], x.size = 1 + 2 by simp) (one_half_pos : 0 < (1 / 2 : ℝ))
  have hstatus := hstatus ⟨rfl, rfl⟩
  obtain ⟨-, -, hresidual, -⟩ := houtcome hstatus
  exact ⟨_, t, z, status, hnew, hsolve, hstatus, hresidual⟩

/-- **Conjugate gradients finish.** If the quadratic term is positive semidefinite and the number of
    iterations is not limited to fewer than there are variables, a solve in any session succeeds
    within that many iterations, from every start. No iteration breaks down or starts the search
    again, and no division is by zero. -/
theorem indirect_converges [ExactRoot K] {ordering : FillOrdering} {A₀ P₀ : Sparse K}
    {reg : Regularization K} {settings : Settings K} (hmethod : settings.method = .indirect)
    {s : Session K} (hs : s.Reachable ordering A₀ P₀ reg settings) {A P : Sparse K}
    (hA : A.checkFormat.run = .ok (.ok ()))
    (hP : P.checkFormat.run = .ok (.ok ()))
    (hfingerprint : Fingerprint.of A P = .ok s.workspace.fingerprint)
    (hrows : P.rows = A.cols) (hcols : P.cols = A.cols)
    {S : Matrix (Fin A.cols) (Fin A.cols) K} (hS : P.Stores S)
    (hsemidefinite : ∀ x, 0 ≤ x ⬝ᵥ S *ᵥ x)
    (hlimit : settings.cgMaxIter = 0 ∨ A.cols ≤ settings.cgMaxIter.toNat) {b : Array K}
    (hb : b.size = A.rows + A.cols) {warm : Option (Array K)}
    (hwarm : ∀ x ∈ warm, x.size = A.rows + A.cols) {tol : K} (htol : 0 < tol) :
    ∃ t z, s.workspace.solve A P b warm tol = .ok (t, z, .success) ∧
      t.info.lastIterations ≤ A.cols ∧
      ∃ system q x, s.workspace = .indirect system ∧ system.pose A P b warm tol = .ok (q, x) ∧
        ∀ state, Passes q x system.work state → state.rz ≠ 0 ∧ ∀ branch p,
          Iteration q state branch p → branch ≠ .brokenDown ∧ branch ≠ .restarted := by
  obtain ⟨f, h⟩ := hs.ofIndirect hmethod
  rename_i system dual
  rw [fingerprint, h.fingerprint_eq] at hfingerprint
  have hsuits : IndirectSystem.Suits f A P := ⟨Sparse.wellFormed_of_checkFormat hA,
    Sparse.wellFormed_of_checkFormat hP, hfingerprint, hrows, hcols⟩
  obtain ⟨t, z, q, x, hsolve, hiterations, hpose, hpasses⟩ := h.converges hsuits hb hwarm hS
    hsemidefinite (by simpa using reg.primal_ok) hlimit htol
  exact ⟨_, z, h.workspace_solve_of_suits hfingerprint ⟨hrows, hcols⟩ hb hwarm htol hsolve,
    hiterations, system, q, x, rfl, hpose, hpasses⟩

/-- The small problem is solved within two iterations. -/
theorem indirect_converges_sample : ∃ w t z,
    (new .minimumDegree Sample.realConstraint Sample.realTriangle
      (Sample.realRegularization 3 three_pos) (Sample.realSettings false)).run = .ok (.ok w) ∧
    w.solve Sample.realConstraint Sample.realTriangle #[1, 2, 3] none (1 / 1000) =
      .ok (t, z, .success) ∧ t.info.lastIterations ≤ 2 := by
  obtain ⟨s, hnew, hfingerprint⟩ := Sample.exists_new_real_indirect 3 three_pos
  obtain ⟨t, z, hsolve, hiterations, -⟩ := indirect_converges rfl
    (.new _ hnew) Sample.realConstraint_ok Sample.realTriangle_ok hfingerprint
    rfl rfl (.triangle Sample.realTriangle_upper rfl) Sample.realTriangle_semidefinite (.inl rfl)
    (b := #[1, 2, 3]) rfl (show ∀ x ∈ (none : Option (Array ℝ)), x.size = 1 + 2 by simp)
    (show (0 : ℝ) < 1 / 1000 by norm_num)
  exact ⟨_, t, z, hnew, hsolve, hiterations⟩

end Workspace

end Quasidefinite
