import Quasidefinite.Proofs.Workspace.Exact
import Quasidefinite.Proofs.Workspace.Indirect
import Quasidefinite.Proofs.Workspace.Quasidefinite

/-!
# The methods agree

The direct method solves the system exactly, the indirect method up to a residual of which the
second block is zero. The difference of the two solutions is therefore one of the reduced system,
and since the reduced matrix is coercive, the tolerance bounds it (`Workspace.methods_agree`).
-/

namespace Quasidefinite

open scoped Scalar Matrix

/-! ## 1. Solves that were carried out -/

section Any

variable {α : Type} [Scalar α] {A P : Sparse α}

/-- A solve that does not refuse its arguments has valid ones. -/
theorem Workspace.valid_of_solve {w t : Workspace α} {b z : Array α} {warm : Option (Array α)}
    {tol : α} {status : Status} (h : w.solve A P b warm tol = .ok (t, z, status))
    (hstatus : status ≠ .invalidInput) :
    w.fingerprint.admits A P = .ok true ∧ w.validSolve b warm tol = true := by
  rcases Workspace.cases_solve h with ⟨-, -, hinvalid⟩ | ⟨hadmits, hvalid, -⟩
  · exact absurd hinvalid hstatus
  · exact ⟨hadmits, hvalid⟩

omit [Scalar α] in
theorem Fingerprint.of_admits {f : Fingerprint} (h : f.admits A P = .ok true) :
    Fingerprint.of A P = .ok f ∧ P.rows = A.cols ∧ P.cols = A.cols := by
  unfold Fingerprint.admits at h
  obtain ⟨g, hg, h⟩ := Checked.bind_eq_ok.1 h
  have hall : f = g ∧ P.rows = f.cols ∧ P.cols = f.cols := by simpa using h
  obtain ⟨rfl, hrows, hcols⟩ := hall
  obtain ⟨-, hdims⟩ := IndirectSystem.dims_of_fingerprint hg
  exact ⟨hg, hrows.trans hdims, hcols.trans hdims⟩

end Any

variable {K : Type} [Field K] [LinearOrder K] [SquareRoot K]

namespace Session

/-- A solve by the direct method that succeeds has solved the system. -/
theorem OfDirect.solves {ordering : FillOrdering} {A P U : Sparse K} {primal : K}
    {settings : Settings K} {s : Session K} (hs : OfDirect ordering A P U primal settings s)
    (hreg : settings.regularize = false) {S : Matrix (Fin A.cols) (Fin A.cols) K}
    (hS : P.Stores S) {b z : Array K} {warm : Option (Array K)} {tol : K} {t : Workspace K}
    (hsolve : s.workspace.solve A P b warm tol = .ok (t, z, .success)) :
    Kkt.system A S primal s.dual *ᵥ Kkt.blocks A z = Kkt.blocks A b := by
  obtain ⟨h, hwritten⟩ := hs
  rename_i system written dual
  obtain ⟨-, hvalid⟩ := Workspace.valid_of_solve hsolve (by rintro ⟨⟩)
  by_cases husable : system.usable = true
  · obtain ⟨t', z', hsystem, -, heq, -⟩ :=
      h.exists_exact_solve hreg husable hS (h.validSolve_iff.1 hvalid).1
    obtain ⟨-, rfl⟩ : Workspace.direct t' = t ∧ z' = z := by
      simpa using (h.workspace_solve_of_valid hvalid hsystem).symm.trans hsolve
    exact hwritten husable ▸ heq
  · have hfailed := h.workspace_solve_of_valid hvalid
      (DirectSystem.Invariant.solve_of_not_usable husable b)
    cases hfailed.symm.trans hsolve

/-- A solve by the indirect method that succeeds leaves a residual below the tolerance. -/
theorem OfIndirect.solves {primal : K} {setting : UInt32} {s : Session K}
    (hs : OfIndirect primal setting s) {A P : Sparse K} (hA : A.WellFormed) (hP : P.WellFormed)
    {S : Matrix (Fin A.cols) (Fin A.cols) K} (hS : P.Stores S) {b z : Array K}
    {warm : Option (Array K)} {tol : K} {t : Workspace K}
    (hsolve : s.workspace.solve A P b warm tol = .ok (t, z, .success)) :
    (∀ i : Fin A.rows, 0 < vector A.rows s.dual i) ∧
    Kkt.blocks A z ∘ Sum.inr =
      Kkt.recovered A s.dual (Kkt.blocks A z ∘ Sum.inl) (Kkt.blocks A b ∘ Sum.inr) ∧
    euclidean (Kkt.system A S primal s.dual *ᵥ Kkt.blocks A z - Kkt.blocks A b) ≤
      tol * max 1 (euclidean (Kkt.blocks A b)) := by
  obtain ⟨f, h⟩ := hs
  obtain ⟨hadmits, hvalid⟩ := Workspace.valid_of_solve hsolve (by rintro ⟨⟩)
  obtain ⟨hfingerprint, hrows, hcols⟩ := Fingerprint.of_admits hadmits
  rw [Workspace.fingerprint, h.fingerprint_eq] at hfingerprint
  obtain ⟨hfrows, hfcols⟩ := IndirectSystem.dims_of_fingerprint hfingerprint
  rw [Workspace.validSolve_iff, Workspace.fingerprint, h.fingerprint_eq, Fingerprint.size, hfrows,
    hfcols] at hvalid
  obtain ⟨hb, hwarm, htol⟩ := hvalid
  obtain ⟨q, x, result, x', w', t', z', status, -, -, -, -, hsystem, houtcome, -⟩ :=
    h.exists_solve ⟨hA, hP, hfingerprint, hrows, hcols⟩ hb hwarm tol
  have hworkspace := h.workspace_solve_of_suits hfingerprint ⟨hrows, hcols⟩ hb hwarm
    (by simpa using htol) hsystem
  obtain ⟨-, rfl, rfl⟩ : Workspace.indirect t' = t ∧ z' = z ∧ status = .success := by
    simpa using hworkspace.symm.trans hsolve
  refine ⟨vector_pos (h.size_dual.trans hfrows) h.dual_ok, houtcome.second_eq, ?_⟩
  rw [← hS.quadraticMatrix_eq, houtcome.residual_eq]
  exact houtcome.success_iff.1 rfl

end Session

/-! ## 2. The difference of the solutions -/

namespace Kkt

/-- **A vector whose second block is the recovered one differs from the solution by a solution of
    the reduced system**, with its residual for the right hand side. -/
theorem reduced_mulVec_sub {A : Sparse K} {S : Matrix (Fin A.cols) (Fin A.cols) K} {primal : K}
    {dual : Array K} (hdual : ∀ i : Fin A.rows, vector A.rows dual i ≠ 0)
    {b u v : Fin A.cols ⊕ Fin A.rows → K} (hu : system A S primal dual *ᵥ u = b)
    (hv : v ∘ Sum.inr = recovered A dual (v ∘ Sum.inl) (b ∘ Sum.inr)) :
    Sum.elim (reduced A S primal dual *ᵥ (v ∘ Sum.inl - u ∘ Sum.inl)) 0 =
        system A S primal dual *ᵥ v - b ∧
      v ∘ Sum.inr - u ∘ Sum.inr =
        A.matrix A.rows A.cols *ᵥ (v ∘ Sum.inl - u ∘ Sum.inl) * (vector A.rows dual)⁻¹ := by
  have hu' : u ∘ Sum.inr = recovered A dual (u ∘ Sum.inl) (b ∘ Sum.inr) := by
    have helim : system A S primal dual *ᵥ Sum.elim (u ∘ Sum.inl) (u ∘ Sum.inr) =
        Sum.elim (b ∘ Sum.inl) (b ∘ Sum.inr) := by
      rw [Sum.elim_comp_inl_inr, hu, Sum.elim_comp_inl_inr]
    exact eq_recovered hdual helim
  have hresidual_u := system_residual S primal hdual (u ∘ Sum.inl) b
  have hresidual_v := system_residual S primal hdual (v ∘ Sum.inl) b
  rw [← hu', Sum.elim_comp_inl_inr, hu, sub_self] at hresidual_u
  rw [← hv, Sum.elim_comp_inl_inr] at hresidual_v
  have hzero := congrArg (· ∘ Sum.inl) hresidual_u
  rw [Sum.elim_comp_inl] at hzero
  refine ⟨?_, ?_⟩
  · rw [hresidual_v, Matrix.mulVec_sub, sub_eq_zero.1 hzero.symm]
  · rw [hv, hu', recovered, recovered, ← sub_mul, sub_sub_sub_cancel_right, Matrix.mulVec_sub]

end Kkt

namespace Workspace

variable [IsStrictOrderedRing K]

/-- **The two methods agree.** Take a session of each method, for the same constraint matrix, the
    same positive semidefinite quadratic term in whichever form, and the same primal regularizer,
    after any calls, so that both have accepted the same dual regularizer last. If both succeed
    with the same right hand side, the tolerance of the indirect method bounds the distance of the
    first blocks of their solutions, and the second blocks differ by what the first blocks make of
    it. -/
theorem methods_agree [ExactRoot K] {ordering ordering' : FillOrdering} {A P P' : Sparse K}
    (hA : A.checkFormat.run = .ok (.ok ())) (hP : P.checkFormat.run = .ok (.ok ()))
    (hP' : P'.checkFormat.run = .ok (.ok ())) {S : Matrix (Fin A.cols) (Fin A.cols) K}
    (hS : P.Stores S) (hS' : P'.Stores S) (hsemidefinite : ∀ x, 0 ≤ x ⬝ᵥ S *ᵥ x)
    {reg reg' : Regularization K} (hprimal : reg'.primal = reg.primal)
    {settings settings' : Settings K} (hmethod : settings.method = .direct)
    (hmethod' : settings'.method = .indirect) (hreg : settings.regularize = false)
    {s s' : Session K} (hs : s.Reachable ordering A P reg settings)
    (hs' : s'.Reachable ordering' A P' reg' settings') (hdual : s'.dual = s.dual)
    {b z z' : Array K} {warm warm' : Option (Array K)} {tol tol' : K} {t t' : Workspace K}
    (hsolve : s.workspace.solve A P b warm tol = .ok (t, z, .success))
    (hsolve' : s'.workspace.solve A P' b warm' tol' = .ok (t', z', .success)) :
    reg.primal * euclidean (Kkt.blocks A z' ∘ Sum.inl - Kkt.blocks A z ∘ Sum.inl) ≤
        tol' * max 1 (euclidean (Kkt.blocks A b)) ∧
      Kkt.blocks A z' ∘ Sum.inr - Kkt.blocks A z ∘ Sum.inr =
        A.matrix A.rows A.cols *ᵥ (Kkt.blocks A z' ∘ Sum.inl - Kkt.blocks A z ∘ Sum.inl) *
          (vector A.rows s.dual)⁻¹ := by
  have hA := Sparse.wellFormed_of_checkFormat hA
  obtain ⟨U, hs⟩ := hs.exists_ofDirect hA (Sparse.wellFormed_of_checkFormat hP) hmethod
  have hs' := hs'.ofIndirect hmethod'
  have hsolves := hs.solves hreg hS hsolve
  obtain ⟨hpositive, hsecond, hresidual⟩ :=
    hs'.solves hA (Sparse.wellFormed_of_checkFormat hP') hS' hsolve'
  rw [hdual] at hpositive hsecond hresidual
  rw [hprimal] at hresidual
  obtain ⟨hfirst, hdifference⟩ :=
    Kkt.reduced_mulVec_sub (fun i => (hpositive i).ne') hsolves hsecond
  have hreg_pos : 0 < reg.primal := by simpa using reg.primal_ok
  refine ⟨?_, hdifference⟩
  calc reg.primal * euclidean (Kkt.blocks A z' ∘ Sum.inl - Kkt.blocks A z ∘ Sum.inl)
      ≤ euclidean (Kkt.reduced A S reg.primal s.dual *ᵥ
          (Kkt.blocks A z' ∘ Sum.inl - Kkt.blocks A z ∘ Sum.inl)) :=
        mul_euclidean_le hreg_pos.le
          (Kkt.mul_dotProduct_le_reduced_form hsemidefinite hpositive _)
    _ = euclidean (Kkt.system A S reg.primal s.dual *ᵥ Kkt.blocks A z' - Kkt.blocks A b) := by
        rw [← hfirst, euclidean_elim_zero]
    _ ≤ tol' * max 1 (euclidean (Kkt.blocks A b)) := hresidual

end Workspace

/-! ## 3. A small problem over the real numbers -/

namespace Session.Sound

open DirectSystem

variable [IsStrictOrderedRing K] {ordering : FillOrdering} {A P U : Sparse K} {primal : K}
  {settings : Settings K} {S : Matrix (Fin A.cols) (Fin A.cols) K}

/-- Construction on positive semidefinite data begins a session with usable factors. -/
theorem exists_new (hdata : Data A P U) (hadmissible : Workspace.Admissible A P settings)
    (hmethod : settings.method = .direct) (hreg : settings.regularize = false) (hS : P.Stores S)
    (hsemidefinite : ∀ x, 0 ≤ x ⬝ᵥ S *ᵥ x) {reg : Regularization K}
    (hdual : reg.dual.size = A.rows) (ordering : FillOrdering) :
    ∃ w, (Workspace.new ordering A P reg settings).run = .ok (.ok w) ∧
      Sound ordering A P U reg.primal settings ⟨w, reg.dual⟩ := by
  obtain ⟨s, hs, hholds, husable, hnew⟩ :=
    exists_new_direct hdata hadmissible hdual hmethod ordering
  have hverdict := hs.verdict_eq_ok hreg hS hsemidefinite (by simpa using reg.primal_ok)
    (vector_pos hdual reg.dual_ok) hholds
  rw [hverdict] at hnew husable
  exact ⟨_, hnew, .intro hs fun _ => rfl, husable⟩

omit [IsStrictOrderedRing K] in
/-- With usable factors a solve with valid arguments succeeds. -/
theorem exists_solve {s : Session K} (hs : Sound ordering A P U primal settings s)
    (hreg : settings.regularize = false) (hS : P.Stores S) {b : Array K}
    (hb : b.size = A.rows + A.cols) {warm : Option (Array K)}
    (hwarm : ∀ x ∈ warm, x.size = A.rows + A.cols) {tol : K} (htol : 0 < tol) :
    ∃ t z, s.workspace.solve A P b warm tol = .ok (t, z, .success) := by
  obtain ⟨⟨h, -⟩, husable⟩ := hs
  obtain ⟨t, z, hsolve, -⟩ := h.exists_exact_solve hreg husable hS hb
  exact ⟨_, z, h.workspace_solve_of_valid
    (h.validSolve_iff.2 ⟨hb, hwarm, by simpa using htol⟩) hsolve⟩

end Session.Sound

namespace Sample

theorem realFull_ok : realFull.checkFormat.run = .ok (.ok ()) := by decide +kernel

theorem realFull_stores : realFull.Stores (realTriangle.symmetricMatrix 2) := by
  refine .full (Matrix.IsSymm.ext fun i j => realTriangle.symmetric_comm j i) ?_
  have htriangle : realTriangle.dense 0 0 = 2 ∧ realTriangle.dense 0 1 = 1 ∧
      realTriangle.dense 1 1 = 3 := realTriangle_dense
  have hfull : realFull.dense 0 0 = 2 ∧ realFull.dense 0 1 = 1 ∧ realFull.dense 1 0 = 1 ∧
      realFull.dense 1 1 = 3 := by
    simp [Sparse.dense, coeff, Sparse.entries, Sparse.positions, Sparse.start, Sparse.row,
      Sparse.val, List.range', realFull]
  ext i j
  fin_cases i <;> fin_cases j <;> simp [Sparse.symmetric, htriangle, hfull]

/-- The small problem has a session of the direct method, and it can be given another dual
    regularizer. -/
theorem exists_real_direct : ∃ w s, (Workspace.new .minimumDegree realConstraint realFull
    (realRegularization 3 three_pos) (realSettings true)).run = .ok (.ok w) ∧
    Session.run realConstraint realFull ⟨w, #[3]⟩ [.update #[2]] = .ok s ∧ s.dual = #[2] ∧
    ∃ t z, s.workspace.solve realConstraint realFull #[1, 2, 3] none (1 / 1000) =
      .ok (t, z, .success) := by
  have hadmissible : Workspace.Admissible realConstraint realFull (realSettings true) :=
    ⟨realSettings_ok true, rfl, rfl, fun _ => Workspace.checkMatrices_eq_ok realConstraint_ok
      realFull_ok rfl (realFull_stores.upper_or_symmetric rfl)⟩
  obtain ⟨U, hdata⟩ := DirectSystem.exists_data
    (Sparse.wellFormed_of_checkFormat realConstraint_ok)
    (Sparse.wellFormed_of_checkFormat realFull_ok) rfl rfl
  obtain ⟨w, hnew, hw⟩ := Session.Sound.exists_new hdata hadmissible rfl rfl realFull_stores
    realTriangle_semidefinite (show (realRegularization 3 three_pos).dual.size = 1 from rfl)
    .minimumDegree
  obtain ⟨t, hupdate, husable, ht⟩ := hw.exists_update rfl realFull_stores
    realTriangle_semidefinite one_half_pos (show #[(2 : ℝ)].size = 1 from rfl) (by simp)
  have hcall : Session.call realConstraint realFull ⟨w, #[3]⟩ (.update #[2]) = .ok ⟨t, #[2]⟩ :=
    Session.call_update hupdate
  have hrun : Session.run realConstraint realFull ⟨w, #[3]⟩ [.update #[2]] = .ok ⟨t, #[2]⟩ := by
    rw [Session.run, List.foldlM_cons, hcall]
    rfl
  refine ⟨w, _, hnew, hrun, rfl, ?_⟩
  exact Session.Sound.exists_solve ⟨ht, husable⟩ rfl realFull_stores rfl (by simp) (by norm_num)

/-- The small problem is solved by the indirect method. -/
theorem exists_real_indirect : ∃ w, (Workspace.new .minimumDegree realConstraint realTriangle
    (realRegularization 2 two_pos) (realSettings false)).run = .ok (.ok w) ∧
    ∃ t z, w.solve realConstraint realTriangle #[1, 2, 3] none (1 / 1000) =
      .ok (t, z, .success) := by
  obtain ⟨s, hnew, hfingerprint⟩ := exists_new_real_indirect 2 two_pos
  obtain ⟨f, h⟩ := Session.ofIndirect_of_new rfl hnew
  rw [h.fingerprint_eq] at hfingerprint
  have hsuits : IndirectSystem.Suits f realConstraint realTriangle :=
    ⟨Sparse.wellFormed_of_checkFormat realConstraint_ok,
      Sparse.wellFormed_of_checkFormat realTriangle_ok, hfingerprint, rfl, rfl⟩
  have hb : #[(1 : ℝ), 2, 3].size = 1 + 2 := rfl
  have hwarm : ∀ x ∈ (none : Option (Array ℝ)), x.size = 1 + 2 := by simp
  have htol : (0 : ℝ) < 1 / 1000 := by norm_num
  obtain ⟨t, z, -, -, hsolve, -⟩ := h.converges hsuits hb hwarm
    (.triangle realTriangle_upper rfl) realTriangle_semidefinite one_half_pos (.inl rfl) htol
  exact ⟨_, hnew, _, z, h.workspace_solve_of_suits hfingerprint ⟨rfl, rfl⟩ hb hwarm htol hsolve⟩

end Sample

namespace Workspace

/-- The methods agree on the small problem, which the direct method reaches by an update. -/
theorem methods_agree_sample : ∃ w w' s t t' z z',
    (new .minimumDegree Sample.realConstraint Sample.realFull
      (Sample.realRegularization 3 three_pos) (Sample.realSettings true)).run = .ok (.ok w) ∧
    (new .minimumDegree Sample.realConstraint Sample.realTriangle
      (Sample.realRegularization 2 two_pos) (Sample.realSettings false)).run = .ok (.ok w') ∧
    Session.run Sample.realConstraint Sample.realFull ⟨w, #[3]⟩ [.update #[2]] = .ok s ∧
    s.workspace.solve Sample.realConstraint Sample.realFull #[1, 2, 3] none (1 / 1000) =
      .ok (t, z, .success) ∧
    w'.solve Sample.realConstraint Sample.realTriangle #[1, 2, 3] none (1 / 1000) =
      .ok (t', z', .success) ∧
    1 / 2 * euclidean (Kkt.blocks Sample.realConstraint z' ∘ Sum.inl -
        Kkt.blocks Sample.realConstraint z ∘ Sum.inl) ≤
      1 / 1000 * max 1 (euclidean (Kkt.blocks Sample.realConstraint #[1, 2, 3])) := by
  obtain ⟨w, s, hnew, hrun, hdual, t, z, hsolve⟩ := Sample.exists_real_direct
  obtain ⟨w', hnew', t', z', hsolve'⟩ := Sample.exists_real_indirect
  have hprimal : (Sample.realRegularization 2 two_pos).primal =
      (Sample.realRegularization 3 three_pos).primal := rfl
  obtain ⟨hbound, -⟩ := methods_agree Sample.realConstraint_ok Sample.realFull_ok
    Sample.realTriangle_ok Sample.realFull_stores (.triangle Sample.realTriangle_upper rfl)
    Sample.realTriangle_semidefinite hprimal rfl rfl rfl
    ((Session.Reachable.new w hnew).run hrun) (.new w' hnew') hdual.symm hsolve hsolve'
  exact ⟨w, w', s, t, t', z, z', hnew, hnew', hrun, hsolve, hsolve', hbound⟩

end Workspace

end Quasidefinite
