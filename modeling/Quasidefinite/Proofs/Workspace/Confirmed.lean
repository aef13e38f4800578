import Quasidefinite.Proofs.Indirect.Convergence
import Quasidefinite.Proofs.Overflow
import Quasidefinite.Proofs.Workspace.Finite

/-!
# What success of an indirect solve means

Conjugate gradients compare norms of residuals with a threshold, in whatever arithmetic. Until the
run converges no norm it keeps has passed the comparison, and it converges on a residual that was
computed afresh (`ConjugateGradient.Iteration.stands`, `ConjugateGradient.converged_iff`). So an
indirect solve succeeds exactly if the residual that it reports is not above the threshold, and
that residual is the one of the vector handed back (`Workspace.indirect_success_iff`).

The threshold is computed from the norm of the right hand side. Where it is finite, so is the
residual. The squares of a large right hand side overflow, and then infinite residuals are not
above an infinite threshold: the solve succeeds at once, with any vector
(`Workspace.overflow_succeeds`).
-/

namespace Quasidefinite

variable {α : Type} [Scalar α]

/-! ## 1. Finite norms -/

namespace ConjugateGradient

variable {q : Problem α}

/-- A measured norm below a finite value is finite. -/
theorem Measured.isFinite [RootScalar α] {x : Array α} {work : Scratch α} {norm c : α}
    (h : Measured q x work norm) (hle : norm ≤ c) (hc : Scalar.isFinite c = true) :
    Scalar.isFinite norm = true := by
  obtain ⟨before, htrue⟩ := h
  obtain ⟨image, r, -, -, -, rfl⟩ := trueResidual_eq_ok.1 htrue
  exact RootScalar.isFinite_sqrt hle hc

end ConjugateGradient

/-! ## 2. Solves -/

namespace Workspace

open ConjugateGradient

variable {w t : Workspace α} {A P : Sparse α} {events : List (Event α)}

/-- **An indirect solve succeeds exactly if the residual that it reports is not above the
    threshold.** That residual is then the one of the first block of what it hands back, computed
    afresh, and it is finite if the threshold is. In every workspace that construction and some
    calls lead to, and in every arithmetic. -/
theorem indirect_success_iff [RootScalar α] {ordering : FillOrdering} {A₀ P₀ : Sparse α}
    {reg : Regularization α} {settings : Settings α} {w₀ : Workspace α}
    (hnew : (new ordering A₀ P₀ reg settings).run = .ok (.ok w₀))
    (hw : Past anyMatrices w₀ events w) (hmethod : w.method = .indirect) {b z : Array α}
    {warm : Option (Array α)} {tol : α} {status : Status}
    (h : w.solve A P b warm tol = .ok (t, z, status))
    (hcarried : status = .success ∨ status = .notConverged) :
    (status = .success ↔ t.info.lastResidual ≤ IndirectSystem.threshold tol b) ∧
      (status = .success →
        (∃ s q x₀ x y work, w = .indirect s ∧ s.pose A P b warm tol = .ok (q, x₀) ∧
          x.size = w.fingerprint.cols ∧ z = x ++ y ∧ Measured q x work t.info.lastResidual) ∧
        (Scalar.isFinite (IndirectSystem.threshold tol b) = true →
          Scalar.isFinite t.info.lastResidual = true)) := by
  have hsized := hw.sized hnew
  rcases cases_solve h with ⟨-, -, rfl⟩ | ⟨-, -, h⟩
  · rcases hcarried with h | h <;> cases h
  cases w with
  | direct s => cases hmethod
  | indirect s =>
    obtain ⟨t, hsystem, rfl⟩ := solveChecked_indirect_eq_ok.1 h
    obtain ⟨q, x₀, result, x, work, hpose, hrun, rfl, houtcome⟩ :=
      IndirectSystem.cases_solve hsystem
    have hthreshold : q.threshold = IndirectSystem.threshold tol b := by
      obtain ⟨bx, bY, rhs, op, -, -, -, -, -, -, rfl⟩ := IndirectSystem.pose_eq_ok.1 hpose
      rfl
    obtain ⟨hiff, hmeasured⟩ := converged_iff hrun
    rw [hthreshold] at hiff
    rcases houtcome with ⟨-, ⟨y, -, rfl⟩, rfl⟩ | ⟨-, -, rfl⟩
    · have hsuccess : (if result.converged then Status.success else .notConverged) = .success ↔
          result.converged = true := by
        cases result.converged <;> simp
      refine ⟨hsuccess.trans hiff, fun hstatus => ?_⟩
      have hconverged := hsuccess.1 hstatus
      have hsize := (IndirectSystem.Sized.of_run hsized hpose hrun).size_x
      exact ⟨⟨s, q, x₀, x, y, work, rfl, hpose, hsize, rfl, hmeasured hconverged⟩,
        (hmeasured hconverged).isFinite (hiff.1 hconverged)⟩
    · rcases hcarried with h | h <;> cases h

end Workspace

/-! ## 3. A small problem in double precision -/

namespace Sample

/-- The workspace for the unit matrix. -/
def unitWorkspace : Workspace Float :=
  (Workspace.new .minimumDegree machineZero machineZero unitRegularization
    { Settings.standard with direct := false }).answer?.get (by decide +kernel)

theorem unit_new_eq : (Workspace.new .minimumDegree machineZero machineZero unitRegularization
    { Settings.standard with direct := false }).run = .ok (.ok unitWorkspace) :=
  Attempt.run_of_answer? (Option.some_get _).symm

end Sample

namespace Workspace

/-- For the unit matrix a solve succeeds, and its residual is finite and not above the
    threshold. -/
theorem indirect_success_iff_sample : ∃ t z,
    Sample.unitWorkspace.solve Sample.machineZero Sample.machineZero #[1, 2] none 1e-3 =
      .ok (t, z, .success) ∧
    t.info.lastResidual ≤ IndirectSystem.threshold 1e-3 #[1, 2] ∧
    Scalar.isFinite t.info.lastResidual = true := by
  have hrun : (Sample.unitWorkspace.solve Sample.machineZero Sample.machineZero #[1, 2] none
      1e-3).map (fun r => decide (r.2.2 = .success)) = .ok true := by
    decide +kernel
  obtain ⟨⟨t, z, status⟩, hsolve, hrun⟩ := Checked.exists_of_map hrun
  obtain rfl : status = .success := of_decide_eq_true hrun
  obtain ⟨hiff, hsuccess⟩ := indirect_success_iff Sample.unit_new_eq
    (.none : Past anyMatrices _ [] _) (by decide +kernel) hsolve (.inl rfl)
  exact ⟨t, z, hsolve, hiff.1 rfl, (hsuccess rfl).2 (by decide +kernel)⟩

/-- **An overflow turns an unsolved system into a success**: for the unit matrix and a large right
    hand side, zero is handed back, and the threshold and the residual are infinite. -/
theorem overflow_succeeds :
    (new .minimumDegree Sample.machineZero Sample.machineZero Sample.unitRegularization
      { Settings.standard with direct := false }).answer?.map (fun w =>
        (w.solve Sample.machineZero Sample.machineZero #[1e200, 0] none 1e-3).map fun r =>
          (r.2.2, r.2.1.map fun v => v == 0,
            Scalar.isFinite (IndirectSystem.threshold (1e-3 : Float) #[1e200, 0]),
            Scalar.isFinite r.1.info.lastResidual)) =
      some (.ok (.success, #[true, true], false, false)) := by
  decide +kernel

end Workspace

end Quasidefinite
