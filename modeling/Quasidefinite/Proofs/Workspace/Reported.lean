import Quasidefinite.Proofs.Workspace.Improvement

/-!
# What a direct solve reports

Refinement has four ends: the residual is small enough or not finite, the last step is kept, it is
dropped, or there are no steps left. At each of them the norm it reports is that of the residual of
the solution that it hands on, and it has taken no more steps than it may
(`DirectSystem.report_of_solveRefined`). Calls do not change the settings of a system
(`Workspace.Past.settings_eq`), so every solve that succeeds reports, in every arithmetic, what
computing the residual of the vector handed back anew would give
(`Workspace.direct_reports_residual`).
-/

namespace Quasidefinite

variable {α : Type} [Scalar α]

/-! ## 1. Refinement -/

namespace Refinement

variable {settings : Settings α} {K : Sparse α} {F : Factorization α} {b : Array α} {normb : α}
  {s t : State α} {p : Progress α}

theorem Step.steps_le (h : Step settings K F b normb s p) : p.state.steps ≤ s.steps + 1 := by
  cases h with
  | finished h => exact Nat.le_succ _
  | dropped x e hgoing htried hshort hworse => exact Nat.le_refl _
  | kept x e hgoing htried hshort hbetter => exact Nat.le_refl _
  | accepted x e hgoing htried henough => exact Nat.le_refl _

/-- A run takes no more steps than it may. -/
theorem steps_le_of_run {count : Nat} (h : run settings K F b normb count s = .ok t) :
    t.steps ≤ s.steps + count := by
  induction count generalizing s with
  | zero =>
    cases h
    exact Nat.le_refl _
  | succ count ih =>
    rw [run] at h
    obtain ⟨p, hp, h⟩ := Checked.bind_eq_ok.1 h
    have hstep := (step_of_eq_ok hp).steps_le
    cases p with
    | running u =>
      refine (ih h).trans ?_
      rw [Nat.add_comm count 1, ← Nat.add_assoc]
      exact Nat.add_le_add_right hstep count
    | done u =>
      cases h
      exact hstep.trans (Nat.add_le_add_left (Nat.le_add_left 1 count) _)

end Refinement

/-! ## 2. Direct systems -/

namespace DirectSystem

open Refinement

variable {s t : DirectSystem α} {A P : Sparse α} {b z dual : Array α}

/-- **The norm that a refined solve comes to is that of the residual of its solution**, at whichever
    end, and the number of its steps keeps to the settings. -/
theorem report_of_solveRefined {r : State α} (h : s.solveRefined b = .ok r) :
    Measured s.kkt.matrix b r ∧ r.steps ≤ s.settings.refineMaxIter.toNat ∧
      (s.settings.refine = false → r.steps = 0) := by
  obtain ⟨x, -, h⟩ := Checked.bind_eq_ok.1 h
  by_cases hrefine : s.settings.refine = true
  · rw [if_pos hrefine] at h
    obtain ⟨⟨e, norm⟩, hresidual, h⟩ := Checked.bind_eq_ok.1 h
    obtain ⟨-, he, rfl⟩ := residual_eq_ok.1 hresidual
    refine ⟨measured_of_run (s := ⟨x, e, Vec.normInf e, 0⟩) (residualNorm_of_symv he) h, ?_,
      fun hfalse => absurd (hrefine.symm.trans hfalse) Bool.noConfusion⟩
    exact (steps_le_of_run h).trans_eq (Nat.zero_add _)
  · rw [if_neg hrefine] at h
    obtain ⟨⟨e, norm⟩, hresidual, h⟩ := Checked.bind_eq_ok.1 h
    obtain ⟨-, he, rfl⟩ := residual_eq_ok.1 hresidual
    cases h
    exact ⟨residualNorm_of_symv he, Nat.zero_le _, fun _ => rfl⟩

theorem settings_of_new {ordering : FillOrdering} {reg : Regularization α} {settings : Settings α}
    (h : (new ordering A P reg settings).run = .ok (.ok s)) : s.settings = settings := by
  unfold new at h
  simp only [Attempt.run_bind_eq_ok] at h
  obtain ⟨upper, -, engine, -, kkt, -, F, -, ⟨⟩, -, count, -, f, -, h⟩ := h
  cases h
  rfl

theorem settings_of_solve {status : Status} (h : s.solve b = .ok (t, z, status)) :
    t.settings = s.settings := by
  rcases cases_solve h with ⟨-, rfl, -⟩ | ⟨r, -, -, -, rfl, -⟩ <;> rfl

theorem settings_of_writeDual {result : Except SystemError Unit}
    (h : s.writeDual dual = .ok (t, result)) : t.settings = s.settings := by
  unfold writeDual at h
  obtain ⟨written, -, h⟩ := Checked.bind_eq_ok.1 h
  cases written with
  | error e =>
    cases h
    rfl
  | ok F =>
    obtain ⟨kkt, -, h⟩ := Checked.bind_eq_ok.1 h
    cases h
    rfl

theorem settings_of_refactor {result : Except SystemError Unit}
    (h : s.refactor = .ok (t, result)) : t.settings = s.settings := by
  obtain ⟨⟨F, swept⟩, -, h⟩ := Checked.bind_eq_ok.1 h
  cases h
  rfl

theorem settings_of_update {result : Except SystemError Unit}
    (h : s.update A P dual = .ok (t, result)) : t.settings = s.settings := by
  rcases cases_update h with ⟨rfl, -⟩ | ⟨e, hwrite, -⟩ | ⟨v, hwrite, hrefactor⟩
  · rfl
  · exact settings_of_writeDual hwrite
  · exact (settings_of_refactor hrefactor).trans (settings_of_writeDual hwrite)

end DirectSystem

/-! ## 3. Workspaces -/

namespace Workspace

open Refinement

variable {w₀ w t : Workspace α} {A P A₀ P₀ : Sparse α} {events : List (Event α)}
  {allowed : Sparse α → Sparse α → Prop}

/-- **What every call of a direct system keeps holds of every direct system that calls lead to.** -/
theorem Past.keeps_direct (inv : DirectSystem α → Prop)
    (hsolve : ∀ {s t : DirectSystem α} {b z : Array α} {status : Status}, inv s →
      s.solve b = .ok (t, z, status) → inv t)
    (hupdate : ∀ {s t : DirectSystem α} {A P : Sparse α} {dual : Array α}
      {result : Except SystemError Unit}, inv s → s.update A P dual = .ok (t, result) → inv t)
    (hstart : ∀ s, w₀ = .direct s → inv s) (hw : Past allowed w₀ events w) :
    ∀ s, w = .direct s → inv s := by
  induction hw with
  | none => exact hstart
  | @solve events w t _ A P b z warm tol status _ h ih =>
    rcases cases_solve h with ⟨rfl, -⟩ | ⟨-, -, h⟩
    · exact ih
    cases w with
    | direct s =>
      obtain ⟨u, hsystem, rfl⟩ := solveChecked_direct_eq_ok.1 h
      intro v hv
      cases hv
      exact hsolve (ih s rfl) hsystem
    | indirect s =>
      obtain ⟨u, -, rfl⟩ := solveChecked_indirect_eq_ok.1 h
      intro v hv
      cases hv
  | @update events w t _ A P dual result _ h ih =>
    rcases cases_update h with ⟨rfl, -⟩ | ⟨-, h⟩
    · exact ih
    cases w with
    | direct s =>
      obtain ⟨u, hsystem, rfl⟩ := updateChecked_direct_eq_ok.1 h
      intro v hv
      cases hv
      exact hupdate (ih s rfl) hsystem
    | indirect s =>
      obtain ⟨u, -, rfl⟩ := updateChecked_indirect_eq_ok.1 h
      intro v hv
      cases hv

/-- The settings of a direct system are those of its construction. -/
theorem Past.settings_eq {ordering : FillOrdering} {reg : Regularization α}
    {settings : Settings α} {s : DirectSystem α}
    (hnew : (new ordering A₀ P₀ reg settings).run = .ok (.ok w₀))
    (hw : Past allowed w₀ events (.direct s)) : s.settings = settings := by
  refine hw.keeps_direct (fun s => s.settings = settings)
    (fun hs h => (DirectSystem.settings_of_solve h).trans hs)
    (fun hs h => (DirectSystem.settings_of_update h).trans hs) (fun s hs => ?_) s rfl
  rcases cases_new hnew with ⟨s', rfl, hbuilt⟩ | ⟨s', rfl, -⟩
  · cases hs
    exact DirectSystem.settings_of_new hbuilt
  · cases hs

/-- **A direct solve that succeeds reports the residual of the vector that it hands back.** In every
    workspace that construction and some calls lead to, with whatever matrices, settings and
    arithmetic: the norm reported is what the product with the assembled matrix gives for the vector
    handed back and the right hand side; and the iterations reported are no more than the steps that
    the settings allow, and none if they ask for no refinement. The solve leaves the assembled
    matrix as it was. -/
theorem direct_reports_residual {ordering : FillOrdering} {reg : Regularization α}
    {settings : Settings α} (hnew : (new ordering A₀ P₀ reg settings).run = .ok (.ok w₀))
    (hw : Past anyMatrices w₀ events w) (hmethod : w.method = .direct) {b z : Array α}
    {warm : Option (Array α)} {tol : α} (h : w.solve A P b warm tol = .ok (t, z, .success)) :
    ∃ s s', w = .direct s ∧ t = .direct s' ∧ s'.kkt = s.kkt ∧
      residualNorm s.kkt.matrix b z = .ok t.info.lastResidual ∧
      t.info.lastIterations ≤ settings.refineMaxIter.toNat ∧
      (settings.refine = false → t.info.lastIterations = 0) := by
  rcases cases_solve h with ⟨-, -, hstatus⟩ | ⟨-, -, h⟩
  · cases hstatus
  cases w with
  | indirect s => cases hmethod
  | direct s =>
    obtain ⟨s', hsystem, rfl⟩ := solveChecked_direct_eq_ok.1 h
    rcases DirectSystem.cases_solve hsystem with
      ⟨-, -, -, hstatus⟩ | ⟨r, -, -, hr, rfl, ⟨-, rfl, -⟩ | ⟨-, -, hstatus⟩⟩
    · cases hstatus
    · obtain ⟨hmeasured, hsteps, hnone⟩ := DirectSystem.report_of_solveRefined hr
      rw [hw.settings_eq hnew] at hsteps hnone
      exact ⟨s, _, rfl, rfl, rfl, hmeasured, hsteps, hnone⟩
    · cases hstatus

/-- With a pivot that is too large refinement takes one step for `[1, 2]` and keeps it, and the
    residual that is reported is that of the vector handed back. -/
theorem direct_reports_residual_sample : ∃ s z,
    (direct Sample.shiftedSystem).solve Sample.machineZero Sample.machineZero #[1, 2] none 1e-3 =
      .ok (direct s, z, .success) ∧ s.info.lastIterations = 1 ∧
    residualNorm Sample.shiftedSystem.kkt.matrix #[1, 2] z = .ok s.info.lastResidual := by
  have hrun : ((direct Sample.shiftedSystem).solve Sample.machineZero Sample.machineZero #[1, 2]
      none 1e-3).map (fun r => decide (r.2.2 = .success ∧ r.1.info.lastIterations = 1)) =
      .ok true := by
    decide +kernel
  obtain ⟨⟨t, z, status⟩, hsolve, hrun⟩ := Checked.exists_of_map hrun
  obtain ⟨hstatus, hone⟩ := of_decide_eq_true hrun
  dsimp only at hstatus hone
  subst hstatus
  obtain ⟨-, s, ⟨⟩, rfl, -, hresidual, -⟩ := direct_reports_residual Sample.shifted_new_eq
    (.none : Past anyMatrices _ [] _) rfl hsolve
  exact ⟨s, z, hsolve, hone, hresidual⟩

end Workspace

end Quasidefinite
