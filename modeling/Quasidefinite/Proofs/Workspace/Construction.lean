import Quasidefinite.Workspace
import Quasidefinite.Proofs.Direct.System
import Quasidefinite.Proofs.Sparse.Search

/-!
# Construction of workspaces

The checks that a workspace makes when it is built do not look at the regularizers, the number of
dual entries apart: they pass or fail for the data and the settings alone (`Admissible`). Once
they pass, construction is that of the method (`run_new_of_admissible`), and if it succeeded they
have passed (`admissible_of_new`).
-/

namespace Quasidefinite

/-! ## 1. The checks -/

namespace Settings

variable {α : Type} [Scalar α]

/-- Fails unless what replaces pivots and what a refinement step has to achieve are positive. -/
def validatePositive (s : Settings α) : Except SettingsError Unit :=
  if ¬ 0 < s.regularizeShift then .error (.badValue .regularizeShift)
  else if ¬ 0 < s.refineStopRatio then .error (.badValue .refineStopRatio)
  else .ok ()

variable {s : Settings α}

theorem validatePositive_eq_ok :
    s.validatePositive = .ok () ↔ 0 < s.regularizeShift ∧ 0 < s.refineStopRatio := by
  unfold validatePositive
  by_cases hshift : 0 < s.regularizeShift
  · by_cases hratio : 0 < s.refineStopRatio
    · simp [hshift, hratio]
    · simp [hshift, hratio]
  · simp [hshift]

/-- After the engine and the scale, the two positive fields are tested. -/
theorem validate_eq (s : Settings α) : s.validate = (do
    validateEngine s.engine
    validateDenseScale s.denseScale) >>= fun _ => s.validatePositive := by
  unfold validate validatePositive
  cases validateEngine s.engine with
  | error e => rfl
  | ok u =>
    cases validateDenseScale s.denseScale with
    | error e => rfl
    | ok v =>
      by_cases hshift : 0 < s.regularizeShift
      · simp only [hshift, not_true_eq_false, if_false]
        rfl
      · simp only [hshift, not_false_eq_true, if_true]
        rfl

/-- Settings pass validation if the engine and the scale do, and what replaces pivots and what a
    refinement step has to achieve are positive. -/
theorem validate_eq_ok : s.validate = .ok () ↔
    validateEngine s.engine = .ok () ∧ validateDenseScale s.denseScale = .ok () ∧
      0 < s.regularizeShift ∧ 0 < s.refineStopRatio := by
  rw [validate_eq, ← validatePositive_eq_ok]
  cases validateEngine s.engine with
  | error e => exact iff_of_false nofun nofun
  | ok u =>
    cases validateDenseScale s.denseScale with
    | error e => exact iff_of_false nofun nofun
    | ok v => exact ⟨fun h => ⟨rfl, rfl, h⟩, fun h => h.2.2⟩

/-- Settings that pass validation name an engine. -/
theorem isSome_engine (h : s.validate = .ok ()) : (Engine.ofName? s.engine).isSome := by
  have hvalid := (validate_eq_ok.1 h).1
  unfold validateEngine at hvalid
  by_contra hengine
  rw [if_neg hengine] at hvalid
  cases hvalid

end Settings

namespace Workspace

variable {α : Type} [Scalar α]

/-- The checks of the data and the settings pass. -/
structure Admissible (A P : Sparse α) (settings : Settings α) : Prop where
  settings_ok : settings.validate = .ok ()
  rows_eq : P.rows = A.cols
  cols_eq : P.cols = A.cols
  matrices_ok : settings.checkInputs = true → (checkMatrices A P).run = .ok (.ok ())

/-- Matrices that pass their check are well formed. -/
theorem wellFormed_of_checkMatrices {A P : Sparse α}
    (hmatrices : (checkMatrices A P).run = .ok (.ok ())) : A.WellFormed ∧ P.WellFormed := by
  unfold checkMatrices at hmatrices
  obtain ⟨⟨⟩, hA, hmatrices⟩ := Attempt.run_bind_eq_ok.1 hmatrices
  obtain ⟨⟨⟩, hP, -⟩ := Attempt.run_bind_eq_ok.1 hmatrices
  exact ⟨Sparse.wellFormed_of_checkFormat (Attempt.run_mapError_eq_ok.1 hA),
    Sparse.wellFormed_of_checkFormat (Attempt.run_mapError_eq_ok.1 hP)⟩

theorem Admissible.wellFormed {A P : Sparse α} {settings : Settings α}
    (h : Admissible A P settings) (hcheck : settings.checkInputs = true) :
    A.WellFormed ∧ P.WellFormed := wellFormed_of_checkMatrices (h.matrices_ok hcheck)

/-- **Well-formed matrices pass their check if and only if the quadratic term is stored as its upper
    triangle or equals its transpose.** -/
theorem checkMatrices_eq [ReflexiveScalar α] [SymmetricScalar α]
    (hzero : Scalar.isFinite (0 : α) = true) {A P : Sparse α}
    (hA : A.checkFormat.run = .ok (.ok ())) (hP : P.checkFormat.run = .ok (.ok ()))
    (hsquare : P.rows = P.cols) : (checkMatrices A P).run =
      .ok (if P.Upper ∨ P.Mirrored then .ok () else .error (.sparseFormat .notSymmetric)) := by
  have hwell := Sparse.wellFormed_of_checkFormat hP
  unfold checkMatrices
  rw [Attempt.run_bind_of_ok _ (Attempt.run_mapError_of_ok hA),
    Attempt.run_bind_of_ok _ (Attempt.run_mapError_of_ok hP),
    Attempt.run_bind_of_ok _ (Attempt.run_lift_of_ok hwell.toShaped.isUpper_eq)]
  by_cases hupper : P.Upper
  · rw [decide_eq_true hupper, if_pos (Or.inl hupper)]
    rfl
  · rw [decide_eq_false hupper, if_neg Bool.false_ne_true,
      Attempt.run_bind_of_ok _ (Attempt.run_lift_of_ok (hwell.isSymmetric_decides hzero))]
    by_cases hmirrored : P.Mirrored
    · rw [decide_eq_true ⟨hsquare, hmirrored⟩, if_pos (Or.inr hmirrored)]
      rfl
    · rw [decide_eq_false fun hand => hmirrored hand.2, if_neg (not_or.2 ⟨hupper, hmirrored⟩)]
      rfl

theorem checkDimension_eq_ok {what : Argument} {expected found : Nat} :
    checkDimension what expected found = .ok () ↔ expected = found := by
  unfold checkDimension
  by_cases h : expected = found
  · rw [if_pos h]
    exact iff_of_true rfl h
  · rw [if_neg h]
    exact iff_of_false (by rintro ⟨⟩) h

variable {ordering : FillOrdering} {A P : Sparse α} {reg : Regularization α}
  {settings : Settings α}

/-- Settings that pass their test and arguments of the right sizes leave the check of the
    matrices. -/
theorem run_new_eq (hsettings : settings.validate = .ok ()) (hrows : P.rows = A.cols)
    (hcols : P.cols = A.cols) (hdual : reg.dual.size = A.rows) :
    (new ordering A P reg settings).run = (do
      if settings.checkInputs then checkMatrices A P
      buildChecked ordering A P reg settings : Attempt SystemError (Workspace α)).run := by
  unfold new
  rw [Attempt.run_bind_of_ok _ (Attempt.run_ofExcept_eq_ok.2 hsettings),
    Attempt.run_bind_of_ok _ (Attempt.run_ofExcept_eq_ok.2 (checkDimension_eq_ok.2 hrows.symm)),
    Attempt.run_bind_of_ok _ (Attempt.run_ofExcept_eq_ok.2 (checkDimension_eq_ok.2 hcols.symm)),
    Regularization.dualCount,
    Attempt.run_bind_of_ok _ (Attempt.run_ofExcept_eq_ok.2 (checkDimension_eq_ok.2 hdual.symm))]

/-- Once the checks pass, construction is that of the method. -/
theorem run_new_of_admissible (h : Admissible A P settings) (hdual : reg.dual.size = A.rows) :
    (new ordering A P reg settings).run = (buildChecked ordering A P reg settings).run := by
  rw [run_new_eq h.settings_ok h.rows_eq h.cols_eq hdual]
  dsimp only
  by_cases hcheck : settings.checkInputs = true
  · rw [if_pos hcheck, Attempt.run_bind_of_ok _ (h.matrices_ok hcheck)]
  · rw [if_neg hcheck]

/-- If construction succeeded, the checks have passed. -/
theorem admissible_of_new {w : Workspace α}
    (h : (new ordering A P reg settings).run = .ok (.ok w)) :
    Admissible A P settings ∧ reg.dual.size = A.rows := by
  unfold new at h
  obtain ⟨⟨⟩, hsettings, h⟩ := Attempt.run_bind_eq_ok.1 h
  obtain ⟨⟨⟩, hrows, h⟩ := Attempt.run_bind_eq_ok.1 h
  obtain ⟨⟨⟩, hcols, h⟩ := Attempt.run_bind_eq_ok.1 h
  obtain ⟨⟨⟩, hdual, h⟩ := Attempt.run_bind_eq_ok.1 h
  refine ⟨⟨Attempt.run_ofExcept_eq_ok.1 hsettings,
    (checkDimension_eq_ok.1 (Attempt.run_ofExcept_eq_ok.1 hrows)).symm,
    (checkDimension_eq_ok.1 (Attempt.run_ofExcept_eq_ok.1 hcols)).symm, fun hcheck => ?_⟩,
    (checkDimension_eq_ok.1 (Attempt.run_ofExcept_eq_ok.1 hdual)).symm⟩
  rw [if_pos hcheck] at h
  obtain ⟨⟨⟩, hmatrices, -⟩ := Attempt.run_bind_eq_ok.1 h
  exact hmatrices

/-- A workspace for the direct method holds a direct system. -/
theorem run_buildChecked_direct (hmethod : settings.method = .direct)
    {r : Except SystemError (DirectSystem α)}
    (h : (DirectSystem.new ordering A P reg settings).run = .ok r) :
    (buildChecked ordering A P reg settings).run = .ok (r.map Workspace.direct) := by
  unfold buildChecked
  rw [hmethod]
  cases r with
  | ok s =>
    dsimp only
    rw [Attempt.run_bind_of_ok _ h]
    rfl
  | error e =>
    dsimp only
    rw [Attempt.run_bind_of_error _ h]
    rfl

/-- A workspace that was built holds a system that was built by one of the methods. -/
theorem cases_new {w : Workspace α} (h : (new ordering A P reg settings).run = .ok (.ok w)) :
    (∃ s, w = .direct s ∧ (DirectSystem.new ordering A P reg settings).run = .ok (.ok s)) ∨
      ∃ s, w = .indirect s ∧ IndirectSystem.new A P reg settings = .ok s := by
  obtain ⟨hadmissible, hdual⟩ := admissible_of_new h
  rw [run_new_of_admissible hadmissible hdual] at h
  unfold buildChecked at h
  split at h
  · obtain ⟨s, hs, h⟩ := Attempt.run_bind_eq_ok.1 h
    cases h
    exact .inl ⟨s, rfl, hs⟩
  · obtain ⟨s, hs, h⟩ := Attempt.run_bind_eq_ok.1 h
    cases h
    exact .inr ⟨s, rfl, Attempt.run_lift_eq_ok.1 hs⟩

end Workspace

/-! ## 2. Symmetric data -/

section Exact

open scoped Scalar

variable {K : Type} [Field K] [LinearOrder K] [SquareRoot K]

/-- Well-formed matrices pass their check if the quadratic term is stored as its upper triangle or
    is symmetric. -/
theorem Workspace.checkMatrices_eq_ok {A P : Sparse K} (hA : A.checkFormat.run = .ok (.ok ()))
    (hP : P.checkFormat.run = .ok (.ok ())) (hsquare : P.rows = P.cols)
    (hform : P.Upper ∨ ∀ i < P.cols, ∀ j < P.cols, P.dense i j = P.dense j i) :
    (Workspace.checkMatrices A P).run = .ok (.ok ()) := by
  rw [Workspace.checkMatrices_eq rfl hA hP hsquare,
    if_pos (hform.imp_right (Sparse.wellFormed_of_checkFormat hP).mirrored_of_dense)]

end Exact

end Quasidefinite
