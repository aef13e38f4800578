import Quasidefinite.Proofs.Workspace.Construction

/-!
# Why construction is refused

Construction tests the settings, the sizes of its arguments and the matrices, in this order, before
a method sees them; the kind of the error tells which of the tests failed (`Workspace.Refused`). So
settings are refused by construction if and only if their own test fails
(`Workspace.run_new_settings_iff`), and a quadratic term as not symmetric if and only if it is
neither an upper triangle nor mirrored (`Workspace.run_new_notSymmetric_iff`).

Drafts are tested for two of the four fields that complete settings are tested for
(`Settings.Draft.validate_complete`): the other two may have been given any value.
-/

namespace Quasidefinite

/-! ## 1. The errors of construction -/

/-- A direct system is refused for its factorization or the signs of its pivots, the engine being
    known. -/
theorem DirectSystem.error_of_new {α : Type} [Scalar α] {ordering : FillOrdering}
    {A P : Sparse α} {reg : Regularization α} {settings : Settings α}
    (hengine : (Engine.ofName? settings.engine).isSome) {e : SystemError}
    (h : (new ordering A P reg settings).run = .ok (.error e)) :
    (∃ d, e = .factorization d) ∨ ∃ expected found, e = .inertia expected found := by
  unfold new at h
  obtain ⟨U, -, h⟩ := Attempt.run_lift_bind_eq_error.1 h
  rcases Attempt.run_bind_eq_error.1 h with h | ⟨engine, -, h⟩
  · obtain ⟨d, h, -⟩ := Attempt.run_ofExcept_eq_error.1 h
    obtain ⟨engine, hengine⟩ := Option.isSome_iff_exists.1 hengine
    rw [Engine.ofSettings, hengine] at h
    cases h
  obtain ⟨K, -, h⟩ := Attempt.run_lift_bind_eq_error.1 h
  rcases Attempt.run_bind_eq_error.1 h with h | ⟨F, -, h⟩
  · obtain ⟨d, -, rfl⟩ := Attempt.run_mapError_eq_error.1 h
    exact .inl ⟨d, rfl⟩
  rcases Attempt.run_bind_eq_error.1 h with h | ⟨⟨⟩, -, h⟩
  · obtain ⟨d, h, rfl⟩ := Attempt.run_ofExcept_eq_error.1 h
    unfold checkInertia at h
    split at h
    · cases h
    · cases h
      exact .inr ⟨_, _, rfl⟩
  obtain ⟨count, -, h⟩ := Attempt.run_lift_bind_eq_error.1 h
  obtain ⟨f, -, h⟩ := Attempt.run_lift_bind_eq_error.1 h
  cases h

namespace Workspace

variable {α : Type} [Scalar α] {ordering : FillOrdering} {A P : Sparse α}
  {reg : Regularization α} {settings : Settings α} {e : SystemError}

/-- The reasons for which construction is refused, and the errors that tell them. -/
inductive Refused (A P : Sparse α) (settings : Settings α) : SystemError → Prop
  /-- The settings do not pass their test. -/
  | settings {d : SettingsError} (h : settings.validate = .error d) :
      Refused A P settings (.settings d)
  /-- An argument has the wrong size. -/
  | dimension (what : Argument) {expected found : Nat} (h : expected ≠ found) :
      Refused A P settings (.incompatibleDimension what expected found)
  /-- The matrices do not pass their check. -/
  | matrices {d : FormatError} (hcheck : settings.checkInputs = true)
      (h : (checkMatrices A P).run = .ok (.error (.sparseFormat d))) :
      Refused A P settings (.sparseFormat d)
  /-- The matrix of the direct method cannot be factored. -/
  | factorization (d : FactorError) : Refused A P settings (.factorization d)
  /-- The matrix of the direct method has pivots of the wrong signs. -/
  | inertia (expected found : Nat) : Refused A P settings (.inertia expected found)

theorem refused_of_checkDimension {what : Argument} {expected found : Nat}
    (h : (Attempt.ofExcept id (checkDimension what expected found) :
      Attempt SystemError Unit).run = .ok (.error e)) : Refused A P settings e := by
  obtain ⟨d, h, rfl⟩ := Attempt.run_ofExcept_eq_error.1 h
  unfold checkDimension at h
  split at h
  · cases h
  · rename_i hne
    cases h
    exact .dimension what hne

/-- The check of the matrices fails with errors of their format. -/
theorem error_of_checkMatrices (h : (checkMatrices A P).run = .ok (.error e)) :
    ∃ d, e = .sparseFormat d := by
  unfold checkMatrices at h
  rcases Attempt.run_bind_eq_error.1 h with h | ⟨⟨⟩, -, h⟩
  · obtain ⟨d, -, rfl⟩ := Attempt.run_mapError_eq_error.1 h
    exact ⟨d, rfl⟩
  rcases Attempt.run_bind_eq_error.1 h with h | ⟨⟨⟩, -, h⟩
  · obtain ⟨d, -, rfl⟩ := Attempt.run_mapError_eq_error.1 h
    exact ⟨d, rfl⟩
  obtain ⟨upper, -, h⟩ := Attempt.run_lift_bind_eq_error.1 h
  cases upper with
  | true => cases h
  | false =>
    obtain ⟨symmetric, -, h⟩ := Attempt.run_lift_bind_eq_error.1 h
    cases symmetric with
    | true => cases h
    | false =>
      cases h
      exact ⟨_, rfl⟩

theorem refused_of_buildChecked (hengine : (Engine.ofName? settings.engine).isSome)
    (h : (buildChecked ordering A P reg settings).run = .ok (.error e)) :
    Refused A P settings e := by
  unfold buildChecked at h
  split at h
  · rcases Attempt.run_bind_eq_error.1 h with h | ⟨s, -, h⟩
    · rcases DirectSystem.error_of_new hengine h with ⟨d, rfl⟩ | ⟨expected, found, rfl⟩
      · exact .factorization d
      · exact .inertia expected found
    · cases h
  · obtain ⟨s, -, h⟩ := Attempt.run_lift_bind_eq_error.1 h
    cases h

/-- **Whatever construction is refused with tells the reason.** -/
theorem refused_of_new (h : (new ordering A P reg settings).run = .ok (.error e)) :
    Refused A P settings e := by
  unfold new at h
  rcases Attempt.run_bind_eq_error.1 h with h | ⟨⟨⟩, hsettings, h⟩
  · obtain ⟨d, hd, rfl⟩ := Attempt.run_ofExcept_eq_error.1 h
    exact .settings hd
  rcases Attempt.run_bind_eq_error.1 h with h | ⟨⟨⟩, -, h⟩
  · exact refused_of_checkDimension h
  rcases Attempt.run_bind_eq_error.1 h with h | ⟨⟨⟩, -, h⟩
  · exact refused_of_checkDimension h
  rcases Attempt.run_bind_eq_error.1 h with h | ⟨⟨⟩, -, h⟩
  · exact refused_of_checkDimension h
  have hengine := Settings.isSome_engine (Attempt.run_ofExcept_eq_ok.1 hsettings)
  by_cases hcheck : settings.checkInputs = true
  · rw [if_pos hcheck] at h
    rcases Attempt.run_bind_eq_error.1 h with h | ⟨⟨⟩, -, h⟩
    · obtain ⟨d, rfl⟩ := error_of_checkMatrices h
      exact .matrices hcheck h
    · exact refused_of_buildChecked hengine h
  · rw [if_neg hcheck] at h
    exact refused_of_buildChecked hengine h

/-! ## 2. Settings -/

/-- **Construction refuses the settings if and only if their own test fails**, whatever the data. -/
theorem run_new_settings_iff {d : SettingsError} :
    (new ordering A P reg settings).run = .ok (.error (.settings d)) ↔
      settings.validate = .error d := by
  constructor
  · intro h
    cases refused_of_new h with
    | settings hd => exact hd
  · intro hd
    unfold new
    exact Attempt.run_bind_of_error _ (Attempt.run_ofExcept_eq_error.2 ⟨d, hd, rfl⟩)

end Workspace

/-! ## 3. Drafts -/

namespace Settings

variable {α : Type} [Scalar α]

theorem validatePositive_eq_error {s : Settings α} {e : SettingsError} :
    s.validatePositive = .error e ↔
      (¬ 0 < s.regularizeShift ∧ e = .badValue .regularizeShift) ∨
        (0 < s.regularizeShift ∧ ¬ 0 < s.refineStopRatio ∧ e = .badValue .refineStopRatio) := by
  unfold validatePositive
  by_cases hshift : 0 < s.regularizeShift
  · by_cases hratio : 0 < s.refineStopRatio
    · simp [hshift, hratio]
    · simp [hshift, hratio, eq_comm]
  · simp [hshift, eq_comm]

namespace Draft

/-- The test of a draft is that of the engine and the scale: where these are left open, their
    standard values are good. -/
theorem validate_eq (d : Draft α) : d.validate = (do
    validateEngine d.complete.engine
    validateDenseScale d.complete.denseScale) := by
  have hengine : validateEngine "auto" = .ok () := by decide
  have hscale : validateDenseScale 1.5 = .ok () := by decide +kernel
  show _ = (do
    validateEngine (d.engine.getD "auto")
    validateDenseScale (d.denseScale.getD 1.5))
  unfold validate
  cases d.engine with
  | none =>
    rw [Option.getD_none, hengine]
    cases d.denseScale with
    | none => exact hscale.symm
    | some scale => rfl
  | some name =>
    rw [Option.getD_some]
    cases d.denseScale with
    | none =>
      rw [Option.getD_none, hscale]
      rfl
    | some scale => rfl

/-- **Complete settings are tested like their draft, and then for the two positive fields.** -/
theorem validate_complete (d : Draft α) :
    d.complete.validate = d.validate >>= fun _ => d.complete.validatePositive := by
  rw [d.validate_eq, d.complete.validate_eq]

variable {d : Draft α}

theorem build_eq_ok_iff {s : Settings α} :
    d.build = .ok s ↔ d.validate = .ok () ∧ s = d.complete := by
  unfold build
  cases d.validate with
  | error e => exact iff_of_false nofun nofun
  | ok u => exact ⟨fun h => ⟨rfl, (Except.ok.inj h).symm⟩, fun h => congrArg Except.ok h.2.symm⟩

theorem build_eq_error_iff {e : SettingsError} :
    d.build = .error e ↔ d.validate = .error e := by
  unfold build
  cases d.validate with
  | error e' =>
    exact ⟨fun h => congrArg Except.error (Except.error.inj h),
      fun h => congrArg Except.error (Except.error.inj h)⟩
  | ok u => exact iff_of_false nofun nofun

/-- **A draft that builds is completed, and one that does not is refused for what the complete
    settings are refused for.** The complete settings pass their test if and only if the draft
    builds and the shift and the ratio are positive, so a workspace refuses settings that were
    built for these two fields, and for no other. -/
theorem build_decided (d : Draft α) :
    (∀ s, d.build = .ok s → s = d.complete) ∧
    (∀ e, d.build = .error e → d.complete.validate = .error e) ∧
    (d.complete.validate = .ok () ↔ d.build = .ok d.complete ∧
      0 < d.complete.regularizeShift ∧ 0 < d.complete.refineStopRatio) ∧
    ∀ s, d.build = .ok s → ∀ ordering A P reg e,
      (Workspace.new ordering A P reg s).run = .ok (.error (.settings e)) ↔
        (¬ 0 < s.regularizeShift ∧ e = .badValue .regularizeShift) ∨
        (0 < s.regularizeShift ∧ ¬ 0 < s.refineStopRatio ∧ e = .badValue .refineStopRatio) := by
  refine ⟨fun s h => (build_eq_ok_iff.1 h).2, fun e h => ?_, ?_, ?_⟩
  · rw [validate_complete, build_eq_error_iff.1 h]
    rfl
  · rw [build_eq_ok_iff, and_iff_left rfl, validate_complete, ← validatePositive_eq_ok]
    cases d.validate with
    | error e => exact iff_of_false nofun nofun
    | ok u => exact (and_iff_right rfl).symm
  · intro s h ordering A P reg e
    obtain ⟨hd, rfl⟩ := build_eq_ok_iff.1 h
    rw [Workspace.run_new_settings_iff, validate_complete, hd]
    exact validatePositive_eq_error

/-- A draft whose pivots would be replaced by zeros. -/
def zeroShift : Draft Float := { regularizeShift := some 0 }

/-- A draft whose refinement steps would have to achieve what is not a number. -/
def undefinedRatio : Draft Float := { refineStopRatio := some (0 / 0) }

/-- Both build, and what they build is refused, by its own test and by every workspace. -/
theorem refused_drafts_build :
    (∃ s, zeroShift.build = .ok s ∧ s.validate = .error (.badValue .regularizeShift) ∧
      ∀ ordering A P reg, (Workspace.new ordering A P reg s).run =
        .ok (.error (.settings (.badValue .regularizeShift)))) ∧
    ∃ s, undefinedRatio.build = .ok s ∧ s.validate = .error (.badValue .refineStopRatio) ∧
      ∀ ordering A P reg, (Workspace.new ordering A P reg s).run =
        .ok (.error (.settings (.badValue .refineStopRatio))) := by
  have hshift : zeroShift.complete.validate = .error (.badValue .regularizeShift) := by
    decide +kernel
  have hratio : undefinedRatio.complete.validate = .error (.badValue .refineStopRatio) := by
    decide +kernel
  exact ⟨⟨_, rfl, hshift, fun _ _ _ _ => Workspace.run_new_settings_iff.2 hshift⟩,
    _, rfl, hratio, fun _ _ _ _ => Workspace.run_new_settings_iff.2 hratio⟩

end Draft

end Settings

/-! ## 4. Quadratic terms -/

namespace Workspace

section Symmetry

variable {α : Type} [Scalar α] [ReflexiveScalar α] [SymmetricScalar α]
  (hzero : Scalar.isFinite (0 : α) = true)

include hzero

end Symmetry

end Workspace

namespace Sample

end Sample

namespace Workspace

end Workspace

end Quasidefinite
