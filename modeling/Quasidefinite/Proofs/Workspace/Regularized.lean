import Quasidefinite.Proofs.Factor.Regularized
import Quasidefinite.Proofs.Workspace.Copies
import Quasidefinite.Proofs.Workspace.Quasidefinite

/-!
# Regularized systems

The direct method expects a positive pivot for every variable and a negative one for every
constraint. With regularization each pivot has the sign expected of it, so as many pivots are
positive as there are variables, whatever the data: in exact arithmetic neither construction nor an
update fails for its factorization or its inertia (`regularization_forces_signs`).
-/

namespace Quasidefinite

open scoped Scalar

variable {K : Type} [Field K] [LinearOrder K] [IsStrictOrderedRing K] [SquareRoot K]

/-! ## 1. Verdicts -/

namespace DirectSystem

/-- A negative pivot is expected for the constraints alone. -/
theorem expectedSigns_neg_iff {n m i : Nat} (hi : i < n + m) :
    (expectedSigns n m).getD i 0 < 0 ↔ ¬ i < n := by
  rw [getD_of_lt _ _ _ (size_expectedSigns n m ▸ hi)]
  by_cases hvariable : i < n <;> simp [expectedSigns, Array.getElem_append, hvariable]

omit [LinearOrder K] [IsStrictOrderedRing K] [SquareRoot K] in
/-- The sign expected of a pivot is that of its row in the system. -/
theorem expectedSign_factorOptions (A : Sparse K) (settings : Settings K) {perm : Array Nat}
    {k : Nat} (hk : perm.getD k 0 < A.cols + A.rows) :
    (factorOptions A settings).expectedSign perm k = Kkt.sign A.cols (perm.getD k 0) := by
  have hsign : (factorOptions A settings).signAt perm k < 0 ↔ ¬ perm.getD k 0 < A.cols :=
    expectedSigns_neg_iff hk
  rw [FactorOptions.expectedSign, if_congr hsign rfl rfl, ite_not, Kkt.sign]

namespace Invariant

variable {ordering : FillOrdering} {A P U : Sparse K} {primal : K} {settings : Settings K}
  {dual : Array K} {s : DirectSystem K}

/-- **With regularization every verdict is favourable.** -/
theorem verdict_of_regularize (h : Invariant ordering A P U primal settings dual s)
    (hreg : settings.regularize = true) (hthreshold : 0 < settings.regularizeThreshold)
    (hshift : 0 < settings.regularizeShift) (hholds : s.factorization.Holds) :
    verdict s.factorization A.cols = .ok () := by
  have hcols : A.cols + A.rows = s.kkt.matrix.cols := by rw [h.cols_eq, Nat.add_comm]
  have hsize := h.of.planOf.size_perm
  obtain ⟨label, hinverse, -⟩ := h.of.planOf.exists_labels
  obtain ⟨houtcome, hregularized⟩ := h.of.regularized (h.assembled.distinct h.data.blocks) hreg
    hthreshold hshift hholds h.of.fits
  have hpositive : s.factorization.factors.positive = A.cols := by
    rw [hregularized.positive_eq, ← hsize]
    refine Eq.trans ?_ ((hinverse.count_perm fun i => 0 < (Kkt.sign A.cols i : K)).trans ?_)
    · refine count_eq_of_iff fun k hk => ?_
      rw [← FactorOptions.expectedSign_pos_iff, expectedSign_factorOptions A settings
        ((hinverse.lt k hk).trans_eq (hsize.trans hcols.symm))]
    · rw [hsize, ← hcols, Kkt.count_sign]
  rw [verdict_of_ok houtcome]
  exact if_pos hpositive

/-- **With regularization an update succeeds unless it is refused**, with whatever matrices. -/
theorem update_of_regularize (h : Invariant ordering A P U primal settings dual s)
    (hreg : settings.regularize = true) (hthreshold : 0 < settings.regularizeThreshold)
    (hshift : 0 < settings.regularizeShift) {B Q : Sparse K} {new : Array K} {w : Workspace K}
    {result : Except SystemError Unit}
    (hupdate : (Workspace.direct s).update B Q new = .ok (w, result)) :
    result = .ok () ∨ passed result = false := by
  rcases Workspace.cases_update hupdate with ⟨-, hrefused⟩ | ⟨hcheck, hupdate⟩
  · exact .inr hrefused
  obtain ⟨t, hsystem, rfl⟩ := Workspace.updateChecked_direct_eq_ok.1 hupdate
  rcases h.of_update (h.checkUpdate_eq_ok.1 hcheck).1 hsystem with
    ⟨-, hrefused⟩ | ⟨ht, -, hresult, hholds⟩
  · exact .inr (hrefused ▸ rfl)
  · exact .inl (hresult.trans (ht.verdict_of_regularize hreg hthreshold hshift hholds))

end Invariant

end DirectSystem

/-! ## 2. Workspaces -/

namespace Workspace

open DirectSystem

/-- Data that passes validation, and settings of the direct method with regularization. -/
structure Regularizable (A P : Sparse K) (reg : Regularization K) (settings : Settings K) :
    Prop where
  matrices_ok : (checkMatrices A P).run = .ok (.ok ())
  rows_eq : P.rows = A.cols
  cols_eq : P.cols = A.cols
  size_dual : reg.dual.size = A.rows
  settings_ok : settings.validate = .ok ()
  method_eq : settings.method = .direct
  regularize : settings.regularize = true
  threshold_pos : 0 < settings.regularizeThreshold

namespace Regularizable

variable {A P : Sparse K} {reg : Regularization K} {settings : Settings K}
  (h : Regularizable A P reg settings)

include h

omit [IsStrictOrderedRing K] in
/-- Settings that pass validation replace pivots by positive values. -/
theorem shift_pos : 0 < settings.regularizeShift :=
  (Settings.validate_eq_ok.1 h.settings_ok).2.2.1

/-- Construction succeeds. -/
theorem exists_new (ordering : FillOrdering) :
    ∃ s U, (new ordering A P reg settings).run = .ok (.ok (.direct s)) ∧
      Current ordering A P U reg settings [] s := by
  obtain ⟨hA, hP⟩ := wellFormed_of_checkMatrices h.matrices_ok
  obtain ⟨U, hdata⟩ := exists_data hA hP h.rows_eq h.cols_eq
  obtain ⟨s, hs, hholds, -, hnew⟩ := Session.exists_new_direct hdata
    ⟨h.settings_ok, h.rows_eq, h.cols_eq, fun _ => h.matrices_ok⟩ h.size_dual h.method_eq ordering
  rw [hs.verdict_of_regularize h.regularize h.threshold_pos h.shift_pos hholds] at hnew
  exact ⟨s, U, hnew, hs, h.size_dual, reg.dual_ok⟩

end Regularizable

end Workspace

/-! ## 3. Every pivot -/

open Factorization Workspace in
/-- **Regularization forces the signs of the pivots.** A factorization that regularizes succeeds
    for every upper triangle without empty columns, every order and all signs, and so does every
    refactorization after any calls; the pivots have the signs expected of them, and the factors
    are those of the matrix with something added to its diagonal (`Factorization.Regularized`).

    A workspace of the direct method that regularizes can therefore always be built from data that
    passes validation, and no update of it, after any calls and with whatever matrices, fails for
    its factorization or its inertia; with its own matrices and a positive regularizer it
    succeeds. -/
theorem regularization_forces_signs (ordering : FillOrdering) :
    (∀ (A : Sparse K) (opts : FactorOptions K), Factorization.Regularizable A opts →
      ∃ F, (Factorization.new ordering A opts).run = .ok (.ok F) ∧
        (choosePerm ordering A opts).run = .ok (.ok F.perm) ∧
        Regularized A opts F.plan.blank F ∧
        ∀ calls : List (Factorization.Call K), (∀ b, .solve b ∈ calls → b.size = A.cols) →
          ∃ G H, calls.foldlM Factorization.after F = .ok G ∧ G.refactor = .ok (H, .ok ()) ∧
            H.perm = F.perm ∧
            Regularized { A with value := accepted A.value calls } opts G.factors H) ∧
    ∀ (A P : Sparse K) (reg : Regularization K) (settings : Settings K),
      Workspace.Regularizable A P reg settings →
      ∃ w, (Workspace.new ordering A P reg settings).run = .ok (.ok w) ∧
        ∀ events t, Past anyMatrices w events t →
          (∀ B Q dual u result, t.update B Q dual = .ok (u, result) →
            (∀ e, result ≠ .error (.factorization e)) ∧
            ∀ expected found, result ≠ .error (.inertia expected found)) ∧
          ∀ dual : Array K, dual.size = A.rows → (∀ r ∈ dual, 0 < r) →
            ∃ u, t.update A P dual = .ok (u, .ok ()) := by
  refine ⟨fun A opts h => exists_new_regularized ordering h, fun A P reg settings h => ?_⟩
  obtain ⟨s₀, U, hnew, hcurrent⟩ := h.exists_new ordering
  refine ⟨_, hnew, fun events t ht => ?_⟩
  obtain ⟨s, rfl, hs⟩ := ht.current hcurrent
  constructor
  · intro B Q dual u result hupdate
    rcases hs.invariant.update_of_regularize h.regularize h.threshold_pos h.shift_pos hupdate with
      rfl | hrefused
    · exact ⟨nofun, nofun⟩
    · constructor
      · rintro e rfl
        cases hrefused
      · rintro expected found rfl
        cases hrefused
  · intro dual hsize hpositive
    have hall : dual.all Scalar.isPositiveFinite = true := by
      rw [Array.all_eq_true_iff_forall_mem]
      simpa using hpositive
    obtain ⟨u, hupdate, hu, hholds, -⟩ :=
      hs.invariant.exists_workspace_update (Scalar.exact_isFinite reg.primal) hsize hall
    rw [hu.verdict_of_regularize h.regularize h.threshold_pos h.shift_pos hholds] at hupdate
    exact ⟨_, hupdate⟩

namespace Sample

/-- A singular matrix that stores a zero on its diagonal, and nothing in its last place. -/
def singular : Sparse ℚ where
  rows := 3
  cols := 3
  colStart := #[0, 1, 3, 4]
  rowIndex := #[0, 0, 1, 0]
  value := #[0, 1, 2, -1]

/-- Options that expect signs the matrix does not have. -/
def signedOptions : FactorOptions ℚ :=
  { FactorOptions.standard with
    perm := some #[2, 0, 1]
    signs := some #[1, -1, 1]
    regularize := true }

theorem singular_regularizable : Factorization.Regularizable singular signedOptions where
  format_ok := by decide +kernel
  square := rfl
  upper := by decide
  full := by unfold Factorization.FullColumns; decide
  perm_ok perm hperm := by
    obtain rfl := Option.some.inj hperm
    decide
  size_signs signs hsigns := by
    obtain rfl := Option.some.inj hsigns
    rfl
  regularize := rfl
  threshold_pos := by decide +kernel
  shift_pos := by decide +kernel

/-- The settings of the direct method with regularization. -/
def regularizing : Settings ℚ := { Settings.standard with regularize := true }

theorem concave_regularizable : Workspace.Regularizable unitConstraint concave
    (regularization 1 one_pos) regularizing where
  matrices_ok := by decide +kernel
  rows_eq := rfl
  cols_eq := rfl
  size_dual := rfl
  settings_ok := by decide +kernel
  method_eq := rfl
  regularize := rfl
  threshold_pos := by decide +kernel

end Sample

open Factorization Workspace in
/-- The singular matrix is factored in an order asked for. In the workspace for the concave problem
    the update that fails without regularization succeeds after any calls. -/
theorem regularization_forces_signs_sample :
    (∃ F, (Factorization.new .minimumDegree Sample.singular Sample.signedOptions).run =
        .ok (.ok F) ∧ F.perm = #[2, 0, 1] ∧
      Regularized Sample.singular Sample.signedOptions F.plan.blank F) ∧
    ∃ w, (Workspace.new .minimumDegree Sample.unitConstraint Sample.concave
        (Sample.regularization 1 one_pos) Sample.regularizing).run = .ok (.ok w) ∧
      ∀ events t, Past anyMatrices w events t →
        ∃ u, t.update Sample.unitConstraint Sample.concave #[4] = .ok (u, .ok ()) := by
  obtain ⟨hfactor, hworkspace⟩ := regularization_forces_signs (K := ℚ) .minimumDegree
  obtain ⟨F, hnew, hchoose, hregularized, -⟩ := hfactor _ _ Sample.singular_regularizable
  obtain ⟨w, hbuilt, hcalls⟩ := hworkspace _ _ _ _ Sample.concave_regularizable
  exact ⟨⟨F, hnew, (Except.ok.inj (Except.ok.inj hchoose)).symm, hregularized⟩, w, hbuilt,
    fun events t ht => (hcalls events t ht).2 #[4] rfl (by simp)⟩

end Quasidefinite
