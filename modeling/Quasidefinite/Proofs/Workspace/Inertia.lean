import Quasidefinite.Proofs.Kkt.Reduced
import Quasidefinite.Proofs.Workspace.Quasidefinite

/-!
# What the test of the signs decides

Construction and updates count the positive pivots. The count is the positive index of the system,
and so that of the reduced matrix, whatever the quadratic term and the order of elimination. A
result of either therefore decides whether the reduced matrix is positive definite, unless a pivot
vanishes (`Decides`, `Workspace.inertia_decides`); and some pivot vanishes if that matrix is
singular.
-/

namespace Quasidefinite

open scoped Scalar Matrix

variable {K : Type} [Field K] [LinearOrder K]

/-! ## 1. Decisions -/

/-- **What a result of construction or of an update tells of the reduced matrix.** -/
structure Decides {n : Nat} {β : Type} (M : Matrix (Fin n) (Fin n) K)
    (result : Except SystemError β) : Prop where
  /-- A success shows that the matrix is positive definite. -/
  definite : ∀ answer, result = .ok answer → PositiveDefinite M
  /-- If the count of the positive pivots is wrong, the matrix is regular and not positive definite,
      and the count is the largest dimension of a subspace on which its form is. -/
  indefinite : ∀ expected found, result = .error (.inertia expected found) →
    expected = n ∧ M.det ≠ 0 ∧ ¬ PositiveDefinite M ∧
      IsGreatest {d | ∃ W : Submodule K (Fin n → K), Module.finrank K W = d ∧
        ∀ x ∈ W, x ≠ 0 → 0 < x ⬝ᵥ M *ᵥ x} found
  /-- For a singular matrix a pivot vanishes. -/
  singular : M.det = 0 → ∃ column, result = .error (.factorization (.zeroPivot column))
  /-- There are no other results. -/
  complete : (∃ answer, result = .ok answer) ∨ (∃ found, result = .error (.inertia n found)) ∨
    ∃ column, result = .error (.factorization (.zeroPivot column))

namespace Decides

variable {n : Nat} {β γ : Type} {M : Matrix (Fin n) (Fin n) K}

theorem of_definite (hM : PositiveDefinite M) (answer : β) :
    Decides M (.ok answer : Except SystemError β) where
  definite _ _ := hM
  indefinite _ _ h := by cases h
  singular hdet := absurd hdet hM.det_ne_zero
  complete := .inl ⟨answer, rfl⟩

theorem of_indefinite (hdet : M.det ≠ 0) (hM : ¬ PositiveDefinite M) {found : Nat}
    (hfound : IsGreatest {d | ∃ W : Submodule K (Fin n → K), Module.finrank K W = d ∧
      ∀ x ∈ W, x ≠ 0 → 0 < x ⬝ᵥ M *ᵥ x} found) :
    Decides M (.error (.inertia n found) : Except SystemError β) where
  definite _ h := by cases h
  indefinite _ _ h := by
    cases h
    exact ⟨rfl, hdet, hM, hfound⟩
  singular hzero := absurd hzero hdet
  complete := .inr (.inl ⟨found, rfl⟩)

theorem of_zeroPivot (M : Matrix (Fin n) (Fin n) K) (column : Nat) :
    Decides M (.error (.factorization (.zeroPivot column)) : Except SystemError β) where
  definite _ h := by cases h
  indefinite _ _ h := by cases h
  singular _ := ⟨column, rfl⟩
  complete := .inr (.inr ⟨column, rfl⟩)

/-- What a result decides does not depend on what it answers. -/
theorem map {result : Except SystemError β} (h : Decides M result) (f : β → γ) :
    Decides M (result.map f) := by
  rcases h.complete with ⟨answer, rfl⟩ | ⟨found, rfl⟩ | ⟨column, rfl⟩
  · exact of_definite (h.definite answer rfl) (f answer)
  · obtain ⟨-, hdet, hM, hfound⟩ := h.indefinite n found rfl
    exact of_indefinite hdet hM hfound
  · exact of_zeroPivot M column

end Decides

/-! ## 2. Verdicts -/

variable [IsStrictOrderedRing K] [SquareRoot K]

namespace DirectSystem.Invariant

variable {ordering : FillOrdering} {A P U : Sparse K} {primal : K} {settings : Settings K}
  {dual : Array K} {s : DirectSystem K} {S : Matrix (Fin A.cols) (Fin A.cols) K}
  (h : Invariant ordering A P U primal settings dual s) (hreg : settings.regularize = false)
  (hS : P.Stores S) (hdual : ∀ i : Fin A.rows, 0 < vector A.rows dual i)

include h hreg hS hdual

/-- If no pivot vanishes, the reduced matrix is regular, and the positive pivots are as many as its
    positive index. -/
theorem positive_eq (houtcome : Factorization.outcome s.factorization.plan = .ok ())
    (hholds : s.factorization.Holds) :
    (Kkt.reduced A S primal dual).det ≠ 0 ∧
      s.factorization.factors.positive = positiveIndex (Kkt.reduced A S primal dual) := by
  have hcols : A.cols + A.rows = s.kkt.matrix.cols := by rw [h.cols_eq, Nat.add_comm]
  have hdistinct := h.assembled.distinct h.data.blocks
  have hsystem := h.assembled.submatrix_eq h.data.blocks (getD_negate dual) hcols
  rw [h.data.symmetricMatrix_eq, hS.symmetricMatrix_eq] at hsystem
  refine ⟨fun hzero => ?_, ?_⟩
  · have hdet := Kkt.det_system_eq_zero (fun i => (hdual i).ne') hzero
    rw [← hsystem, Matrix.det_submatrix_equiv_self] at hdet
    exact (h.of.correct hdistinct hreg houtcome hholds).det_ne_zero hdet
  · rw [h.of.positive_eq hdistinct hreg houtcome hholds, ← Kkt.positiveIndex_system hdual,
      ← hsystem, positiveIndex_submatrix]

/-- **The verdict decides whether the reduced matrix is positive definite**, unless a pivot
    vanishes. -/
theorem decides (hholds : s.factorization.Holds) :
    Decides (Kkt.reduced A S primal dual) (verdict s.factorization A.cols) := by
  have hsymm : (Kkt.reduced A S primal dual).IsSymm := Kkt.reduced_isSymm hS.isSymm
  have hdefinite := positiveDefinite_iff hsymm
  cases hbad : s.factorization.plan.firstBad with
  | some column =>
    have houtcome : Factorization.outcome s.factorization.plan = .error (.zeroPivot column) := by
      rw [Factorization.outcome, hbad]
    rw [verdict_of_error houtcome]
    exact .of_zeroPivot _ column
  | none =>
    have houtcome : Factorization.outcome s.factorization.plan = .ok () := by
      rw [Factorization.outcome, hbad]
    obtain ⟨hdet, hpositive⟩ := h.positive_eq hreg hS hdual houtcome hholds
    rw [verdict_of_ok houtcome, checkInertia]
    split
    case isTrue hcount => exact .of_definite (hdefinite.2 (hpositive.symm.trans hcount)) ()
    case isFalse hcount =>
      refine .of_indefinite hdet (fun hM => hcount (hpositive.trans (hdefinite.1 hM))) ?_
      rw [hpositive]
      exact positiveIndex_isGreatest _

end DirectSystem.Invariant

/-! ## 3. Construction and updates -/

namespace Workspace

/-- **The test of the signs decides whether the reduced matrix is positive definite.** For every
    symmetric quadratic term in whichever form, positive regularizers and every order of
    elimination, construction for the direct method answers, and its result decides this of the
    reduced matrix; so does, in every reachable session, that of an update with a positive
    regularizer. -/
theorem inertia_decides (ordering : FillOrdering) {A P : Sparse K}
    (hA : A.checkFormat.run = .ok (.ok ())) (hP : P.checkFormat.run = .ok (.ok ()))
    (hrows : P.rows = A.cols) (hcols : P.cols = A.cols)
    {S : Matrix (Fin A.cols) (Fin A.cols) K} (hS : P.Stores S) (reg : Regularization K)
    (hdual : reg.dual.size = A.rows) (settings : Settings K)
    (hsettings : settings.validate = .ok ()) (hmethod : settings.method = .direct)
    (hreg : settings.regularize = false) :
    (∃ result, (new ordering A P reg settings).run = .ok result ∧
      Decides (Kkt.reduced A S reg.primal reg.dual) result) ∧
    ∀ s : Session K, s.Reachable ordering A P reg settings →
      ∀ dual : Array K, dual.size = A.rows → (∀ r ∈ dual, 0 < r) →
        ∃ t result, s.workspace.update A P dual = .ok (t, result) ∧
          Decides (Kkt.reduced A S reg.primal dual) result := by
  have hA' := Sparse.wellFormed_of_checkFormat hA
  have hP' := Sparse.wellFormed_of_checkFormat hP
  refine ⟨?_, fun s hs dual hsize hpositive => ?_⟩
  · obtain ⟨U, hdata⟩ := DirectSystem.exists_data hA' hP' hrows hcols
    have hadmissible : Admissible A P settings := ⟨hsettings, hrows, hcols, fun _ =>
      checkMatrices_eq_ok hA hP (hrows.trans hcols.symm) (hS.upper_or_symmetric hcols)⟩
    obtain ⟨s, hs, hholds, -, hnew⟩ :=
      Session.exists_new_direct hdata hadmissible hdual hmethod ordering
    exact ⟨_, hnew, (hs.decides hreg hS (vector_pos hdual reg.dual_ok) hholds).map _⟩
  · obtain ⟨U, ⟨h, -⟩⟩ := hs.exists_ofDirect hA' hP' hmethod
    have hall : dual.all Scalar.isPositiveFinite = true := by
      rw [Array.all_eq_true_iff_forall_mem]
      simpa using hpositive
    obtain ⟨t, hupdate, ht, hholds, -⟩ := h.exists_workspace_update reg.isFinite_primal hsize hall
    exact ⟨_, _, hupdate, ht.decides hreg hS (vector_pos hsize hall) hholds⟩

/-- The reduced matrix of a small problem is `1 / ρ - 1 / 2` for the dual regularizer `ρ`. It is
    positive definite at first; then one update finds it negative, and the next one singular. -/
theorem inertia_decides_sample : ∃ w t u column,
    (new .minimumDegree Sample.unitConstraint Sample.concave
      (Sample.regularization 1 one_pos) .standard).run = .ok (.ok w) ∧
    PositiveDefinite
      (Kkt.reduced Sample.unitConstraint (Sample.concave.matrix 1 1) (1 / 2) #[1]) ∧
    w.update Sample.unitConstraint Sample.concave #[4] = .ok (t, .error (.inertia 1 0)) ∧
    ¬ PositiveDefinite
      (Kkt.reduced Sample.unitConstraint (Sample.concave.matrix 1 1) (1 / 2) #[4]) ∧
    t.update Sample.unitConstraint Sample.concave #[2] =
      .ok (u, .error (.factorization (.zeroPivot column))) := by
  have hanswers : (new .minimumDegree Sample.unitConstraint Sample.concave
      (Sample.regularization 1 one_pos) .standard).answer?.map (fun w =>
        (w.update Sample.unitConstraint Sample.concave #[4]).map Prod.snd) =
      some (.ok (.error (.inertia 1 0))) := by
    decide +kernel
  obtain ⟨w, hw, hsecond⟩ := Option.map_eq_some_iff.1 hanswers
  have hnew := Attempt.run_of_answer? hw
  obtain ⟨⟨result, hresult, hdecides⟩, hupdates⟩ := inertia_decides .minimumDegree
    (A := Sample.unitConstraint) (P := Sample.concave) (by decide +kernel) (by decide +kernel)
    rfl rfl (.of_symm (by decide +kernel)) (Sample.regularization 1 one_pos) rfl .standard
    (by decide +kernel) rfl rfl
  obtain rfl : result = .ok w := Except.ok.inj (hresult.symm.trans hnew)
  have hreached := Session.Reachable.new w hnew
  obtain ⟨t, result, hupdate, hdecides'⟩ := hupdates _ hreached #[4] rfl (by simp)
  rw [hupdate] at hsecond
  obtain rfl : result = .error (.inertia 1 0) := Except.ok.inj hsecond
  obtain ⟨-, -, hindefinite, -⟩ := hdecides'.indefinite 1 0 rfl
  obtain ⟨u, result, hupdate', hdecides''⟩ := hupdates _
    (.call _ _ (.update #[4]) _ _ hreached (Session.call_update hupdate)) #[2] rfl (by simp)
  have hsingular :
      (Kkt.reduced Sample.unitConstraint (Sample.concave.matrix 1 1) (1 / 2) #[2]).det = 0 := by
    decide +kernel
  obtain ⟨column, rfl⟩ := hdecides''.singular hsingular
  exact ⟨w, t, u, column, hnew, hdecides.definite w rfl, hupdate, hindefinite, hupdate'⟩

end Workspace

end Quasidefinite
