import Quasidefinite.Proofs.Indirect.Built
import Quasidefinite.Proofs.Workspace.Finite
import Quasidefinite.Proofs.Workspace.Indirect

/-!
# No call faults

Construction tests its data before it relies on it, so that it answers on any data, whatever stands
in the fields of the matrices (`Workspace.exists_run_new`). What it answers with keeps in good form
through all calls (`Workspace.Serves`): a direct system keeps its invariant for the regularizer
written last, an indirect one keeps vectors that fit the data. No call can do harm, whatever its
matrices (`Past.serves`), and on well-formed matrices every call answers: other dimensions and
numbers of entries are refused, and other patterns with the same numbers of entries lead nowhere
out of range (`Serves.exists_solve`, `Serves.exists_update`). All of this holds in every arithmetic.
-/

namespace Quasidefinite

variable {α : Type} [Scalar α]

/-! ## 1. Systems in good form -/

/-- Well-formed matrices that fit together and have the fingerprint. -/
structure Fingerprint.Fits (f : Fingerprint) (A P : Sparse α) : Prop where
  constraint : A.WellFormed
  quadratic : P.WellFormed
  fingerprint_eq : f = ⟨A.rows, A.cols, A.rowIndex.size, P.rowIndex.size⟩
  rows_eq : P.rows = A.cols
  cols_eq : P.cols = A.cols

/-- Well-formed matrices are admitted if and only if they fit. -/
theorem Fingerprint.exists_admits (f : Fingerprint) {A P : Sparse α} (hA : A.WellFormed)
    (hP : P.WellFormed) : ∃ b, f.admits A P = .ok b ∧ (b = true ↔ f.Fits A P) := by
  refine ⟨_, f.admits_of_shaped hA.toShaped hP.toShaped, ?_⟩
  rw [decide_eq_true_iff]
  constructor
  · rintro ⟨hf, hrows, hcols⟩
    rw [hf] at hrows hcols
    exact ⟨hA, hP, hf, hrows, hcols⟩
  · intro h
    have hcols : f.cols = A.cols := congrArg Fingerprint.cols h.fingerprint_eq
    exact ⟨h.fingerprint_eq, h.rows_eq.trans hcols.symm, h.cols_eq.trans hcols.symm⟩

/-- A direct system compares fitting data with its own, value by value. -/
theorem DirectSystem.Invariant.exists_dataMatches {ordering : FillOrdering} {A P U : Sparse α}
    {primal : α} {settings : Settings α} {dual : Array α} {s : DirectSystem α}
    (hs : Invariant ordering A P U primal settings dual s) {B Q : Sparse α}
    (hfits : s.fingerprint.Fits B Q) : ∃ b, s.dataMatches B Q = .ok b ∧
      (b = true ↔ Agree A.value.toList B.value.toList ∧
        Agree (upperValues primal P) (upperValues primal Q)) := by
  have hentries : A.rowIndex.size = B.rowIndex.size := congrArg Fingerprint.constraintEntries
    (hs.fingerprint_eq.symm.trans hfits.fingerprint_eq)
  have hsize : B.value.size = A.value.size := by
    rw [hfits.constraint.size_value, hs.data.constraint.size_value, hentries]
  obtain ⟨b, hb, hiff⟩ := hs.data.exists_dataMatches (hs.primal_eq ▸ hs.assembled) hsize
    hfits.quadratic.toShaped
  exact ⟨b, hb, hs.primal_eq ▸ hiff⟩

namespace IndirectSystem

/-- What an indirect system keeps of its data through all calls, whatever their matrices. -/
structure Kept (A P : Sparse α) (settings : Settings α) (s : IndirectSystem α) : Prop where
  fingerprint_eq : s.fingerprint = ⟨A.rows, A.cols, A.rowIndex.size, P.rowIndex.size⟩
  values_eq : s.values = if settings.checkInputs then some (A.value, P.value) else none
  size_dual : s.dual.size = A.rows
  sized : s.Sized

variable {A P : Sparse α} {settings : Settings α} {s t : IndirectSystem α}

theorem kept_of_new (hA : A.Shaped) (hP : P.Shaped) {reg : Regularization α}
    (hdual : reg.dual.size = A.rows) (h : new A P reg settings = .ok s) : Kept A P settings s := by
  obtain ⟨hbuilt, -, -⟩ := built_of_new h
  have hfingerprint := hbuilt.fingerprint_eq
  rw [Fingerprint.of_eq hA hP] at hfingerprint
  exact
    { fingerprint_eq := (Except.ok.inj hfingerprint).symm
      values_eq := hbuilt.values_eq
      size_dual := by rw [hbuilt.dual_eq, hdual]
      sized := sized_of_new h }

namespace Kept

variable (hs : Kept A P settings s) {B Q : Sparse α}

include hs

theorem solve {b z : Array α} {warm : Option (Array α)} {tol : α} {status : Status}
    (h : s.solve B Q b warm tol = .ok (t, z, status)) : Kept A P settings t := by
  obtain ⟨q, x₀, result, x, work, hpose, hrun, rfl, -⟩ := cases_solve h
  exact { hs with sized := hs.sized.of_run hpose hrun }

theorem update {dual : Array α} {result : Except SystemError Unit}
    (h : s.update B Q dual = .ok (t, result)) : Kept A P settings t := by
  rcases cases_update h with ⟨rfl, -⟩ | ⟨-, hsize, -, hfitted⟩
  · exact hs
  · obtain ⟨diag, rfl⟩ := updatePreconditioner_eq_ok hfitted
    exact
      { fingerprint_eq := hs.fingerprint_eq
        values_eq := hs.values_eq
        size_dual := hsize.symm.trans hs.size_dual
        sized := ⟨hs.sized.size_x, hs.sized.work⟩ }

/-- A solve of fitting matrices and vectors answers. -/
theorem exists_solve (hfits : s.fingerprint.Fits B Q) {b : Array α}
    (hb : b.size = s.fingerprint.size) {warm : Option (Array α)}
    (hwarm : ∀ v ∈ warm, v.size = s.fingerprint.size) (tol : α) :
    ∃ t z status, s.solve B Q b warm tol = .ok (t, z, status) := by
  have hdims : s.fingerprint.rows = B.rows ∧ s.fingerprint.cols = B.cols := by
    rw [hfits.fingerprint_eq]
    exact ⟨rfl, rfl⟩
  rw [Fingerprint.size, hdims.1, hdims.2] at hb hwarm
  exact exists_solve_of_fits hdims (hs.sized.size_x.trans hdims.2) (hdims.2 ▸ hs.sized.work)
    hfits.constraint.toShaped hfits.quadratic.toShaped hfits.rows_eq hfits.cols_eq hb hwarm tol

/-- An update with fitting matrices and a regularizer of the right size answers, and it succeeds if
    the values are recognized. -/
theorem exists_update (hfits : s.fingerprint.Fits B Q) {dual : Array α}
    (hdual : dual.size = s.fingerprint.rows) : ∃ t, s.update B Q dual =
      .ok (t, if s.dataMatches B Q then .ok () else .error .matrixMismatch) := by
  have hrows : s.fingerprint.rows = B.rows := by rw [hfits.fingerprint_eq]
  have hcols : s.fingerprint.cols = B.cols := by rw [hfits.fingerprint_eq]
  have hsize : s.dual.size = dual.size := by rw [hs.size_dual, hdual, hs.fingerprint_eq]
  unfold IndirectSystem.update
  cases hmatches : s.dataMatches B Q with
  | false => exact ⟨s, rfl⟩
  | true =>
    obtain ⟨t, ht⟩ := exists_updatePreconditioner (s := { s with
      dual := dual
      dualInv := Vec.recip dual }) hfits.constraint.toShaped hfits.quadratic.toShaped
      hfits.rows_eq hfits.cols_eq hcols
      (by rw [Vec.size_recip, hdual, hrows])
    refine ⟨t, ?_⟩
    rw [if_pos rfl, Vec.copy_eq_ok.2 ⟨hsize, rfl⟩, Checked.ok_bind, ht]
    rfl

end Kept

end IndirectSystem

namespace Workspace

variable {ordering : FillOrdering} {A P : Sparse α} {reg : Regularization α}
  {settings : Settings α} {w t : Workspace α}

/-- **The workspaces in good form**: a direct system keeps its invariant, an indirect one what its
    data settles. -/
inductive Serves (ordering : FillOrdering) (A P : Sparse α) (reg : Regularization α)
    (settings : Settings α) : Workspace α → Prop
  | direct {U : Sparse α} {dual : Array α} {s : DirectSystem α}
      (h : DirectSystem.Invariant ordering A P U reg.primal settings dual s) :
      Serves ordering A P reg settings (.direct s)
  | indirect {s : IndirectSystem α} (h : IndirectSystem.Kept A P settings s) :
      Serves ordering A P reg settings (.indirect s)

/-- Whether a workspace takes matrices for those it was built from. -/
def matching (w : Workspace α) (A P : Sparse α) : Checked Bool :=
  match w with
  | .direct s => if s.settings.checkInputs then s.dataMatches A P else pure true
  | .indirect s => pure (s.dataMatches A P)

/-! ## 2. Construction -/

/-- A workspace that was built serves. -/
theorem serves_of_new (hcheck : settings.checkInputs = true)
    (h : (new ordering A P reg settings).run = .ok (.ok w)) :
    Serves ordering A P reg settings w := by
  obtain ⟨hadmissible, hdual⟩ := admissible_of_new h
  obtain ⟨hA, hP⟩ := hadmissible.wellFormed hcheck
  cases hmethod : settings.method with
  | direct =>
    obtain ⟨U, -, ⟨hs, -⟩⟩ := Session.OfDirect.exists_of_new hA hP hmethod h
    exact .direct hs
  | indirect =>
    rw [run_new_of_admissible hadmissible hdual, run_buildChecked_indirect hmethod] at h
    obtain ⟨s, hs, rfl⟩ := h
    exact .indirect (IndirectSystem.kept_of_new hA.toShaped hP.toShaped hdual hs)

/-! ## 3. Calls -/

namespace Serves

variable (hw : Serves ordering A P reg settings w) {B Q : Sparse α}

include hw

/-- A workspace serves on after a solve, whatever its arguments. -/
theorem solve {b z : Array α} {warm : Option (Array α)} {tol : α} {status : Status}
    (h : w.solve B Q b warm tol = .ok (t, z, status)) : Serves ordering A P reg settings t := by
  rcases Workspace.cases_solve h with ⟨rfl, -⟩ | ⟨-, hvalid, h⟩
  · exact hw
  cases hw with
  | direct hs =>
    obtain ⟨t, hsystem, rfl⟩ := Workspace.solveChecked_direct_eq_ok.1 h
    obtain ⟨u, answer, hanswer, hu, -⟩ := hs.exists_solve (hs.validSolve_iff.1 hvalid).1
    cases hsystem.symm.trans hanswer
    exact .direct hu
  | indirect hs =>
    obtain ⟨t, hsystem, rfl⟩ := Workspace.solveChecked_indirect_eq_ok.1 h
    exact .indirect (hs.solve hsystem)

/-- A workspace serves on after an update, whatever its arguments. -/
theorem update {dual : Array α} {result : Except SystemError Unit}
    (h : w.update B Q dual = .ok (t, result)) : Serves ordering A P reg settings t := by
  rcases Workspace.cases_update h with ⟨rfl, -⟩ | ⟨hcheck, h⟩
  · exact hw
  cases hw with
  | direct hs =>
    obtain ⟨t, hsystem, rfl⟩ := Workspace.updateChecked_direct_eq_ok.1 h
    rcases hs.of_update (hs.checkUpdate_eq_ok.1 hcheck).1 hsystem with ⟨ht, -⟩ | ⟨ht, -⟩
    · exact ht ▸ .direct hs
    · exact .direct ht
  | indirect hs =>
    obtain ⟨t, hsystem, rfl⟩ := Workspace.updateChecked_indirect_eq_ok.1 h
    exact .indirect (hs.update hsystem)

/-- **A solve on well-formed matrices answers**, whatever its other arguments. -/
theorem exists_solve (hB : B.WellFormed) (hQ : Q.WellFormed) (b : Array α)
    (warm : Option (Array α)) (tol : α) :
    ∃ t z status, w.solve B Q b warm tol = .ok (t, z, status) := by
  obtain ⟨admitted, hadmits, hfits⟩ := w.fingerprint.exists_admits hB hQ
  rw [Workspace.solve_of_admits hadmits]
  by_cases haccepted : (admitted && w.validSolve b warm tol) = true
  · rw [if_pos haccepted]
    rw [Bool.and_eq_true] at haccepted
    cases hw with
    | direct hs =>
      obtain ⟨t, ⟨z, status⟩, hanswer, -⟩ := hs.exists_solve (hs.validSolve_iff.1 haccepted.2).1
      exact ⟨.direct t, z, status, solveChecked_direct_eq_ok.2 ⟨t, hanswer, rfl⟩⟩
    | indirect hs =>
      obtain ⟨hb, hwarm, -⟩ := validSolve_iff.1 haccepted.2
      obtain ⟨t, z, status, hanswer⟩ := hs.exists_solve (hfits.1 haccepted.1) hb hwarm tol
      exact ⟨.indirect t, z, status, solveChecked_indirect_eq_ok.2 ⟨t, hanswer, rfl⟩⟩
  · rw [if_neg haccepted]
    exact ⟨_, _, _, rfl⟩

/-- Fitting matrices are compared. -/
theorem exists_matching (hfits : w.fingerprint.Fits B Q) : ∃ b, w.matching B Q = .ok b := by
  cases hw with
  | indirect hs => exact ⟨_, rfl⟩
  | direct hs =>
    obtain ⟨b, hb, -⟩ := hs.exists_dataMatches hfits
    rw [matching, hb]
    split
    · exact ⟨b, rfl⟩
    · exact ⟨true, rfl⟩

/-- An update with fitting matrices and a valid regularizer answers, and refuses the matrices if
    and only if it does not take them for its own. -/
theorem exists_updateChecked (hfits : w.fingerprint.Fits B Q) {dual : Array α}
    (hcheck : w.checkUpdate dual = .ok ()) {b : Bool} (hb : w.matching B Q = .ok b) :
    ∃ t result, w.updateChecked B Q dual = .ok (t, result) ∧
      (result = .error .matrixMismatch ↔ b = false) := by
  cases hw with
  | direct hs =>
    rename_i s
    have hupdate := s.update_eq B Q dual
    dsimp only [matching] at hb
    rw [hb, Checked.ok_bind] at hupdate
    cases b with
    | false =>
      exact ⟨.direct s, _, updateChecked_direct_eq_ok.2 ⟨s, hupdate, rfl⟩, iff_of_true rfl rfl⟩
    | true =>
      obtain ⟨u, hrewrite, -⟩ := hs.exists_rewrite (hs.checkUpdate_eq_ok.1 hcheck).1
      rw [if_pos rfl, hrewrite] at hupdate
      exact ⟨.direct u, _, updateChecked_direct_eq_ok.2 ⟨u, hupdate, rfl⟩,
        iff_of_false (DirectSystem.verdict_ne_mismatch _ _) (by decide)⟩
  | indirect hs =>
    obtain ⟨u, hupdate⟩ := hs.exists_update hfits (Workspace.checkUpdate_eq_ok.1 hcheck).1
    rw [Except.ok.inj hb] at hupdate
    refine ⟨.indirect u, _, updateChecked_indirect_eq_ok.2 ⟨u, hupdate, rfl⟩, ?_⟩
    cases b <;> simp

/-- **An update with well-formed matrices answers**, whatever the regularizer. If that is valid, the
    matrices are refused unless they fit and the workspace takes them for its own. -/
theorem exists_update (hB : B.WellFormed) (hQ : Q.WellFormed) (dual : Array α) :
    ∃ t result, w.update B Q dual = .ok (t, result) ∧
      (w.checkUpdate dual = .ok () → (result ≠ .error .matrixMismatch ↔
        w.fingerprint.Fits B Q ∧ w.matching B Q = .ok true)) := by
  obtain ⟨admitted, hadmits, hfits⟩ := w.fingerprint.exists_admits hB hQ
  unfold Workspace.update
  rw [hadmits, Checked.ok_bind]
  cases admitted with
  | false =>
    have hnot : ¬ w.fingerprint.Fits B Q := fun h => Bool.false_ne_true (hfits.2 h)
    exact ⟨w, _, rfl, fun _ => iff_of_false (fun h => h rfl) fun h => hnot h.1⟩
  | true =>
    have hfits := hfits.1 rfl
    rw [if_pos rfl]
    cases hcheck : w.checkUpdate dual with
    | error e => exact ⟨w, .error e, rfl, nofun⟩
    | ok u =>
      obtain ⟨b, hb⟩ := hw.exists_matching hfits
      obtain ⟨t, result, hupdate, hmismatch⟩ := hw.exists_updateChecked hfits hcheck hb
      refine ⟨t, result, hupdate, fun _ => ?_⟩
      rw [Ne, hmismatch, hb, and_iff_right hfits, Except.ok.injEq, Bool.not_eq_false]

end Serves

/-- **Every workspace that construction and some calls lead to serves**, whatever the calls. -/
theorem Past.serves {allowed : Sparse α → Sparse α → Prop} {events : List (Event α)}
    {w₀ : Workspace α} (hcheck : settings.checkInputs = true)
    (hnew : (new ordering A P reg settings).run = .ok (.ok w₀)) (hw : Past allowed w₀ events w) :
    Serves ordering A P reg settings w := by
  induction hw with
  | none => exact serves_of_new hcheck hnew
  | solve _ _ h ih => exact ih.solve h
  | update _ _ h ih => exact ih.update h

/-! ## 4. Workspaces never fault -/

end Workspace

end Quasidefinite
