import Quasidefinite.Proofs.Factor.Overflow
import Quasidefinite.Proofs.Kkt.Entries
import Quasidefinite.Proofs.Workspace.Failure
import Quasidefinite.Proofs.Workspace.History

/-!
# Two copies of one matrix

A direct system holds the matrix of the whole system twice: as it was assembled, and relabelled in
its factorization, which never looks at the first copy again. Updates write to both of them, each
through its own places. `DirectSystem.Copies` says that the copies agree and are the matrix of the
data and of the regularizer written last; every workspace that construction and some calls lead to
satisfies it (`Workspace.copies_agree`), whether these calls succeeded, failed or were refused.

That the assembled matrix stays well formed takes more than the loops that write it. A diagonal
entry of the top left block can overflow when the primal regularizer is added; construction then
fails, as the factorization meets a pivot that is not finite.
-/

namespace Quasidefinite

variable {α : Type} [Scalar α]

namespace DirectSystem

/-- **The two copies of the matrix agree**, and are the matrix of the data and the regularizers,
    with the pattern of the system `s₀`. -/
structure Copies (A P : Sparse α) (primal : α) (dual : Array α) (s₀ s : DirectSystem α) :
    Prop where
  checked : s.kkt.matrix.checkFormat.run = .ok (.ok ())
  upper : s.kkt.matrix.isUpper = .ok true
  dims_eq : s.kkt.matrix.dims = (A.rows + A.cols, A.rows + A.cols)
  pattern_eq : s.kkt = { s₀.kkt with
    matrix := { s₀.kkt.matrix with value := s.kkt.matrix.value } }
  stored_eq : ∀ i j, i ≤ j → j < A.rows + A.cols →
    s.kkt.matrix.stored i j = Kkt.systemEntry A P primal dual i j
  linked : ∀ (p : Nat) (v : α), s.kkt.matrix.value[p]? = some v →
    ∃ q : Nat, s.factorization.place[p]? = some q ∧
      s.factorization.plan.matrix.value[q]? = some v

/-! ## 1. The data -/

theorem Data.stored_eq {A P U : Sparse α} (h : Data A P U) {i j : Nat} (hij : i ≤ j)
    (hj : j < A.cols) : U.stored i j = P.stored i j := by
  rcases h.cases_upper with ⟨rfl, -⟩ | rfl
  · rfl
  · exact Sparse.stored_upperPart P hij (h.cols_eq.symm ▸ hj)

theorem Data.systemEntry_eq {A P U : Sparse α} (h : Data A P U) (primal : α) (dual : Array α)
    {i j : Nat} (hij : i ≤ j) :
    Kkt.systemEntry A U primal dual i j = Kkt.systemEntry A P primal dual i j := by
  unfold Kkt.systemEntry
  by_cases hj : j < A.cols
  · rw [h.stored_eq hij hj]
  · rw [if_neg hj, if_neg hj]

/-! ## 2. Systems in good form -/

namespace Invariant

variable {ordering : FillOrdering} {A P U : Sparse α} {primal : α} {settings : Settings α}
  {dual : Array α} {s : DirectSystem α}
  (h : Invariant ordering A P U primal settings dual s)

include h

theorem stored_eq (hdual : dual.size = A.rows) {i j : Nat} (hij : i ≤ j)
    (hj : j < A.rows + A.cols) :
    s.kkt.matrix.stored i j = Kkt.systemEntry A P primal dual i j := by
  rw [← h.data.systemEntry_eq primal dual hij]
  refine Kkt.Assembled.stored_eq h.data.blocks h.assembled (fun i hi => ?_) hij hj
  exact getD_map _ dual 0 0 (hdual.symm ▸ hi)

/-- The values of the relabelled copy stand where the places say. -/
theorem exists_place {p : Nat} {v : α} (hv : s.kkt.matrix.value[p]? = some v) :
    ∃ q, s.factorization.place[p]? = some q ∧
      s.factorization.plan.matrix.value[q]? = some v := by
  obtain ⟨label, -, -, hrelabel⟩ := h.of.planOf.exists_labels
  obtain ⟨hp, rfl⟩ := Array.getElem?_eq_some_iff.1 hv
  have hp' : p < s.kkt.matrix.rowIndex.size := h.triangle.size_value ▸ hp
  have hplace : p < s.factorization.place.size := hrelabel.size_place.symm ▸ hp'
  have hq := h.of.planOf.place_lt hp'
  have hval := hrelabel.val_place hp'
  unfold Sparse.val at hval
  rw [getD_of_lt _ _ _ hp, getD_of_lt _ _ _ hq] at hval
  refine ⟨s.factorization.place.getD p 0, ?_, ?_⟩
  · rw [Array.getElem?_eq_getElem hplace, getD_of_lt _ _ _ hplace]
  · rw [Array.getElem?_eq_getElem hq, hval]

variable [OverflowScalar α]

/-- **Once the factorization succeeded, the diagonal of the top left block is finite.** -/
theorem isFinite_diagonal (hprimal : Scalar.isPositiveFinite primal = true)
    (hverdict : verdict s.factorization A.cols = .ok ()) {j : Nat} (hj : j < A.cols) :
    Scalar.isFinite (P.stored j j + primal) = true := by
  have hblocks := h.data.blocks
  obtain ⟨hp, hrow, hcol⟩ := h.assembled.at_diagonal hblocks (j := j) (by omega)
  have hmem := h.triangle.mem_positions_colOf hp
  have hlt := h.triangle.colOf_lt hp
  have hsign : ∀ signs, (factorOptions A settings).signs = some signs →
      0 ≤ signs.getD (s.kkt.matrix.colOf (s.kkt.places.diagonal.getD j 0)) 0 := by
    intro signs hsigns
    obtain rfl : expectedSigns A.cols A.rows = signs := Option.some.inj hsigns
    rw [hcol, getD_of_lt _ _ _ (by rw [size_expectedSigns]; omega)]
    simp [expectedSigns, hj]
  have hbelow := h.of.planOf.not_overflown (h.assembled.distinct hblocks)
    (firstBad_of_verdict hverdict) hp (hrow.trans hcol.symm) hsign
  have hval : s.kkt.matrix.val (s.kkt.places.diagonal.getD j 0) = P.stored j j + primal := by
    rw [← Sparse.stored_row (h.assembled.distinct hblocks) hlt hmem, hrow, hcol,
      h.assembled.stored_primal hblocks hj, if_pos rfl, h.data.stored_eq (Nat.le_refl j) hj]
  rw [hval] at hbelow
  have hfinite : Scalar.isFinite (P.stored j j) = true :=
    h.data.quadratic.isFinite_stored OverflowScalar.isFinite_zero (h.data.cols_eq.symm ▸ hj)
  exact (OverflowScalar.finite_or_overflown hfinite hprimal).resolve_right hbelow

/-- **A system in good form holds two copies that agree**, as long as its dual regularizer is
    valid. -/
theorem copies {s₀ : DirectSystem α} {dual₀ : Array α}
    (h₀ : Invariant ordering A P U primal settings dual₀ s₀)
    (hprimal : ∀ j < A.cols, Scalar.isFinite (P.stored j j + primal) = true)
    (hsize : dual.size = A.rows) (hdual : dual.all Scalar.isPositiveFinite = true) :
    Copies A P primal dual s₀ s := by
  have hfinite : ∀ i < A.rows, Scalar.isFinite (dual.getD i 0) = true := by
    intro i hi
    have hi : i < dual.size := hsize.symm ▸ hi
    rw [Array.all_eq_true] at hdual
    rw [getD_of_lt _ _ _ hi]
    exact (Bool.and_eq_true_iff.1 (hdual i hi)).2
  have hwell : s.kkt.matrix.WellFormed :=
    h.assembled.wellFormed h.data.blocks fun i j hij hj => by
      rw [h.stored_eq hsize hij hj]
      exact Kkt.isFinite_systemEntry h.data.constraint h.data.quadratic h.data.cols_eq hprimal
        hfinite hj
  exact
    { checked := hwell.checkFormat_eq
      upper := hwell.isUpper_of_upper h.triangle.upper
      dims_eq := Prod.ext h.assembled.layout.rows_eq h.assembled.layout.cols_eq
      pattern_eq := h.assembled.eq_revalue h₀.assembled
      stored_eq := fun i j hij hj => h.stored_eq hsize hij hj
      linked := fun p v hv => h.exists_place hv }

end Invariant

/-! ## 3. Runs -/

/-- An update that comes to a verdict has passed its validation. -/
theorem passed_verdict (F : Factorization α) (n : Nat) : passed (verdict F n) = true := by
  cases houtcome : Factorization.outcome F.plan with
  | error e =>
    rw [verdict_of_error houtcome]
    rfl
  | ok u =>
    rw [verdict_of_ok houtcome]
    unfold checkInertia
    split <;> rfl

/-- **The system is in good form for the regularizer that the record says was written last**,
    which is valid. -/
structure Current (ordering : FillOrdering) (A P U : Sparse α) (reg : Regularization α)
    (settings : Settings α) (events : List (Event α)) (s : DirectSystem α) : Prop where
  invariant : Invariant ordering A P U reg.primal settings (writtenDual reg.dual events) s
  size_written : (writtenDual reg.dual events).size = A.rows
  valid_written : (writtenDual reg.dual events).all Scalar.isPositiveFinite = true

namespace Current

variable {ordering : FillOrdering} {A P U : Sparse α} {reg : Regularization α}
  {settings : Settings α} {events : List (Event α)} {s : DirectSystem α}
  (hs : Current ordering A P U reg settings events s)

include hs

theorem solve {B Q : Sparse α} {b z : Array α} {warm : Option (Array α)} {tol : α}
    {w : Workspace α} {status : Status}
    (h : (Workspace.direct s).solve B Q b warm tol = .ok (w, z, status)) :
    ∃ t, w = .direct t ∧ Current ordering A P U reg settings (.solve z status :: events) t := by
  rcases Workspace.cases_solve h with ⟨rfl, -⟩ | ⟨-, hvalid, h⟩
  · exact ⟨s, rfl, hs.invariant, hs.size_written, hs.valid_written⟩
  · obtain ⟨u, hsystem, rfl⟩ := Workspace.solveChecked_direct_eq_ok.1 h
    obtain ⟨t, answer, hanswer, ht, -⟩ :=
      hs.invariant.exists_solve (hs.invariant.validSolve_iff.1 hvalid).1
    cases hsystem.symm.trans hanswer
    exact ⟨u, rfl, ht, hs.size_written, hs.valid_written⟩

theorem update {B Q : Sparse α} {dual : Array α} {w : Workspace α}
    {result : Except SystemError Unit}
    (h : (Workspace.direct s).update B Q dual = .ok (w, result)) :
    ∃ t, w = .direct t ∧
      Current ordering A P U reg settings (.update dual result :: events) t := by
  -- an update that is refused counts for nothing
  have hrefused : ∀ result, passed result = false →
      Current ordering A P U reg settings (.update dual result :: events) s := by
    intro result hresult
    have hwritten : writtenDual reg.dual (.update dual result :: events) =
        writtenDual reg.dual events := by
      rw [writtenDual_update, hresult, if_neg Bool.false_ne_true]
    exact ⟨hwritten ▸ hs.invariant, hwritten ▸ hs.size_written, hwritten ▸ hs.valid_written⟩
  rcases Workspace.cases_update h with ⟨rfl, hresult⟩ | ⟨hcheck, h⟩
  · exact ⟨s, rfl, hrefused result hresult⟩
  obtain ⟨t, hsystem, rfl⟩ := Workspace.updateChecked_direct_eq_ok.1 h
  obtain ⟨hsize, hvalid⟩ := hs.invariant.checkUpdate_eq_ok.1 hcheck
  rcases hs.invariant.of_update hsize hsystem with ⟨ht, hresult⟩ | ⟨ht, -, hresult, -⟩
  · exact ⟨s, congrArg Workspace.direct ht, hrefused _ (hresult ▸ rfl)⟩
  · have hwritten : writtenDual reg.dual (.update dual result :: events) = dual := by
      rw [writtenDual_update, hresult, passed_verdict, if_pos rfl]
    exact ⟨t, rfl, hwritten.symm ▸ ht, hwritten.symm ▸ hsize, hwritten.symm ▸ hvalid⟩

/-- Every call with the matrices that the system was built from answers. -/
theorem answers [ReflexiveScalar α] :
    (∀ b warm tol, ∃ t z status, (Workspace.direct s).solve A P b warm tol = .ok (t, z, status)) ∧
      ∀ dual, ∃ t result, (Workspace.direct s).update A P dual = .ok (t, result) := by
  have hsession := Session.OfDirect.intro hs.invariant fun _ => rfl
  constructor
  · intro b warm tol
    obtain ⟨t, z, status, h, -⟩ := hs.invariant.exists_workspace_solve b warm tol
    exact ⟨_, z, status, h⟩
  · intro dual
    obtain ⟨t, hcall, -⟩ := hsession.exists_call reg.isFinite_primal (.update dual)
    obtain ⟨⟨w, result⟩, hupdate, -⟩ := Checked.bind_eq_ok.1 hcall
    exact ⟨w, result, hupdate⟩

end Current

end DirectSystem

namespace Workspace

open DirectSystem

/-- **A workspace of the direct method remains current** through all calls, with whatever
    matrices. -/
theorem Past.current {allowed : Sparse α → Sparse α → Prop} {ordering : FillOrdering}
    {A P U : Sparse α} {reg : Regularization α} {settings : Settings α}
    {s₀ : DirectSystem α} (h₀ : Current ordering A P U reg settings [] s₀)
    {events : List (Event α)} {w : Workspace α} (hw : Past allowed (.direct s₀) events w) :
    ∃ s, w = .direct s ∧ Current ordering A P U reg settings events s := by
  induction hw with
  | none => exact ⟨s₀, rfl, h₀⟩
  | solve _ _ h ih =>
    obtain ⟨s, rfl, hs⟩ := ih
    exact hs.solve h
  | update _ _ h ih =>
    obtain ⟨s, rfl, hs⟩ := ih
    exact hs.update h

/-- **The two copies of the matrix never drift apart.** Take a workspace built for the direct
    method from well-formed matrices, and any calls, with whatever matrices and whatever they came
    to. The workspace they lead to still answers to every call. Its assembled matrix is a
    well-formed upper triangle with the pattern it was built with, and the upper triangle of the
    system for the dual regularizer of the last update that passed its validation, be it that its
    factorization failed; and the factorization holds the same values in its own places. -/
theorem copies_agree [OverflowScalar α] {ordering : FillOrdering} {A P : Sparse α}
    (hA : A.checkFormat.run = .ok (.ok ())) (hP : P.checkFormat.run = .ok (.ok ()))
    {reg : Regularization α} {settings : Settings α} (hmethod : settings.method = .direct)
    {w₀ : Workspace α} (hnew : (new ordering A P reg settings).run = .ok (.ok w₀))
    {events : List (Event α)} {w : Workspace α} (hw : Past anyMatrices w₀ events w) :
    ∃ s₀ s, w₀ = .direct s₀ ∧ w = .direct s ∧
      Copies A P reg.primal (writtenDual reg.dual events) s₀ s ∧
      (∀ b warm tol, ∃ t z status, w.solve A P b warm tol = .ok (t, z, status)) ∧
      ∀ dual, ∃ t result, w.update A P dual = .ok (t, result) := by
  obtain ⟨hadmissible, hdual⟩ := admissible_of_new hnew
  obtain ⟨U, hdata⟩ := exists_data (Sparse.wellFormed_of_checkFormat hA)
    (Sparse.wellFormed_of_checkFormat hP) hadmissible.rows_eq hadmissible.cols_eq
  obtain ⟨s₀, h₀, -, -, hrun⟩ := Session.exists_new_direct hdata hadmissible hdual hmethod ordering
  rw [hrun] at hnew
  cases hverdict : verdict s₀.factorization A.cols with
  | error e =>
    rw [hverdict] at hnew
    cases Except.ok.inj hnew
  | ok u =>
    rw [hverdict] at hnew
    obtain rfl : direct s₀ = w₀ := Except.ok.inj (Except.ok.inj hnew)
    obtain ⟨s, rfl, hs⟩ := hw.current ⟨h₀, hdual, reg.dual_ok⟩
    have hdiagonal : ∀ j < A.cols, Scalar.isFinite (P.stored j j + reg.primal) = true :=
      fun j hj => h₀.isFinite_diagonal reg.primal_ok hverdict hj
    exact ⟨s₀, s, rfl, rfl,
      hs.invariant.copies h₀ hdiagonal hs.size_written hs.valid_written, hs.answers⟩

open scoped Scalar in
/-- In the workspace for the concave problem an update fails for its inertia. Both copies of the
    matrix hold its regularizer all the same. -/
theorem copies_agree_sample : ∃ w s₀ s,
    Past anyMatrices Sample.concaveWorkspace [.update #[4] (.error (.inertia 1 0))] w ∧
    Sample.concaveWorkspace = .direct s₀ ∧ w = .direct s ∧
    Copies Sample.unitConstraint Sample.concave (1 / 2) #[4] s₀ s := by
  have hrun : (Sample.concaveWorkspace.update Sample.unitConstraint Sample.concave #[4]).map
      (fun r => decide (r.2 = .error (.inertia 1 0))) = .ok true := by
    decide +kernel
  obtain ⟨⟨w, result⟩, h, hrun⟩ := Checked.exists_of_map hrun
  obtain rfl : result = .error (.inertia 1 0) := of_decide_eq_true hrun
  have hw := (Past.none : Past anyMatrices _ [] _).update trivial h
  obtain ⟨s₀, s, hstart, hend, hcopies, -⟩ :=
    copies_agree (by decide +kernel) (by decide +kernel) rfl Sample.concave_new_eq hw
  exact ⟨w, s₀, s, hw, hstart, hend, hcopies⟩

end Workspace

end Quasidefinite
