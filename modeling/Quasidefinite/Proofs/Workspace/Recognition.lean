import Quasidefinite.Proofs.Overflow
import Quasidefinite.Proofs.Workspace.Total

/-!
# Which data an update recognizes

An update that checks its data compares dimensions, numbers of stored entries, and the values one by
one in the order in which they are stored, each method those that it works with: the direct one
leaves out what lies below the diagonal of the quadratic term, and compares the diagonal with the
primal regularizer added (`Workspace.update_recognizes`). So if the patterns are the same, changed
entries are noticed. The positions themselves are not compared, and values that move to other
positions pass (`Workspace.changes_recognized`).
-/

namespace Quasidefinite

variable {α : Type}

/-! ## 1. The same positions -/

namespace Sparse

variable {A B : Sparse α}

/-- The matrices have the same dimensions and numbers of stored entries. -/
structure SameShape (A B : Sparse α) : Prop where
  rows_eq : B.rows = A.rows
  cols_eq : B.cols = A.cols
  size_eq : B.rowIndex.size = A.rowIndex.size

/-- The matrices store their entries at the same positions. -/
structure SamePattern (A B : Sparse α) : Prop where
  colStart_eq : B.colStart = A.colStart
  rowIndex_eq : B.rowIndex = A.rowIndex

/-- The positions that do not lie below the diagonal, each with its column. -/
def upperSlots (A : Sparse α) : List (Nat × Nat) :=
  (List.range A.cols).flatMap fun j =>
    ((A.positions j).filter fun p => A.row p ≤ j).map fun p => (j, p)

theorem upperValues_eq_map [Scalar α] (primal : α) (A : Sparse α) :
    DirectSystem.upperValues primal A =
      A.upperSlots.map fun e => DirectSystem.shifted primal e.1 (A.row e.2, A.val e.2) := by
  simp only [upperSlots, DirectSystem.upperValues, upperEntries, entries, List.map_flatMap,
    List.filter_map, List.map_map, Function.comp_def]

namespace SamePattern

variable (h : A.SamePattern B)

include h

theorem positions_eq (j : Nat) : B.positions j = A.positions j := by
  simp only [positions, start, h.colStart_eq]

theorem row_eq (p : Nat) : B.row p = A.row p := by
  rw [row, h.rowIndex_eq, row]

theorem rowsOf_eq (j : Nat) : B.rowsOf j = A.rowsOf j := by
  rw [rowsOf, h.positions_eq]
  exact List.map_congr_left fun p _ => h.row_eq p

variable [Scalar α]

/-- Both matrices store an entry at a row and a column, at the same position, or neither does. -/
theorem cases_stored (hA : A.WellFormed) (hB : B.WellFormed) (hcols : B.cols = A.cols) {i j : Nat}
    (hj : j < A.cols) :
    (∃ p ∈ A.positions j, A.row p = i ∧ A.stored i j = A.val p ∧ B.stored i j = B.val p) ∨
      (A.stored i j = 0 ∧ B.stored i j = 0) := by
  by_cases hmem : i ∈ A.rowsOf j
  · obtain ⟨p, hp, rfl⟩ := List.mem_map.1 hmem
    refine .inl ⟨p, hp, rfl, stored_row hA.distinct hj hp, ?_⟩
    rw [← h.row_eq]
    exact stored_row hB.distinct (hcols.symm ▸ hj) (h.positions_eq j ▸ hp)
  · refine .inr ⟨stored_of_not_mem hmem, stored_of_not_mem ?_⟩
    rwa [h.rowsOf_eq]

/-- Values that agree one by one agree at every position. -/
theorem val_beq (hA : A.Shaped) (hB : B.Shaped)
    (hvalues : Agree A.value.toList B.value.toList) {p : Nat} (hp : p < A.rowIndex.size) :
    (A.val p == B.val p) = true := by
  have hsize : B.value.size = A.value.size := by
    rw [hB.size_value, h.rowIndex_eq, hA.size_value]
  rw [toList_eq_map A.value 0, toList_eq_map B.value 0, hsize, agree_map] at hvalues
  exact hvalues p (List.mem_range.2 (hA.size_value.symm ▸ hp))

/-- The values of the quadratic term that agree one by one agree at every position that does not
    lie below the diagonal. -/
theorem shifted_beq {primal : α} (hcols : B.cols = A.cols)
    (hvalues : Agree (DirectSystem.upperValues primal A) (DirectSystem.upperValues primal B))
    {j p : Nat} (hj : j < A.cols) (hp : p ∈ A.positions j) (hrow : A.row p ≤ j) :
    (DirectSystem.shifted primal j (A.row p, A.val p) ==
      DirectSystem.shifted primal j (A.row p, B.val p)) = true := by
  have hslots : B.upperSlots = A.upperSlots := by
    simp only [upperSlots, hcols, h.positions_eq, h.row_eq]
  rw [upperValues_eq_map, upperValues_eq_map, hslots, agree_map] at hvalues
  have hat := hvalues (j, p) (List.mem_flatMap.2 ⟨j, List.mem_range.2 hj,
    List.mem_map_of_mem (List.mem_filter.2 ⟨hp, decide_eq_true hrow⟩)⟩)
  rwa [h.row_eq] at hat

end SamePattern

end Sparse

/-! ## 2. What a workspace compares -/

namespace Workspace

variable [Scalar α]

/-- The values of the quadratic term that a method compares. -/
def comparedValues (method : Method) (primal : α) (P : Sparse α) : List α :=
  match method with
  | .direct => DirectSystem.upperValues primal P
  | .indirect => P.value.toList

/-- The entries of the quadratic term as a method compares them. -/
def comparedEntry (method : Method) (primal : α) (P : Sparse α) (i j : Nat) : α :=
  match method with
  | .direct => DirectSystem.shifted primal j (i, P.stored i j)
  | .indirect => P.stored i j

section

variable {ordering : FillOrdering} {A P B Q : Sparse α} {reg : Regularization α}
  {settings : Settings α} {w : Workspace α}

theorem Serves.fingerprint_eq (hw : Serves ordering A P reg settings w) :
    w.fingerprint = ⟨A.rows, A.cols, A.rowIndex.size, P.rowIndex.size⟩ := by
  cases hw with
  | direct h => exact h.fingerprint_eq
  | indirect h => exact h.fingerprint_eq

/-- Matrices fit a workspace if and only if they have the shapes of those it was built from. -/
theorem Serves.fits_iff (hw : Serves ordering A P reg settings w) (hrows : P.rows = A.cols)
    (hcols : P.cols = A.cols) (hB : B.WellFormed) (hQ : Q.WellFormed) :
    w.fingerprint.Fits B Q ↔ A.SameShape B ∧ P.SameShape Q := by
  have hfingerprint := hw.fingerprint_eq
  constructor
  · intro h
    have heq := hfingerprint.symm.trans h.fingerprint_eq
    rw [Fingerprint.mk.injEq] at heq
    obtain ⟨hAB, hAB', hentries, hentries'⟩ := heq
    exact ⟨⟨hAB.symm, hAB'.symm, hentries.symm⟩, h.rows_eq.trans (hAB'.symm.trans hrows.symm),
      h.cols_eq.trans (hAB'.symm.trans hcols.symm), hentries'.symm⟩
  · rintro ⟨hAB, hPQ⟩
    refine ⟨hB, hQ, ?_, ?_, ?_⟩
    · rw [hfingerprint, hAB.rows_eq, hAB.cols_eq, hAB.size_eq, hPQ.size_eq]
    · rw [hPQ.rows_eq, hrows, hAB.cols_eq]
    · rw [hPQ.cols_eq, hcols, hAB.cols_eq]

/-- **Fitting matrices are taken for the own ones if and only if the values that the method compares
    agree.** -/
theorem Serves.matching_iff [SymmetricScalar α] (hw : Serves ordering A P reg settings w)
    (hcheck : settings.checkInputs = true) (hfits : w.fingerprint.Fits B Q) :
    w.matching B Q = .ok true ↔ Agree A.value.toList B.value.toList ∧
      Agree (comparedValues w.method reg.primal P) (comparedValues w.method reg.primal Q) := by
  cases hw with
  | direct h =>
    obtain ⟨b, hb, hiff⟩ := h.exists_dataMatches hfits
    rw [matching, h.settings_eq, if_pos hcheck, hb, Except.ok.injEq]
    exact hiff
  | indirect h =>
    have hvalues := h.values_eq
    rw [if_pos hcheck] at hvalues
    rw [matching, Checked.pure_eq_ok, Except.ok.injEq, IndirectSystem.dataMatches, hvalues]
    dsimp only
    rw [Bool.and_eq_true, beq_iff_agree, beq_iff_agree]
    exact and_congr agree_comm agree_comm

/-- Values that agree at the same positions are the same entries of the constraint matrix. -/
theorem stored_beq [OverflowScalar α] (hA : A.WellFormed) (hB : B.WellFormed)
    (hcols : B.cols = A.cols) (hpattern : A.SamePattern B)
    (hvalues : Agree A.value.toList B.value.toList) {i j : Nat} (hj : j < A.cols) :
    (A.stored i j == B.stored i j) = true := by
  rcases hpattern.cases_stored hA hB hcols hj with ⟨p, hp, -, heq, heq'⟩ | ⟨heq, heq'⟩
  · rw [heq, heq']
    exact hpattern.val_beq hA.toShaped hB.toShaped hvalues (hA.lt_size_of_mem hj hp)
  · rw [heq, heq']
    exact ReflexiveScalar.beq_self OverflowScalar.isFinite_zero

/-- Compared values that agree at the same positions are the same entries of the quadratic term, as
    the method compares them; for the direct method, on and above the diagonal. -/
theorem comparedEntry_beq [OverflowScalar α] (method : Method) {primal : α}
    (hprimal : Scalar.isFinite primal = true) (hP : P.WellFormed) (hQ : Q.WellFormed)
    (hcols : Q.cols = P.cols) (hpattern : P.SamePattern Q)
    (hvalues : Agree (comparedValues method primal P) (comparedValues method primal Q)) {i j : Nat}
    (hj : j < P.cols) (hij : method = .direct → i ≤ j) :
    (comparedEntry method primal P i j == comparedEntry method primal Q i j) = true := by
  cases method with
  | indirect => exact stored_beq hP hQ hcols hpattern hvalues hj
  | direct =>
    unfold comparedEntry
    rcases hpattern.cases_stored (i := i) hP hQ hcols hj with
      ⟨p, hp, rfl, heq, heq'⟩ | ⟨heq, heq'⟩
    · dsimp only
      rw [heq, heq']
      exact hpattern.shifted_beq hcols hvalues hj hp (hij rfl)
    · have hzero : Scalar.isFinite (0 : α) = true := OverflowScalar.isFinite_zero
      dsimp only
      rw [heq, heq', DirectSystem.shifted]
      split
      · exact ReflexiveScalar.beq_add_self hzero hprimal
      · exact ReflexiveScalar.beq_self hzero

/-! ## 3. Updates -/

/-- **An update is refused for its matrices unless they have the shapes of those the workspace was
    built from and the values that the method compares agree one by one**, in the order in which
    they are stored. So if the positions are the same as well and the update is not refused, all
    entries of the constraint matrix are the same, and all those of the quadratic term that the
    method compares. In every workspace that construction and some calls lead to, with a valid
    regularizer. -/
theorem update_recognizes [OverflowScalar α] [SymmetricScalar α] {w₀ : Workspace α}
    {events : List (Event α)} (hcheck : settings.checkInputs = true)
    (hnew : (new ordering A P reg settings).run = .ok (.ok w₀))
    (hw : Past anyMatrices w₀ events w) (hB : B.checkFormat.run = .ok (.ok ()))
    (hQ : Q.checkFormat.run = .ok (.ok ())) {dual : Array α}
    (hdual : w.checkUpdate dual = .ok ()) :
    ∃ t result, w.update B Q dual = .ok (t, result) ∧
      (result ≠ .error .matrixMismatch ↔ A.SameShape B ∧ P.SameShape Q ∧
        Agree A.value.toList B.value.toList ∧
        Agree (comparedValues w.method reg.primal P) (comparedValues w.method reg.primal Q)) ∧
      (result ≠ .error .matrixMismatch → A.SamePattern B → P.SamePattern Q →
        (∀ i j, j < A.cols → (A.stored i j == B.stored i j) = true) ∧
        ∀ i j, j < A.cols → (w.method = .direct → i ≤ j) →
          (comparedEntry w.method reg.primal P i j ==
            comparedEntry w.method reg.primal Q i j) = true) := by
  have hserves := hw.serves hcheck hnew
  obtain ⟨hadmissible, -⟩ := admissible_of_new hnew
  obtain ⟨hA, hP⟩ := hadmissible.wellFormed hcheck
  have hB := Sparse.wellFormed_of_checkFormat hB
  have hQ := Sparse.wellFormed_of_checkFormat hQ
  obtain ⟨t, result, hupdate, hiff⟩ := hserves.exists_update hB hQ dual
  have hrecognized : result ≠ .error .matrixMismatch ↔ A.SameShape B ∧ P.SameShape Q ∧
      Agree A.value.toList B.value.toList ∧
      Agree (comparedValues w.method reg.primal P) (comparedValues w.method reg.primal Q) := by
    rw [hiff hdual, ← and_assoc, ← hserves.fits_iff hadmissible.rows_eq hadmissible.cols_eq hB hQ]
    exact and_congr_right fun hfits => hserves.matching_iff hcheck hfits
  refine ⟨t, result, hupdate, hrecognized, fun haccepted hAB hPQ => ?_⟩
  obtain ⟨hshape, hshape', hvalues, hvalues'⟩ := hrecognized.1 haccepted
  exact ⟨fun i j hj => stored_beq hA hB hshape.cols_eq hAB hvalues hj, fun i j hj hij =>
    comparedEntry_beq w.method reg.isFinite_primal hP hQ hshape'.cols_eq hPQ hvalues'
      (hadmissible.cols_eq.symm ▸ hj) hij⟩

end

end Workspace

namespace Sample

open scoped Scalar

/-- The quadratic term of the small problem with another entry above the diagonal. -/
def changed : Sparse ℚ := { quadratic with value := #[2, 1, 5, 3] }

theorem changed_ok : changed.checkFormat.run = .ok (.ok ()) := by decide +kernel

end Sample

open scoped Scalar in
/-- In the small problem, after a solve, the changed entry is noticed. -/
theorem Workspace.update_recognizes_sample : ∃ w z status t,
    Sample.workspace.solve Sample.constraint Sample.quadratic #[1, 2, 3] none 1 =
      .ok (w, z, status) ∧
    w.update Sample.constraint Sample.changed #[2] = .ok (t, .error .matrixMismatch) := by
  have hcheck : (Settings.standard : Settings ℚ).checkInputs = true := rfl
  have hrun : (Sample.workspace.solve Sample.constraint Sample.quadratic #[1, 2, 3] none 1).map
      (fun r => decide (r.1.method = .direct ∧ r.1.checkUpdate #[2] = .ok ())) = .ok true := by
    decide +kernel
  obtain ⟨⟨w, z, status⟩, hsolve, hrun⟩ := Checked.exists_of_map hrun
  obtain ⟨hmethod, hdual⟩ := of_decide_eq_true hrun
  obtain ⟨t, result, hupdate, -, hentries⟩ := update_recognizes hcheck Sample.new_eq
    (.solve .none (trivial : anyMatrices _ _) hsolve) Sample.constraint_ok Sample.changed_ok hdual
  refine ⟨w, z, status, t, hsolve, ?_⟩
  by_cases hresult : result = .error .matrixMismatch
  · exact hresult ▸ hupdate
  · have hsame := (hentries hresult ⟨rfl, rfl⟩ ⟨rfl, rfl⟩).2 0 1 (by decide) fun _ => Nat.zero_le 1
    rw [hmethod] at hsame
    exact absurd hsame (by decide +kernel)

/-! ## 4. Changes that pass -/

namespace Sample

/-- One constraint on two variables, of which it sees one. -/
def seen (first : Bool) : Sparse Float :=
  .ofColumns 1 (if first then [[(0, 1)], []] else [[], [(0, 1)]])

/-- A quadratic term with the given entries below and on the diagonal. -/
def machineTerm (below last : Float) : Sparse Float :=
  .ofColumns 2 [[(0, 2), (1, below)], [(0, 1), (1, last)]]

/-- What an update comes to that exchanges the matrices of a new workspace for others. -/
def exchanged (direct : Bool) (A P B Q : Sparse Float) :
    Option (Checked (Except SystemError Unit)) :=
  (Workspace.new .minimumDegree A P unitRegularization
    { Settings.standard with direct }).answer?.map fun w => (w.update B Q #[1]).map Prod.snd

end Sample

open Sample in
/-- **Changed data may be recognized**: by both methods, a value that moves to another position; by
    the direct one, a value below the diagonal of the quadratic term, and one on the diagonal that
    the primal regularizer absorbs. -/
theorem Workspace.changes_recognized :
    ((∀ direct, exchanged direct (seen true) (machineTerm 1 2) (seen false) (machineTerm 1 2) =
        some (.ok (.ok ()))) ∧
      (seen false).checkFormat.run = .ok (.ok ()) ∧
      ((seen true).stored 0 0 == (seen false).stored 0 0) = false) ∧
    (exchanged true (seen true) (machineTerm 1 2) (seen true) (machineTerm 5 2) =
        some (.ok (.ok ())) ∧
      (machineTerm 5 2).checkFormat.run = .ok (.ok ()) ∧
      ((machineTerm 1 2).stored 1 0 == (machineTerm 5 2).stored 1 0) = false) ∧
    (exchanged true (seen true) (machineTerm 1 1e-20) (seen true) (machineTerm 1 2e-20) =
        some (.ok (.ok ())) ∧
      (machineTerm 1 2e-20).checkFormat.run = .ok (.ok ()) ∧
      ((machineTerm 1 1e-20).stored 1 1 == (machineTerm 1 2e-20).stored 1 1) = false) := by
  decide +kernel

end Quasidefinite
