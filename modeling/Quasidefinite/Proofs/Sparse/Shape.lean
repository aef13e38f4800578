import Mathlib.Data.Nat.Find
import Mathlib.Order.Monotone.Basic
import Quasidefinite.Kkt.Fingerprint
import Quasidefinite.Sparse.Format
import Quasidefinite.Proofs.Loop

/-!
# The shape of a sparse matrix

This module fixes the reading of the three arrays of a matrix as functions (`Sparse.start`,
`Sparse.row`, `Sparse.val`) and the degrees of good form the theory rests on:

* `Sparse.Sliced`: the columns can be cut out of the array of rows, whatever these rows are;
* `Sparse.Shaped`: the arrays fit together and every row lies inside the matrix, but the rows of
  a column may stand in any order;
* `Sparse.WellFormed`: moreover the rows of every column increase strictly and the values are
  finite. It is what the format check accepts (`Sparse.wellFormed_of_checkFormat`).

Of a shaped matrix every access of the library answers: a column is the list of its entries
(`Shaped.column_eq`), a walk over all columns is a walk over all positions
(`Shaped.exists_foldColumns`), and fingerprints can be told (`Fingerprint.of_eq`).
-/

namespace Quasidefinite

namespace Sparse

variable {α σ : Type}

/-! ## 1. The arrays as functions -/

/-- The position at which column `j` begins. -/
def start (A : Sparse α) (j : Nat) : Nat := A.colStart.getD j 0

/-- The row of the entry at position `p`. -/
def row (A : Sparse α) (p : Nat) : Nat := A.rowIndex.getD p 0

/-- The value of the entry at position `p`. -/
def val [Scalar α] (A : Sparse α) (p : Nat) : α := A.value.getD p 0

/-- The positions of column `j`. -/
def positions (A : Sparse α) (j : Nat) : List Nat :=
  List.range' (A.start j) (A.start (j + 1) - A.start j)

/-- The rows that column `j` stores. -/
def rowsOf (A : Sparse α) (j : Nat) : List Nat := (A.positions j).map A.row

/-- The rows and values of column `j`. -/
def entries [Scalar α] (A : Sparse α) (j : Nat) : List (Nat × α) :=
  (A.positions j).map fun p => (A.row p, A.val p)

/-- The column of the entry at position `p`: the last one that begins at or before it. -/
def colOf (A : Sparse α) (p : Nat) : Nat := Nat.findGreatest (fun j => A.start j ≤ p) A.cols

/-- Every column can be cut out of the array of rows. -/
structure Sliced (A : Sparse α) : Prop where
  cols_lt : A.cols < A.colStart.size
  start_le_succ : ∀ j < A.cols, A.start j ≤ A.start (j + 1)
  start_le_size : ∀ j < A.cols, A.start (j + 1) ≤ A.rowIndex.size

/-- The arrays of the matrix fit together. -/
structure Shaped (A : Sparse α) : Prop where
  size_colStart : A.colStart.size = A.cols + 1
  size_value : A.value.size = A.rowIndex.size
  start_zero : A.start 0 = 0
  start_le_succ : ∀ j < A.cols, A.start j ≤ A.start (j + 1)
  start_cols : A.start A.cols = A.rowIndex.size
  row_lt : ∀ p < A.rowIndex.size, A.row p < A.rows

/-- The matrix is shaped, its columns are sorted and its values finite. -/
structure WellFormed [Scalar α] (A : Sparse α) : Prop extends A.Shaped where
  row_lt_succ : ∀ j < A.cols, ∀ p, A.start j ≤ p → p + 1 < A.start (j + 1) →
    A.row p < A.row (p + 1)
  isFinite_val : ∀ p < A.rowIndex.size, Scalar.isFinite (A.val p) = true

theorem mem_positions {A : Sparse α} {j p : Nat} :
    p ∈ A.positions j ↔ A.start j ≤ p ∧ p < A.start (j + 1) := by
  unfold positions
  rw [List.mem_range'_1]
  omega

theorem map_fst_entries [Scalar α] (A : Sparse α) (j : Nat) :
    (A.entries j).map Prod.fst = A.rowsOf j := by
  simp [entries, rowsOf, Function.comp_def]

theorem entry_rowIndex {A : Sparse α} {p : Nat} (hp : p < A.rowIndex.size) :
    Checked.entry A.rowIndex p = .ok (A.row p) :=
  Checked.entry_eq _ _ 0 hp

/-- What every step keeps if it answers, a walk over a column keeps if it answers, whatever the
    matrix. -/
theorem foldColumn_keeps {A : Sparse α} (inv : σ → Prop) {f : σ → Nat → Nat → Checked σ} {j : Nat}
    {s t : σ} (h : A.foldColumn j f s = .ok t) (hstart : inv s)
    (hstep : ∀ s p row t, inv s → f s p row = .ok t → inv t) : inv t := by
  obtain ⟨first, -, h⟩ := Checked.bind_eq_ok.1 h
  obtain ⟨last, -, h⟩ := Checked.bind_eq_ok.1 h
  refine Checked.foldRange_keeps inv h hstart fun s p t hs h => ?_
  obtain ⟨row, -, h⟩ := Checked.bind_eq_ok.1 h
  exact hstep s p row t hs h

/-! ## 2. Shaped matrices -/

/-- The rows of a column, cut out of the array of rows. -/
theorem Sliced.columnRows_eq {A : Sparse α} (h : A.Sliced) {j : Nat} (hj : j < A.cols) :
    A.columnRows j = .ok (A.rowsOf j).toArray := by
  have hlt := h.cols_lt
  have hle := h.start_le_succ j hj
  have hsize := h.start_le_size j hj
  unfold columnRows
  rw [Checked.entry_eq _ _ 0 (show j < A.colStart.size by omega), Checked.ok_bind,
    Checked.entry_eq _ _ 0 (show j + 1 < A.colStart.size by omega), Checked.ok_bind]
  refine (Checked.slice_eq _ hle hsize).trans ?_
  rw [Except.ok.injEq]
  apply Array.toList_inj.1
  rw [toList_extract _ _ _ 0 hsize]
  rfl

namespace Shaped

variable {A : Sparse α} (h : A.Shaped)

include h

theorem start_mono {i j : Nat} (hij : i ≤ j) (hj : j ≤ A.cols) : A.start i ≤ A.start j := by
  induction j with
  | zero => rw [Nat.le_zero.1 hij]
  | succ j ih =>
    rcases Nat.lt_or_eq_of_le hij with hlt | rfl
    · exact (ih (by omega) (by omega)).trans (h.start_le_succ j (by omega))
    · exact Nat.le_refl _

theorem start_le_size {j : Nat} (hj : j ≤ A.cols) : A.start j ≤ A.rowIndex.size := by
  rw [← h.start_cols]
  exact h.start_mono hj (Nat.le_refl _)

theorem lt_size_of_mem {j p : Nat} (hj : j < A.cols) (hp : p ∈ A.positions j) :
    p < A.rowIndex.size := by
  have hend := h.start_le_size (j := j + 1) hj
  have hlt := (mem_positions.1 hp).2
  omega

theorem entry_colStart {j : Nat} (hj : j ≤ A.cols) :
    Checked.entry A.colStart j = .ok (A.start j) :=
  Checked.entry_eq _ _ 0 (by rw [h.size_colStart]; omega)

theorem entry_value [Scalar α] {p : Nat} (hp : p < A.rowIndex.size) :
    Checked.entry A.value p = .ok (A.val p) :=
  Checked.entry_eq _ _ 0 (h.size_value ▸ hp)

theorem storedCount_eq : A.storedCount = .ok A.rowIndex.size := by
  unfold storedCount
  rw [h.entry_colStart (Nat.le_refl _), h.start_cols]

theorem room_eq : A.room = .ok A.rowIndex.size := by
  simp [room, h.storedCount_eq, Checked.require]

/-- The first columns hold the first positions, one after the other. -/
theorem flatMap_positions {k : Nat} (hk : k ≤ A.cols) :
    (List.range k).flatMap A.positions = List.range (A.start k) := by
  induction k with
  | zero => rw [h.start_zero, List.range_zero, List.flatMap_nil]
  | succ k ih =>
    have hsplit := List.range'_append_1 (s := 0) (m := A.start k) (n := A.start (k + 1) - A.start k)
    rw [Nat.zero_add, Nat.add_sub_of_le (h.start_le_succ k hk)] at hsplit
    rw [List.range_succ, List.flatMap_append, ih (Nat.le_of_lt hk), List.flatMap_singleton,
      List.range_eq_range', List.range_eq_range', ← hsplit, positions]

theorem sliced : A.Sliced where
  cols_lt := by rw [h.size_colStart]; omega
  start_le_succ := h.start_le_succ
  start_le_size _ hj := h.start_le_size hj

theorem columnRows_eq {j : Nat} (hj : j < A.cols) :
    A.columnRows j = .ok ((A.positions j).map A.row).toArray := h.sliced.columnRows_eq hj

/-- **A column is the list of its entries.** -/
theorem column_eq [Scalar α] {j : Nat} (hj : j < A.cols) : A.column j = .ok (A.entries j) := by
  have hle := h.start_le_succ j hj
  have hsize := h.start_le_size (j := j + 1) hj
  have hvalue : A.start (j + 1) ≤ A.value.size := h.size_value ▸ hsize
  unfold column
  rw [h.entry_colStart (Nat.le_of_lt hj), h.entry_colStart (j := j + 1) hj]
  simp only [Checked.ok_bind, Checked.slice, hle, hsize, hvalue, and_self, if_true,
    Checked.pure_eq_ok, Except.ok.injEq]
  rw [toList_extract _ _ _ 0 hsize, toList_extract _ _ _ 0 hvalue, List.zip_map']
  rfl

/-- A walk over a column is the fold over its positions. -/
theorem foldColumn_eq (f : σ → Nat → Nat → Checked σ) (s : σ) {j : Nat} (hj : j < A.cols) :
    A.foldColumn j f s = (A.positions j).foldlM (fun s p => f s p (A.row p)) s := by
  unfold foldColumn
  rw [h.entry_colStart (Nat.le_of_lt hj), h.entry_colStart (j := j + 1) hj]
  simp only [Checked.ok_bind, Checked.foldRange_eq_foldlM]
  refine Checked.foldlM_congr (fun p hp s => ?_) s
  rw [entry_rowIndex (h.lt_size_of_mem hj hp), Checked.ok_bind]

/-- The rule for walks over one column. -/
theorem exists_foldColumn (inv : Nat → σ → Prop) (f : σ → Nat → Nat → Checked σ) (s : σ) {j : Nat}
    (hj : j < A.cols) (hstart : inv (A.start j) s)
    (hstep : ∀ p s, p ∈ A.positions j → inv p s → ∃ t, f s p (A.row p) = .ok t ∧ inv (p + 1) t) :
    ∃ t, A.foldColumn j f s = .ok t ∧ inv (A.start (j + 1)) t := by
  unfold foldColumn
  rw [h.entry_colStart (Nat.le_of_lt hj), h.entry_colStart (j := j + 1) hj]
  simp only [Checked.ok_bind]
  refine Checked.exists_foldRange inv _ _ _ s (h.start_le_succ j hj) hstart ?_
  intro p s hlo hhi hinv
  have hp : p ∈ A.positions j := mem_positions.2 ⟨hlo, hhi⟩
  rw [entry_rowIndex (h.lt_size_of_mem hj hp)]
  exact hstep p s hp hinv

/-- **The rule for walks over all columns**: they visit every position once, in order. -/
theorem exists_foldColumns (inv : Nat → σ → Prop) (f : Nat → σ → Nat → Nat → Checked σ) (s : σ)
    (hstart : inv 0 s)
    (hstep : ∀ j p s, j < A.cols → p ∈ A.positions j → inv p s →
      ∃ t, f j s p (A.row p) = .ok t ∧ inv (p + 1) t) :
    ∃ t, Checked.foldRange 0 A.cols (fun s j => A.foldColumn j (f j) s) s = .ok t ∧
      inv A.rowIndex.size t := by
  rw [← h.start_cols]
  refine Checked.exists_foldRange (fun j s => inv (A.start j) s) _ 0 A.cols s (Nat.zero_le _)
    (by rwa [h.start_zero]) fun j s _ hj hinv => ?_
  exact h.exists_foldColumn inv (f j) s hj hinv fun p s hp => hstep j p s hj hp

/-! ## 3. The column of a position -/

theorem colOf_lt {p : Nat} (hp : p < A.rowIndex.size) : A.colOf p < A.cols := by
  have hle : A.colOf p ≤ A.cols := Nat.findGreatest_le _
  have hspec : A.start (A.colOf p) ≤ p := by
    have h0 : A.start 0 ≤ p := by rw [h.start_zero]; omega
    exact Nat.findGreatest_spec (P := fun j => A.start j ≤ p) (Nat.zero_le _) h0
  rcases Nat.lt_or_eq_of_le hle with hlt | heq
  · exact hlt
  · rw [heq, h.start_cols] at hspec
    omega

theorem mem_positions_colOf {p : Nat} (hp : p < A.rowIndex.size) :
    p ∈ A.positions (A.colOf p) := by
  have hlt := h.colOf_lt hp
  refine mem_positions.2 ⟨?_, ?_⟩
  · have h0 : A.start 0 ≤ p := by rw [h.start_zero]; omega
    exact Nat.findGreatest_spec (P := fun j => A.start j ≤ p) (Nat.zero_le _) h0
  · exact Nat.not_le.1 (Nat.findGreatest_is_greatest (P := fun j => A.start j ≤ p)
      (n := A.cols) (Nat.lt_succ_self _) hlt)

theorem colOf_eq {j p : Nat} (hj : j < A.cols) (hp : p ∈ A.positions j) : A.colOf p = j := by
  have hsize := h.lt_size_of_mem hj hp
  have hlt := h.colOf_lt hsize
  obtain ⟨hlo, hhi⟩ := mem_positions.1 (h.mem_positions_colOf hsize)
  obtain ⟨hlo', hhi'⟩ := mem_positions.1 hp
  rcases Nat.lt_trichotomy (A.colOf p) j with hc | hc | hc
  · have := h.start_mono (i := A.colOf p + 1) (j := j) hc (by omega)
    omega
  · exact hc
  · have := h.start_mono (i := j + 1) (j := A.colOf p) hc (by omega)
    omega

theorem mem_positions_iff {j p : Nat} (hj : j < A.cols) :
    p ∈ A.positions j ↔ p < A.rowIndex.size ∧ A.colOf p = j := by
  constructor
  · intro hp
    exact ⟨h.lt_size_of_mem hj hp, h.colOf_eq hj hp⟩
  · rintro ⟨hp, rfl⟩
    exact h.mem_positions_colOf hp

end Shaped

end Sparse

/-! ## 4. Fingerprints -/

namespace Fingerprint

variable {α : Type} {A P : Sparse α}

theorem of_eq (hA : A.Shaped) (hP : P.Shaped) :
    Fingerprint.of A P = .ok ⟨A.rows, A.cols, A.rowIndex.size, P.rowIndex.size⟩ := by
  rw [Fingerprint.of, hA.storedCount_eq, Checked.ok_bind, hP.storedCount_eq]
  rfl

/-- Shaped matrices are admitted if they have the fingerprint and fit together. -/
theorem admits_of_shaped (f : Fingerprint) (hA : A.Shaped) (hP : P.Shaped) :
    f.admits A P = .ok (decide (f = ⟨A.rows, A.cols, A.rowIndex.size, P.rowIndex.size⟩ ∧
      P.rows = f.cols ∧ P.cols = f.cols)) := by
  rw [admits, of_eq hA hP]
  rfl

end Fingerprint

end Quasidefinite
