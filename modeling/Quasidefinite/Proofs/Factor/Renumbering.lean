import Quasidefinite.Proofs.Factor.Relabel
import Quasidefinite.Proofs.Sparse.Search

/-!
# Relabelling is a renumbering

Relabelling an upper triangle by the inverse of a permutation of its rows and columns moves every
stored entry to a place of its own and loses none (`Sparse.Renumbers`). The two passes of the
program, one that counts the columns and one that fills them, agree for every permutation, so the
result is again an upper triangle with columns one after the other, and it is the same symmetric
matrix with its rows and columns renumbered (`RelabelOf.completion_eq`), in every arithmetic. Only
the rows within a column may come out of order.
-/

namespace Quasidefinite

namespace Sparse

variable {α : Type} [Scalar α] {A : Sparse α} {label : Array Nat}

/-! ## 1. The symmetric completion -/

/-- Entry `(i, j)` of the symmetric matrix whose upper triangle is stored, zero if nothing is stored
    there. -/
def completion (A : Sparse α) (i j : Nat) : α := A.stored (min i j) (max i j)

namespace RelabelOf

variable {R : Relabelled α} (h : RelabelOf A label R) (hA : A.Shaped) (hl : Labels A label)
  (hupper : A.Upper) (hdistinct : A.Distinct)

include h hA

/-- An entry comes to stand in the smaller and the larger of its two new labels. -/
theorem place_mem_positions (hl : Labels A label) {p : Nat} (hp : p < A.rowIndex.size) :
    R.place.getD p 0 ∈ R.matrix.positions (A.newCol label p) := by
  have hcol : A.newCol label p < R.matrix.cols := h.layout.cols_eq.symm ▸ hl.newCol_lt hA hp
  rw [h.layout.shaped.mem_positions_iff hcol, h.size_rowIndex]
  exact ⟨h.place_lt hp, h.colOf_place hp⟩

include hl hupper

/-- Where the upper triangle stores something, the relabelled one does, and nowhere else. -/
theorem mem_rowsOf_iff {i j : Nat} (hi : i < A.cols) (hj : j < A.cols) :
    min (label.getD i 0) (label.getD j 0) ∈
        R.matrix.rowsOf (max (label.getD i 0) (label.getD j 0)) ↔
      min i j ∈ A.rowsOf (max i j) := by
  have hcol : max i j < A.cols := Nat.max_lt.2 ⟨hi, hj⟩
  have hcol' : max (label.getD i 0) (label.getD j 0) < R.matrix.cols :=
    h.layout.cols_eq.symm ▸ Nat.max_lt.2 ⟨hl.lt i hi, hl.lt j hj⟩
  constructor
  · intro hmem
    obtain ⟨q, hq, hrow⟩ := List.mem_map.1 hmem
    obtain ⟨hlt, hqcol⟩ := (h.layout.shaped.mem_positions_iff hcol').1 hq
    obtain ⟨p, hp, rfl⟩ := h.exists_place (h.size_rowIndex ▸ hlt)
    rw [h.row_place hp] at hrow
    rw [h.colOf_place hp] at hqcol
    obtain ⟨hold, hold'⟩ := (hl.new_eq_iff hA hupper hi hj hp).1 ⟨hrow, hqcol⟩
    exact List.mem_map.2 ⟨p, (hA.mem_positions_iff hcol).2 ⟨hp, hold'⟩, hold⟩
  · intro hmem
    obtain ⟨p, hpos, hrow⟩ := List.mem_map.1 hmem
    obtain ⟨hp, hpcol⟩ := (hA.mem_positions_iff hcol).1 hpos
    obtain ⟨hnew, hnew'⟩ := (hl.new_eq_iff hA hupper hi hj hp).2 ⟨hrow, hpcol⟩
    refine List.mem_map.2 ⟨R.place.getD p 0, ?_, (h.row_place hp).trans hnew⟩
    exact hnew' ▸ h.place_mem_positions hA hl hp

include hdistinct

/-- **The symmetric matrix stays the same, renumbered.** -/
theorem completion_eq {i j : Nat} (hi : i < A.cols) (hj : j < A.cols) :
    R.matrix.completion (label.getD i 0) (label.getD j 0) = A.completion i j := by
  have hcol : max i j < A.cols := Nat.max_lt.2 ⟨hi, hj⟩
  have hcol' : max (label.getD i 0) (label.getD j 0) < R.matrix.cols :=
    h.layout.cols_eq.symm ▸ Nat.max_lt.2 ⟨hl.lt i hi, hl.lt j hj⟩
  unfold completion
  by_cases hmem : min i j ∈ A.rowsOf (max i j)
  · obtain ⟨p, hpos, hrow⟩ := List.mem_map.1 hmem
    obtain ⟨hp, hpcol⟩ := (hA.mem_positions_iff hcol).1 hpos
    obtain ⟨hnew, hnew'⟩ := (hl.new_eq_iff hA hupper hi hj hp).2 ⟨hrow, hpcol⟩
    have hplace := h.place_mem_positions hA hl hp
    rw [hnew'] at hplace
    rw [← hrow, stored_row hdistinct hcol hpos, ← hnew, ← h.row_place hp,
      stored_row (h.distinct hA hl hupper hdistinct) hcol' hplace, h.val_place hp]
  · rw [stored_of_not_mem hmem,
      stored_of_not_mem fun hmem' => hmem ((h.mem_rowsOf_iff hA hl hupper hi hj).1 hmem')]

end RelabelOf

/-! ## 2. The renumbering -/

/-- **The relabelled matrix is an upper triangle that holds the entries of `A`, each at a place of
    its own**, and its symmetric completion is that of `A`, renumbered. -/
structure Renumbers (A : Sparse α) (label : Array Nat) (R : Relabelled α) : Prop where
  dims_eq : R.matrix.dims = A.dims
  size_colStart : R.matrix.colStart.size = A.cols + 1
  first_eq : R.matrix.colStart[0]? = some 0
  pairwise_colStart : R.matrix.colStart.toList.Pairwise (· ≤ ·)
  last_eq : R.matrix.colStart[A.cols]? = some A.rowIndex.size
  size_rowIndex : R.matrix.rowIndex.size = A.rowIndex.size
  size_value : R.matrix.value.size = A.rowIndex.size
  upper : ∀ j < A.cols, ∀ i ∈ R.matrix.rowsOf j, i ≤ j
  perm_place : R.place.toList.Perm (List.range A.rowIndex.size)
  moved : ∀ j < A.cols, ∀ p ∈ A.positions j, ∃ q, R.place[p]? = some q ∧
    q ∈ R.matrix.positions (max (label.getD (A.row p) 0) (label.getD j 0)) ∧
    R.matrix.rowIndex[q]? = some (min (label.getD (A.row p) 0) (label.getD j 0)) ∧
    R.matrix.value[q]? = A.value[p]?
  distinct : ∀ j < A.cols, (R.matrix.rowsOf j).Nodup
  completion_eq : ∀ i < A.cols, ∀ j < A.cols,
    R.matrix.completion (label.getD i 0) (label.getD j 0) = A.completion i j

namespace RelabelOf

variable {R : Relabelled α} (h : RelabelOf A label R)

include h

/-- The places are the positions in another order. -/
theorem perm_place : R.place.toList.Perm (List.range A.rowIndex.size) := by
  rw [toList_eq_map R.place 0, h.size_place]
  refine (List.perm_ext_iff_of_nodup ?_ List.nodup_range).2 fun q => ?_
  · refine (List.nodup_map_iff_inj_on List.nodup_range).2 fun p hp p' hp' heq => ?_
    exact h.place_inj (List.mem_range.1 hp) (List.mem_range.1 hp') heq
  · rw [List.mem_map, List.mem_range]
    constructor
    · rintro ⟨p, hp, rfl⟩
      exact h.place_lt (List.mem_range.1 hp)
    · intro hq
      obtain ⟨p, hp, rfl⟩ := h.exists_place hq
      exact ⟨p, List.mem_range.2 hp, rfl⟩

/-- The entry at a position is found at its place. -/
theorem exists_moved (hA : A.Shaped) (hl : Labels A label) {j p : Nat} (hj : j < A.cols)
    (hp : p ∈ A.positions j) : ∃ q, R.place[p]? = some q ∧
      q ∈ R.matrix.positions (max (label.getD (A.row p) 0) (label.getD j 0)) ∧
      R.matrix.rowIndex[q]? = some (min (label.getD (A.row p) 0) (label.getD j 0)) ∧
      R.matrix.value[q]? = A.value[p]? := by
  obtain ⟨hlt, rfl⟩ := (hA.mem_positions_iff hj).1 hp
  have hplace := h.place_lt hlt
  refine ⟨R.place.getD p 0, getElem?_eq_getD _ 0 (h.size_place.symm ▸ hlt),
    h.place_mem_positions hA hl hlt, ?_, ?_⟩
  · rw [getElem?_eq_getD _ 0 (h.size_rowIndex.symm ▸ hplace)]
    exact congrArg some (h.row_place hlt)
  · rw [getElem?_eq_getD _ 0 (h.size_value.symm ▸ hplace),
      getElem?_eq_getD _ 0 (hA.size_value.symm ▸ hlt)]
    exact congrArg some (h.val_place hlt)

theorem renumbers (hA : A.Shaped) (hl : Labels A label) (hupper : A.Upper)
    (hdistinct : A.Distinct) : Renumbers A label R := by
  have hshaped := h.layout.shaped
  have hcols := h.layout.cols_eq
  exact
    { dims_eq := Prod.ext (h.layout.rows_eq.trans hl.square.symm) hcols
      size_colStart := h.layout.size_colStart
      first_eq := hshaped.getElem?_colStart.2 ⟨Nat.zero_le _, hshaped.start_zero⟩
      pairwise_colStart := hshaped.pairwise_colStart
      last_eq := hshaped.getElem?_colStart.2
        ⟨hcols.ge, (congrArg _ hcols.symm).trans (hshaped.start_cols.trans h.size_rowIndex)⟩
      size_rowIndex := h.size_rowIndex
      size_value := h.size_value
      upper := fun j hj i hi => h.triangle.upper.le_of_mem_rowsOf (hcols.symm ▸ hj) hi
      perm_place := h.perm_place
      moved := fun j hj p hp => h.exists_moved hA hl hj hp
      distinct := fun j hj => h.distinct hA hl hupper hdistinct j (hcols.symm ▸ hj)
      completion_eq := fun i hi j hj => h.completion_eq hA hl hupper hdistinct hi hj }

end RelabelOf

/-- **Relabelling is a renumbering.** It answers for every square matrix that passes the format
    check and stores no entry below the diagonal, and for the inverse of every permutation of its
    rows and columns. -/
theorem relabel_renumbers (hformat : A.checkFormat.run = .ok (.ok ()))
    (hsquare : A.isSquare = true) (hupper : A.isUpper = .ok true) {perm : Array Nat}
    (hsize : perm.size = A.cols) (hlabel : Permutation.inverse? perm = some label) :
    ∃ R, A.relabel label = .ok R ∧ Renumbers A label R := by
  have hA := wellFormed_of_checkFormat hformat
  have hsquare : A.rows = A.cols := beq_iff_eq.1 hsquare
  have hupper : A.Upper := by
    rw [hA.toShaped.isUpper_eq, Except.ok.injEq, decide_eq_true_iff] at hupper
    exact hupper
  have hl := labels_of_isInverse hsquare hsize (Permutation.isInverse_of_inverse? hlabel)
  obtain ⟨R, hR, h⟩ := hA.toShaped.exists_relabel hl
  exact ⟨R, hR, h.renumbers hA.toShaped hl hupper hA.distinct⟩

/-- An upper triangle with eight entries, numbered by their positions. -/
def numbered : Sparse Float where
  rows := 4
  cols := 4
  colStart := #[0, 1, 3, 6, 8]
  rowIndex := #[0, 0, 1, 0, 1, 2, 2, 3]
  value := #[1, 2, 3, 4, 5, 6, 7, 8]

/-- Exchanging the two halves of the rows and columns carries four entries across the diagonal; the
    rows of the last columns come out of order. -/
theorem relabel_renumbers_numbered : ∃ R, numbered.relabel #[2, 3, 0, 1] = .ok R ∧
    R.matrix.colStart = #[0, 1, 3, 5, 8] ∧ R.matrix.rowIndex = #[0, 0, 1, 2, 0, 2, 3, 0] ∧
    R.matrix.value = #[6, 7, 8, 1, 4, 2, 3, 5] ∧ R.place = #[3, 5, 6, 4, 7, 0, 1, 2] ∧
    Renumbers numbered #[2, 3, 0, 1] R := by
  have hlabel : Permutation.inverse? #[2, 3, 0, 1] = some #[2, 3, 0, 1] := by decide +kernel
  obtain ⟨R, hR, h⟩ := relabel_renumbers (A := numbered) (by decide +kernel) (by decide +kernel)
    (by decide +kernel) rfl hlabel
  have hfields : (numbered.relabel #[2, 3, 0, 1]).map (fun R => decide <|
      R.matrix.colStart = #[0, 1, 3, 5, 8] ∧ R.matrix.rowIndex = #[0, 0, 1, 2, 0, 2, 3, 0] ∧
      R.matrix.value = #[6, 7, 8, 1, 4, 2, 3, 5] ∧ R.place = #[3, 5, 6, 4, 7, 0, 1, 2]) =
        .ok true := by
    decide +kernel
  obtain ⟨R', hR', hfields⟩ := Checked.exists_of_map hfields
  obtain rfl : R = R' := Except.ok.inj (hR.symm.trans hR')
  obtain ⟨hcolStart, hrowIndex, hvalue, hplace⟩ := of_decide_eq_true hfields
  exact ⟨R, hR, hcolStart, hrowIndex, hvalue, hplace, h⟩

end Sparse

end Quasidefinite
