import Mathlib.Algebra.GroupWithZero.Nat
import Quasidefinite.Proofs.Sparse.Format
import Quasidefinite.Proofs.Sparse.Slots

/-!
# Matrices built column by column

A matrix built from a list of columns has these columns (`Sparse.entries_ofColumns`). The upper
triangle of a matrix is of that kind: its columns are those of the matrix without the entries
below the diagonal (`Shaped.upper_eq`), so it is an upper triangle, well formed if the matrix is
(`WellFormed.upperPart`), and the matrix itself if that is an upper triangle (`Upper.upperPart_eq`).
-/

namespace Quasidefinite

namespace Sparse

variable {α : Type}

/-! ## 1. Column starts -/

@[simp] theorem length_startsOfLengths (s : Nat) (lengths : List Nat) :
    (startsOfLengths s lengths).length = lengths.length + 1 := by
  induction lengths generalizing s with
  | nil => rfl
  | cons l ls ih => simp [startsOfLengths, ih]

theorem getD_startsOfLengths (s : Nat) (lengths : List Nat) {j : Nat} (hj : j ≤ lengths.length) :
    (startsOfLengths s lengths).getD j 0 = s + (lengths.take j).sum := by
  induction lengths generalizing s j with
  | nil =>
    obtain rfl : j = 0 := by simpa using hj
    simp [startsOfLengths]
  | cons l ls ih =>
    cases j with
    | zero => simp [startsOfLengths]
    | succ j =>
      have := ih (s + l) (j := j) (by simpa using hj)
      simp only [startsOfLengths, List.getD_cons_succ, this, List.take_succ_cons, List.sum_cons]
      omega

theorem startsOfLengths_concat (s : Nat) (lengths : List Nat) (l : Nat) :
    startsOfLengths s (lengths ++ [l]) = startsOfLengths s lengths ++ [s + lengths.sum + l] := by
  induction lengths generalizing s with
  | nil => simp [startsOfLengths]
  | cons k ls ih => simp [startsOfLengths, ih, Nat.add_assoc]

theorem getD_toArray (xs : List Nat) (i : Nat) : xs.toArray.getD i 0 = xs.getD i 0 := by
  simp [Array.getD_eq_getD_getElem?, List.getD_eq_getElem?_getD]

/-! ## 2. Columns as lists -/

section OfColumns

variable (m : Nat) (columns : List (List (Nat × α)))

theorem start_ofColumns {j : Nat} (hj : j ≤ columns.length) :
    (ofColumns m columns).start j = ((columns.take j).map List.length).sum := by
  unfold start ofColumns
  rw [getD_toArray, getD_startsOfLengths _ _ (by simpa using hj)]
  simp [List.map_take]

theorem getD_flatten {β : Type} (lists : List (List β)) (d : β) {j i : Nat}
    (hj : j < lists.length) (hi : i < lists[j].length) :
    lists.flatten.getD (((lists.take j).map List.length).sum + i) d = lists[j][i] := by
  induction lists generalizing j with
  | nil => cases hj
  | cons l ls ih =>
    cases j with
    | zero =>
      have hi' : i < l.length := hi
      simp [List.getD_eq_getElem?_getD, List.getElem?_append_left hi', hi']
    | succ j =>
      have := ih (j := j) (by simpa using hj) (by simpa using hi)
      rw [List.take_succ_cons, List.map_cons, List.sum_cons, List.flatten_cons, Nat.add_assoc]
      rw [List.getD_eq_getElem?_getD, List.getElem?_append_right (by omega)]
      rw [Nat.add_sub_cancel_left, ← List.getD_eq_getElem?_getD, this]
      rfl

theorem size_rowIndex_ofColumns :
    (ofColumns m columns).rowIndex.size = columns.flatten.length := by
  unfold ofColumns
  rw [List.size_toArray, List.length_map]

theorem size_value_ofColumns : (ofColumns m columns).value.size = columns.flatten.length := by
  unfold ofColumns
  rw [List.size_toArray, List.length_map]

theorem row_ofColumns [Scalar α] (p : Nat) :
    (ofColumns m columns).row p = (columns.flatten.getD p (0, 0)).1 := by
  unfold row ofColumns
  rw [getD_toArray, List.getD_eq_getElem?_getD, List.getElem?_map, List.getD_eq_getElem?_getD]
  cases columns.flatten[p]? <;> rfl

theorem val_ofColumns [Scalar α] (p : Nat) :
    (ofColumns m columns).val p = (columns.flatten.getD p (0, 0)).2 := by
  unfold val ofColumns
  rw [Array.getD_eq_getD_getElem?, List.getElem?_toArray, List.getElem?_map,
    List.getD_eq_getElem?_getD]
  cases columns.flatten[p]? <;> rfl

theorem start_succ_ofColumns {j : Nat} (hj : j < columns.length) :
    (ofColumns m columns).start (j + 1) = (ofColumns m columns).start j + columns[j].length := by
  rw [start_ofColumns m columns hj, start_ofColumns m columns (Nat.le_of_lt hj)]
  rw [List.take_succ_eq_append_getElem hj, List.map_append, List.sum_append]
  rfl

/-- **A matrix built from columns has these columns.** -/
theorem entries_ofColumns [Scalar α] {j : Nat} (hj : j < columns.length) :
    (ofColumns m columns).entries j = columns[j] := by
  have hlength : (ofColumns m columns).start (j + 1) - (ofColumns m columns).start j =
      columns[j].length := by
    rw [start_succ_ofColumns m columns hj]
    omega
  refine List.ext_getElem (by simp [entries, positions, hlength]) fun i h₁ h₂ => ?_
  have hat := getD_flatten columns (0, 0) hj h₂
  simp only [entries, positions, List.getElem_map, List.getElem_range', Nat.one_mul]
  rw [start_ofColumns m columns (Nat.le_of_lt hj), row_ofColumns, val_ofColumns, hat]

theorem shaped_ofColumns [Scalar α] (hrow : ∀ c ∈ columns, ∀ e ∈ c, e.1 < m) :
    (ofColumns m columns).Shaped where
  size_colStart := by simp [ofColumns]
  size_value := by rw [size_rowIndex_ofColumns, size_value_ofColumns]
  start_zero := by rw [start_ofColumns m columns (Nat.zero_le _)]; simp
  start_le_succ j hj := by rw [start_succ_ofColumns m columns hj]; omega
  start_cols := by
    show (ofColumns m columns).start columns.length = _
    rw [start_ofColumns m columns (Nat.le_refl _), List.take_length, size_rowIndex_ofColumns,
      List.length_flatten]
  row_lt p hp := by
    rw [size_rowIndex_ofColumns] at hp
    obtain ⟨c, hc, he⟩ := List.mem_flatten.1 (List.getElem_mem hp)
    rw [row_ofColumns, List.getD_eq_getElem?_getD, List.getElem?_eq_getElem hp]
    exact hrow c hc _ he

end OfColumns

/-! ## 3. The upper triangle of a matrix -/

/-- The entries of column `j` that do not lie below the diagonal. -/
def upperEntries [Scalar α] (A : Sparse α) (j : Nat) : List (Nat × α) :=
  (A.entries j).filter fun e => e.1 ≤ j

/-- The matrix of the entries that do not lie below the diagonal. -/
def upperPart [Scalar α] (A : Sparse α) : Sparse α :=
  ofColumns A.cols ((List.range A.cols).map A.upperEntries)

variable [Scalar α]

/-- The upper triangle as far as its first `k` columns are built. -/
def upperUpTo (A : Sparse α) (k : Nat) : Sparse α :=
  { ofColumns A.cols ((List.range k).map A.upperEntries) with cols := A.cols }

/-- Adds the entry at position `p` unless it lies below the diagonal. -/
def keepUpper (A : Sparse α) (j : Nat) (U : Sparse α) (p : Nat) : Sparse α :=
  if A.row p ≤ j then
    { U with rowIndex := U.rowIndex.push (A.row p), value := U.value.push (A.val p) }
  else U

theorem foldl_keepUpper (A : Sparse α) (j : Nat) (ps : List Nat) (U : Sparse α) :
    ps.foldl (A.keepUpper j) U =
      { U with
        rowIndex := U.rowIndex ++
          (((ps.map fun p => (A.row p, A.val p)).filter (·.1 ≤ j)).map Prod.fst).toArray
        value := U.value ++
          (((ps.map fun p => (A.row p, A.val p)).filter (·.1 ≤ j)).map Prod.snd).toArray } := by
  induction ps generalizing U with
  | nil => simp
  | cons p ps ih =>
    rw [List.foldl_cons, ih]
    by_cases hrow : A.row p ≤ j
    · simp [keepUpper, hrow]
    · simp [keepUpper, hrow]

theorem Shaped.appendUpperColumn_eq {A : Sparse α} (h : A.Shaped) {j : Nat} (hj : j < A.cols) :
    A.appendUpperColumn (A.upperUpTo j) j = .ok (A.upperUpTo (j + 1)) := by
  unfold appendUpperColumn
  rw [h.columnRows_eq hj, h.foldColumn_eq _ _ hj]
  rw [Checked.ok_bind, (Checked.foldlM_eq_ok (fun _ => True) _ (A.keepUpper j) _ _ trivial ?_).1]
  · rw [foldl_keepUpper, Checked.ok_bind, Checked.pure_eq_ok, Except.ok.injEq]
    simp [upperUpTo, ofColumns, List.range_succ, startsOfLengths_concat, upperEntries, entries,
      List.length_flatten, Function.comp_def]
  · intro U p hp _
    refine ⟨?_, trivial⟩
    by_cases hrow : A.row p ≤ j
    · simp [keepUpper, hrow, h.entry_value (h.lt_size_of_mem hj hp)]
    · simp [keepUpper, hrow]

/-- **The extraction of the upper triangle answers with it.** -/
theorem Shaped.upper_eq {A : Sparse α} (h : A.Shaped) (hsquare : A.rows = A.cols) :
    A.upper = .ok A.upperPart := by
  obtain ⟨U, hU, rfl⟩ := Checked.exists_foldRange (fun k U => U = A.upperUpTo k)
    A.appendUpperColumn 0 A.cols (A.upperUpTo 0) (Nat.zero_le _) rfl
    fun j U _ hj hinv => ⟨A.upperUpTo (j + 1), hinv ▸ h.appendUpperColumn_eq hj, rfl⟩
  unfold upper
  rw [Checked.require_of _ _ hsquare, Checked.ok_bind]
  refine Eq.trans ?_ (hU.trans ?_)
  · simp [upperUpTo, ofColumns, startsOfLengths]
  · simp [upperUpTo, upperPart, ofColumns]

@[simp] theorem rows_upperPart (A : Sparse α) : A.upperPart.rows = A.cols := rfl

@[simp] theorem cols_upperPart (A : Sparse α) : A.upperPart.cols = A.cols := by
  simp [upperPart, ofColumns]

theorem entries_upperPart (A : Sparse α) {j : Nat} (hj : j < A.cols) :
    A.upperPart.entries j = A.upperEntries j := by
  unfold upperPart
  rw [entries_ofColumns _ _ (by simpa using hj)]
  simp

theorem shaped_upperPart (A : Sparse α) : A.upperPart.Shaped := by
  refine shaped_ofColumns _ _ fun c hc e he => ?_
  obtain ⟨j, hj, rfl⟩ := List.mem_map.1 hc
  have hle := of_decide_eq_true (List.mem_filter.1 he).2
  exact Nat.lt_of_le_of_lt hle (List.mem_range.1 hj)

theorem upper_upperPart (A : Sparse α) : A.upperPart.Upper := by
  intro j hj p hp
  rw [cols_upperPart] at hj
  have he : (A.upperPart.row p, A.upperPart.val p) ∈ A.upperPart.entries j :=
    List.mem_map.2 ⟨p, hp, rfl⟩
  rw [entries_upperPart A hj] at he
  exact of_decide_eq_true (List.mem_filter.1 he).2

/-- **The upper triangle of a well-formed matrix is well formed.** -/
theorem WellFormed.upperPart {A : Sparse α} (h : A.WellFormed) : A.upperPart.WellFormed := by
  refine A.shaped_upperPart.wellFormed ?_ ?_
  · intro j hj
    rw [cols_upperPart] at hj
    have hrows := h.pairwise_rowsOf hj
    rw [← map_fst_entries] at hrows
    rw [← map_fst_entries, entries_upperPart A hj]
    exact hrows.sublist (List.filter_sublist.map _)
  · intro j hj e he
    rw [cols_upperPart] at hj
    rw [entries_upperPart A hj] at he
    exact h.isFinite_of_mem_entries hj (List.mem_filter.1 he).1

/-- Nothing is left out of the columns of an upper triangle. -/
theorem Upper.upperEntries_eq {A : Sparse α} (h : A.Upper) {j : Nat} (hj : j < A.cols) :
    A.upperEntries j = A.entries j := by
  refine List.filter_eq_self.2 fun e he => ?_
  obtain ⟨p, hp, rfl⟩ := List.mem_map.1 he
  exact decide_eq_true (h j hj p hp)

end Sparse

end Quasidefinite
