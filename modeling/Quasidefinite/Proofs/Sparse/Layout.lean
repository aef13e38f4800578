import Quasidefinite.Proofs.Sparse.Distribution

/-!
# Matrices that hold distributed entries

A matrix is the layout of a list of entries if every entry stands at its place
(`Sparse.LayoutOf`). Such a matrix is shaped (`LayoutOf.shaped`), its columns are the entries that
go there (`LayoutOf.entries_eq`), and it is the only one (`LayoutOf.unique`). What relabelling and
assembly build are layouts, and a change of values is a layout of the changed entries
(`LayoutOf.revalue`).
-/

namespace Quasidefinite

namespace Sparse

variable {α : Type} [Scalar α]

/-- The matrix with `n` rows and columns in which every one of the entries `ts` stands at its
    place. -/
structure LayoutOf (n : Nat) (ts : List (Triplet α)) (M : Sparse α) : Prop where
  inside : ∀ t ∈ ts, t.row < n ∧ t.col < n
  rows_eq : M.rows = n
  cols_eq : M.cols = n
  size_colStart : M.colStart.size = n + 1
  start_eq : ∀ j ≤ n, M.start j = startIn (ts.map Triplet.col) j
  size_rowIndex : M.rowIndex.size = ts.length
  size_value : M.value.size = ts.length
  row_placeIn : ∀ t (ht : t < ts.length), M.row (placeIn (ts.map Triplet.col) t) = ts[t].row
  val_placeIn : ∀ t (ht : t < ts.length), M.val (placeIn (ts.map Triplet.col) t) = ts[t].val

/-- The loop that puts the entries ends with their layout. -/
theorem layoutOf_of_filled {n : Nat} {ts : List (Triplet α)} {M : Sparse α} {next : Array Nat}
    (hfilled : Filled n ts ts M.rowIndex M.value next)
    (hinside : ∀ t ∈ ts, t.row < n ∧ t.col < n) (hrows : M.rows = n) (hcols : M.cols = n)
    (hsize : M.colStart.size = n + 1)
    (hstart : ∀ j ≤ n, M.start j = startIn (ts.map Triplet.col) j) : LayoutOf n ts M := by
  have hplace : ∀ t (ht : t < ts.length), M.row (placeIn (ts.map Triplet.col) t) = ts[t].row ∧
      M.val (placeIn (ts.map Triplet.col) t) = ts[t].val := by
    intro t ht
    have hsplit : ts = ts.take t ++ ts[t] :: ts.drop (t + 1) := by
      rw [← List.drop_eq_getElem_cons ht, List.take_append_drop]
    have hat := hfilled.getD_placeIn hsplit (hinside _ (List.getElem_mem ht)).2
    rwa [List.length_take, Nat.min_eq_left (Nat.le_of_lt ht)] at hat
  exact
    { inside := hinside
      rows_eq := hrows
      cols_eq := hcols
      size_colStart := hsize
      start_eq := hstart
      size_rowIndex := hfilled.size_rows
      size_value := hfilled.size_values
      row_placeIn := fun t ht => (hplace t ht).1
      val_placeIn := fun t ht => (hplace t ht).2 }

namespace LayoutOf

variable {n : Nat} {ts : List (Triplet α)} {M : Sparse α} (h : LayoutOf n ts M)

/-! ## 1. Places -/

omit [Scalar α] in
theorem placeIn_lt {t : Nat} (ht : t < ts.length) :
    placeIn (ts.map Triplet.col) t < ts.length := by
  have hlength : t < (ts.map Triplet.col).length := by rwa [List.length_map]
  have := Quasidefinite.placeIn_lt hlength
  rwa [List.length_map] at this

omit [Scalar α] in
/-- Every place is taken. -/
theorem exists_placeIn {q : Nat} (hq : q < ts.length) :
    ∃ t < ts.length, placeIn (ts.map Triplet.col) t = q := by
  have hmem := (perm_placeIn (ts.map Triplet.col)).mem_iff.2
    (List.mem_range.2 (by rwa [List.length_map]))
  obtain ⟨t, ht, htq⟩ := List.mem_map.1 hmem
  rw [List.mem_range, List.length_map] at ht
  exact ⟨t, ht, htq⟩

include h

theorem shaped : M.Shaped where
  size_colStart := by rw [h.size_colStart, h.cols_eq]
  size_value := by rw [h.size_value, h.size_rowIndex]
  start_zero := by rw [h.start_eq 0 (Nat.zero_le _), startIn_zero]
  start_le_succ j hj := by
    rw [h.cols_eq] at hj
    rw [h.start_eq j (Nat.le_of_lt hj), h.start_eq (j + 1) hj]
    exact startIn_mono _ (Nat.le_succ j)
  start_cols := by
    rw [h.cols_eq, h.start_eq _ (Nat.le_refl _), h.size_rowIndex, startIn_eq_length,
      List.length_map]
    intro c hc
    obtain ⟨t, ht, rfl⟩ := List.mem_map.1 hc
    exact (h.inside t ht).2
  row_lt q hq := by
    rw [h.size_rowIndex] at hq
    obtain ⟨t, ht, rfl⟩ := exists_placeIn hq
    rw [h.row_placeIn t ht, h.rows_eq]
    exact (h.inside _ (List.getElem_mem ht)).1

theorem mem_positions_placeIn {t : Nat} (ht : t < ts.length) :
    placeIn (ts.map Triplet.col) t ∈ M.positions ts[t].col := by
  have hcol := (h.inside _ (List.getElem_mem ht)).2
  have hget : (ts.map Triplet.col).getD t 0 = ts[t].col := by
    simp [List.getD_eq_getElem?_getD, ht]
  have hlength : t < (ts.map Triplet.col).length := by rwa [List.length_map]
  have hend := placeIn_lt_startIn hlength
  rw [hget] at hend
  rw [mem_positions, h.start_eq _ (Nat.le_of_lt hcol), h.start_eq _ hcol]
  refine ⟨?_, hend⟩
  unfold placeIn
  rw [hget]
  exact Nat.le_add_right _ _

theorem colOf_placeIn {t : Nat} (ht : t < ts.length) :
    M.colOf (placeIn (ts.map Triplet.col) t) = ts[t].col :=
  h.shaped.colOf_eq (by rw [h.cols_eq]; exact (h.inside _ (List.getElem_mem ht)).2)
    (h.mem_positions_placeIn ht)

/-! ## 2. Columns -/

theorem slots_take {j : Nat} (count : Nat) (hcount : count ≤ ts.length) :
    slots M.rowIndex M.value (startIn (ts.map Triplet.col) j)
      (Triplet.column (ts.take count) j).length = Triplet.column (ts.take count) j := by
  induction count with
  | zero => rfl
  | succ count ih =>
    have hsplit : ts = ts.take count ++ ts[count] :: ts.drop (count + 1) := by
      rw [← List.drop_eq_getElem_cons hcount, List.take_append_drop]
    rw [List.take_succ_eq_append_getElem hcount, Triplet.column_append, List.length_append,
      Triplet.column_singleton]
    by_cases hj : ts[count].col = j
    · have hplace := Filled.placeIn_eq hsplit
      rw [List.length_take, Nat.min_eq_left (Nat.le_of_lt hcount), hj] at hplace
      have hrow := h.row_placeIn count hcount
      have hval := h.val_placeIn count hcount
      rw [hplace] at hrow hval
      have hih := ih (Nat.le_of_lt hcount)
      unfold slots at hih
      rw [if_pos hj, slots, List.length_singleton, List.range'_1_concat, List.map_append, hih,
        List.map_singleton]
      exact congrArg _ (congrArg (fun e => [e]) (Prod.ext hrow hval))
    · rw [if_neg hj, List.append_nil, List.length_nil, Nat.add_zero]
      exact ih (Nat.le_of_lt hcount)

/-- **The columns hold the entries that go there.** -/
theorem entries_eq {j : Nat} (hj : j < n) : M.entries j = Triplet.column ts j := by
  have hslots := h.slots_take (j := j) ts.length (Nat.le_refl _)
  rw [List.take_length, Triplet.length_column] at hslots
  rw [entries_eq_slots, h.start_eq j (Nat.le_of_lt hj), h.start_eq (j + 1) hj, startIn_succ,
    Nat.add_sub_cancel_left]
  exact hslots

/-- Entries on or above the diagonal make an upper triangle. -/
theorem upper (hle : ∀ t ∈ ts, t.row ≤ t.col) : M.Upper := by
  intro j hj q hq
  have hsize := h.shaped.lt_size_of_mem hj hq
  rw [h.size_rowIndex] at hsize
  obtain ⟨t, ht, rfl⟩ := exists_placeIn hsize
  rw [← h.shaped.colOf_eq hj hq, h.colOf_placeIn ht, h.row_placeIn t ht]
  exact hle _ (List.getElem_mem ht)

/-- Entries at different positions make columns without repetition. -/
theorem distinct (hnodup : (ts.map fun t => (t.row, t.col)).Nodup) : M.Distinct := by
  intro j hj
  refine (List.nodup_map_iff_inj_on List.nodup_range').2 fun q hq q' hq' hrow => ?_
  have hsize := h.shaped.lt_size_of_mem hj hq
  have hsize' := h.shaped.lt_size_of_mem hj hq'
  rw [h.size_rowIndex] at hsize hsize'
  obtain ⟨t, ht, rfl⟩ := exists_placeIn hsize
  obtain ⟨t', ht', rfl⟩ := exists_placeIn hsize'
  have hcol := h.shaped.colOf_eq hj hq
  have hcol' := h.shaped.colOf_eq hj hq'
  rw [h.colOf_placeIn ht] at hcol
  rw [h.colOf_placeIn ht', ← hcol] at hcol'
  rw [h.row_placeIn t ht, h.row_placeIn t' ht'] at hrow
  have hsame : (⟨t, by simpa using ht⟩ : Fin (ts.map fun t => (t.row, t.col)).length) =
      ⟨t', by simpa using ht'⟩ :=
    List.nodup_iff_injective_get.1 hnodup (by simp [hrow, hcol'])
  rw [Fin.mk.inj hsame]

/-! ## 3. Uniqueness and change -/

/-- **There is one layout.** -/
theorem unique {N : Sparse α} (hN : LayoutOf n ts N) : M = N := by
  refine h.shaped.ext_entries hN.shaped (h.rows_eq.trans hN.rows_eq.symm)
    (h.cols_eq.trans hN.cols_eq.symm) fun j hj => ?_
  rw [h.cols_eq] at hj
  rw [h.entries_eq hj, hN.entries_eq hj]

/-- **A change of the values lays out the changed entries.** -/
theorem revalue {us : List (Triplet α)}
    (hsame : us.map (fun t => (t.row, t.col)) = ts.map fun t => (t.row, t.col)) {value : Array α}
    (hsize : value.size = us.length)
    (hvalue : ∀ t (ht : t < us.length), value.getD (placeIn (us.map Triplet.col) t) 0 = us[t].val) :
    LayoutOf n us { M with value := value } := by
  have hlength : us.length = ts.length := by simpa using congrArg List.length hsame
  have hcols : us.map Triplet.col = ts.map Triplet.col := by
    simpa [Function.comp_def] using congrArg (List.map Prod.snd) hsame
  have hat : ∀ t (ht : t < us.length) (ht' : t < ts.length), us[t].row = ts[t].row ∧
      us[t].col = ts[t].col := by
    intro t ht ht'
    have hget := congrArg (fun l => l[t]?) hsame
    simpa [ht, ht'] using hget
  exact
    { inside := by
        intro t ht
        obtain ⟨i, hi, rfl⟩ := List.mem_iff_getElem.1 ht
        have hi' : i < ts.length := hlength ▸ hi
        rw [(hat i hi hi').1, (hat i hi hi').2]
        exact h.inside _ (List.getElem_mem _)
      rows_eq := h.rows_eq
      cols_eq := h.cols_eq
      size_colStart := h.size_colStart
      start_eq := by
        rw [hcols]
        exact h.start_eq
      size_rowIndex := by rw [hlength, h.size_rowIndex]
      size_value := hsize
      row_placeIn := by
        intro t ht
        have ht' : t < ts.length := hlength ▸ ht
        rw [hcols, (hat t ht ht').1]
        exact h.row_placeIn t ht'
      val_placeIn := hvalue }

end LayoutOf

end Sparse

end Quasidefinite
