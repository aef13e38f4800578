import Mathlib.Data.List.Perm.Subperm
import Quasidefinite.Proofs.Sparse.Columns

/-!
# Distributing entries over columns

Relabelling a matrix and assembling the whole system put entries, one after the other, in the next
free slot of their column. This module says once what that leads to. For the list `cols` of the
columns the entries go to, column `j` begins after all entries of smaller columns (`startIn`), and
entry `t` ends up after the earlier ones of its own column (`placeIn`); different entries have
different places (`placeIn_inj`). `Filled` is the invariant of the loop, `Filled.exists_store` its
step: the slots of a column hold its entries in the order in which they came.
-/

namespace Quasidefinite

/-! ## 1. Places -/

/-- The slot at which column `j` begins. -/
def startIn (cols : List Nat) (j : Nat) : Nat := cols.countP (· < j)

/-- The place of entry `t`. -/
def placeIn (cols : List Nat) (t : Nat) : Nat :=
  startIn cols (cols.getD t 0) + (cols.take t).count (cols.getD t 0)

theorem startIn_zero (cols : List Nat) : startIn cols 0 = 0 := by
  simp [startIn]

theorem startIn_succ (cols : List Nat) (j : Nat) :
    startIn cols (j + 1) = startIn cols j + cols.count j := by
  induction cols with
  | nil => rfl
  | cons c cs ih =>
    simp only [startIn] at ih
    simp only [startIn, List.countP_cons, List.count_cons, ih, decide_eq_true_eq, beq_iff_eq]
    rcases Nat.lt_trichotomy c j with h | h | h
    · rw [if_pos (by omega), if_pos h, if_neg (by omega)]
      omega
    · rw [if_pos (by omega), if_neg (by omega), if_pos h]
      omega
    · rw [if_neg (by omega), if_neg (by omega), if_neg (by omega)]
      omega

theorem startIn_mono (cols : List Nat) {i j : Nat} (h : i ≤ j) : startIn cols i ≤ startIn cols j :=
  List.countP_mono_left fun c _ hc => by
    simp only [decide_eq_true_eq] at hc ⊢
    omega

/-- Slots of different columns are different. -/
theorem ne_of_columns {cols : List Nat} {i j p q : Nat} (hij : i ≠ j)
    (hp : startIn cols i ≤ p ∧ p < startIn cols (i + 1))
    (hq : startIn cols j ≤ q ∧ q < startIn cols (j + 1)) : p ≠ q := by
  rcases Nat.lt_or_gt_of_ne hij with hlt | hlt
  · have hbefore := startIn_mono cols (i := i + 1) (j := j) hlt
    omega
  · have hbefore := startIn_mono cols (i := j + 1) (j := i) hlt
    omega

theorem startIn_eq_length {cols : List Nat} {n : Nat} (h : ∀ c ∈ cols, c < n) :
    startIn cols n = cols.length :=
  List.countP_eq_length.2 fun c hc => by simpa using h c hc

theorem startIn_le_length (cols : List Nat) (j : Nat) : startIn cols j ≤ cols.length :=
  List.countP_le_length

/-- The column starts are the running sums of the lengths. -/
theorem sum_take_count (cols : List Nat) {lengths : List Nat} {n : Nat} (hn : n ≤ lengths.length)
    (h : ∀ j < n, lengths.getD j 0 = cols.count j) : (lengths.take n).sum = startIn cols n := by
  induction n with
  | zero => simp [startIn_zero]
  | succ n ih =>
    have hlast := h n (Nat.lt_succ_self n)
    rw [List.getD_eq_getElem?_getD, List.getElem?_eq_getElem hn] at hlast
    rw [List.take_succ_eq_append_getElem hn, List.sum_append,
      ih (Nat.le_of_succ_le hn) fun j hj => h j (by omega), startIn_succ]
    simpa using hlast

/-- With the numbers of entries of all columns counted, the running sums are the column starts. -/
theorem getD_starts {cols : List Nat} {counts : Array Nat}
    (hcount : ∀ j, counts.getD j 0 = cols.count j) {j : Nat} (hj : j ≤ counts.size) :
    (Sparse.startsOfLengths 0 counts.toList).getD j 0 = startIn cols j := by
  have hlength : j ≤ counts.toList.length := by simpa using hj
  rw [Sparse.getD_startsOfLengths _ _ hlength, Nat.zero_add]
  exact sum_take_count _ hlength fun i _ => (Sparse.getD_toList counts i).trans (hcount i)

/-- What lies before an entry in its column. -/
theorem count_take_lt {cols : List Nat} {t : Nat} (ht : t < cols.length) :
    (cols.take t).count (cols.getD t 0) < cols.count (cols.getD t 0) := by
  have hget : cols.getD t 0 = cols[t] := by
    rw [List.getD_eq_getElem?_getD, List.getElem?_eq_getElem ht, Option.getD_some]
  have hsplit : cols.count (cols.getD t 0) = (cols.take (t + 1) ++ cols.drop (t + 1)).count
      (cols.getD t 0) := by rw [List.take_append_drop]
  rw [hsplit, List.count_append, List.take_succ_eq_append_getElem ht, List.count_append, hget,
    List.count_singleton_self]
  omega

theorem placeIn_lt_startIn {cols : List Nat} {t : Nat} (ht : t < cols.length) :
    placeIn cols t < startIn cols (cols.getD t 0 + 1) := by
  rw [startIn_succ, placeIn]
  exact Nat.add_lt_add_left (count_take_lt ht) _

/-- The place of an entry is a slot of its column. -/
theorem placeIn_mem_column {cols : List Nat} {t : Nat} (ht : t < cols.length) :
    startIn cols (cols.getD t 0) ≤ placeIn cols t ∧
      placeIn cols t < startIn cols (cols.getD t 0 + 1) :=
  ⟨Nat.le_add_right _ _, placeIn_lt_startIn ht⟩

theorem placeIn_lt {cols : List Nat} {t : Nat} (ht : t < cols.length) :
    placeIn cols t < cols.length :=
  Nat.lt_of_lt_of_le (placeIn_lt_startIn ht) (startIn_le_length _ _)

/-- **Different entries have different places.** -/
theorem placeIn_inj {cols : List Nat} {t u : Nat} (ht : t < cols.length) (hu : u < cols.length)
    (h : placeIn cols t = placeIn cols u) : t = u := by
  have hcol : cols.getD t 0 = cols.getD u 0 := by
    by_contra hne
    exact ne_of_columns hne (placeIn_mem_column ht) (placeIn_mem_column hu) h
  -- in one column, the later entry has more before it
  have hlater : ∀ {a b : Nat}, a < b → b < cols.length → cols.getD a 0 = cols.getD b 0 →
      (cols.take a).count (cols.getD b 0) < (cols.take b).count (cols.getD b 0) := by
    intro a b hab hb hc
    have hshort : a < (cols.take b).length := by rw [List.length_take]; omega
    have hlt := count_take_lt hshort
    have hget : (cols.take b).getD a 0 = cols.getD b 0 := by
      rw [← hc, List.getD_eq_getElem?_getD, List.getElem?_take_of_lt hab,
        ← List.getD_eq_getElem?_getD]
    rwa [hget, List.take_take, Nat.min_eq_left (Nat.le_of_lt hab)] at hlt
  rw [placeIn, placeIn, hcol] at h
  rcases Nat.lt_trichotomy t u with hlt | heq | hlt
  · have := hlater hlt hu hcol
    omega
  · exact heq
  · have := hlater hlt ht hcol.symm
    rw [hcol] at this
    omega

/-- **The places are all slots, each taken once.** -/
theorem perm_placeIn (cols : List Nat) :
    ((List.range cols.length).map (placeIn cols)).Perm (List.range cols.length) := by
  have hnodup : ((List.range cols.length).map (placeIn cols)).Nodup := by
    refine (List.nodup_map_iff_inj_on List.nodup_range).2 fun t ht u hu htu => ?_
    exact placeIn_inj (List.mem_range.1 ht) (List.mem_range.1 hu) htu
  refine (hnodup.subperm fun q hq => ?_).perm_of_length_le (by simp)
  obtain ⟨t, ht, rfl⟩ := List.mem_map.1 hq
  exact List.mem_range.2 (placeIn_lt (List.mem_range.1 ht))

/-! ## 2. Counting -/

/-- Counting the columns of a list of entries. -/
theorem Checked.exists_foldlM_count (cols : List Nat) (counts : Array Nat)
    (h : ∀ c ∈ cols, c < counts.size) :
    ∃ counts', cols.foldlM (fun counts c => adjust counts c (· + 1)) counts = .ok counts' ∧
      counts'.size = counts.size ∧
      ∀ j, counts'.getD j 0 = counts.getD j 0 + cols.count j := by
  induction cols generalizing counts with
  | nil => exact ⟨counts, rfl, rfl, fun j => rfl⟩
  | cons c cs ih =>
    have hc := h c List.mem_cons_self
    obtain ⟨counts', hrun, hsize, hcount⟩ := ih (counts.set c (counts.getD c 0 + 1)) fun d hd => by
      rw [Array.size_set]
      exact h d (List.mem_cons_of_mem c hd)
    refine ⟨counts', ?_, by rw [hsize, Array.size_set], fun j => ?_⟩
    · rw [List.foldlM_cons, adjust_eq _ _ _ 0 hc, ok_bind, hrun]
    · rw [hcount j, getD_set, List.count_cons]
      by_cases hj : j = c
      · rw [if_pos hj, hj, beq_self_eq_true, if_pos rfl]
        omega
      · rw [if_neg hj, if_neg (by simpa using Ne.symm hj), Nat.add_zero]

/-! ## 3. Filling -/

/-- An entry on its way to a column. -/
structure Triplet (α : Type) where
  /-- Its row. -/
  row : Nat
  /-- Its column. -/
  col : Nat
  /-- Its value. -/
  val : α

namespace Triplet

variable {α : Type}

/-- The rows and values of the entries that go to column `j`. -/
def column (ts : List (Triplet α)) (j : Nat) : List (Nat × α) :=
  (ts.filter fun t => t.col = j).map fun t => (t.row, t.val)

theorem column_append (ts us : List (Triplet α)) (j : Nat) :
    column (ts ++ us) j = column ts j ++ column us j := by
  simp [column]

theorem column_singleton (t : Triplet α) (j : Nat) :
    column [t] j = if t.col = j then [(t.row, t.val)] else [] := by
  by_cases h : t.col = j <;> simp [column, h]

theorem length_column (ts : List (Triplet α)) (j : Nat) :
    (column ts j).length = (ts.map col).count j := by
  unfold column
  rw [List.length_map, List.count, List.countP_map, List.countP_eq_length_filter]
  rfl

end Triplet

variable {α : Type} [Scalar α]

/-- The entries `done`, out of `ts`, have been put in the slots of their columns. -/
structure Filled (n : Nat) (ts done : List (Triplet α)) (rows : Array Nat) (values : Array α)
    (next : Array Nat) : Prop where
  size_rows : rows.size = ts.length
  size_values : values.size = ts.length
  size_next : n ≤ next.size
  next_eq : ∀ j < n, next.getD j 0 = startIn (ts.map Triplet.col) j + (Triplet.column done j).length
  slots_eq : ∀ j < n, slots rows values (startIn (ts.map Triplet.col) j)
    (Triplet.column done j).length = Triplet.column done j

/-- Before anything is put, the next free slots are the column starts. -/
theorem filled_start {n m : Nat} {ts : List (Triplet α)} {rows counts : Array Nat}
    {values : Array α} (hrows : rows.size = ts.length) (hvalues : values.size = ts.length)
    (hcount : ∀ j, counts.getD j 0 = (ts.map Triplet.col).count j) (hnm : n ≤ m)
    (hm : m ≤ counts.size + 1) : Filled n ts [] rows values
      ((Sparse.startsOfLengths 0 counts.toList).toArray.extract 0 m) where
  size_rows := hrows
  size_values := hvalues
  size_next := by
    simp
    omega
  next_eq j hj := by
    rw [getD_extract _ _ (Nat.lt_of_lt_of_le hj hnm), Sparse.getD_toArray,
      getD_starts hcount (by omega)]
    rfl
  slots_eq _ _ := rfl

namespace Filled

variable {n : Nat} {ts done todo : List (Triplet α)} {t : Triplet α} {rows : Array Nat}
  {values : Array α} {next : Array Nat}

omit [Scalar α] in
/-- The column of the next entry. -/
theorem getD_col (hsplit : ts = done ++ t :: todo) :
    (ts.map Triplet.col).getD done.length 0 = t.col := by
  rw [hsplit, List.map_append, List.getD_eq_getElem?_getD, List.getElem?_append_right (by simp)]
  simp

omit [Scalar α] in
/-- A column has room for its entries so far. -/
theorem length_column_le (hsplit : ts = done ++ t :: todo) (j : Nat) :
    (Triplet.column done j).length ≤ (ts.map Triplet.col).count j := by
  rw [Triplet.length_column, hsplit, List.map_append, List.count_append]
  exact Nat.le_add_right _ _

omit [Scalar α] in
/-- The place of the next entry. -/
theorem placeIn_eq (hsplit : ts = done ++ t :: todo) :
    placeIn (ts.map Triplet.col) done.length =
      startIn (ts.map Triplet.col) t.col + (Triplet.column done t.col).length := by
  unfold placeIn
  rw [getD_col hsplit, Triplet.length_column]
  congr 2
  rw [hsplit, List.map_append, List.take_left' (by simp)]

/-- **One more entry is put in the next free slot of its column.** -/
theorem exists_store (h : Filled n ts done rows values next) (hsplit : ts = done ++ t :: todo)
    (ht : t.col < n) :
    ∃ (hr : placeIn (ts.map Triplet.col) done.length < rows.size)
      (hv : placeIn (ts.map Triplet.col) done.length < values.size) (hn : t.col < next.size),
      next.getD t.col 0 = placeIn (ts.map Triplet.col) done.length ∧
      Filled n ts (done ++ [t]) (rows.set _ t.row hr) (values.set _ t.val hv)
        (next.set t.col (placeIn (ts.map Triplet.col) done.length + 1) hn) := by
  have hplace := placeIn_eq hsplit
  have hlength : done.length < (ts.map Triplet.col).length := by simp [hsplit]
  have hlt : placeIn (ts.map Triplet.col) done.length < ts.length :=
    (placeIn_lt hlength).trans_eq (List.length_map _)
  have hr := h.size_rows ▸ hlt
  have hv := h.size_values ▸ hlt
  have hn := Nat.lt_of_lt_of_le ht h.size_next
  refine ⟨hr, hv, hn, (h.next_eq t.col ht).trans hplace.symm, ?_⟩
  exact
    { size_rows := by rw [Array.size_set, h.size_rows]
      size_values := by rw [Array.size_set, h.size_values]
      size_next := by rw [Array.size_set]; exact h.size_next
      next_eq := by
        intro j hj
        rw [getD_set, Triplet.column_append, List.length_append, Triplet.column_singleton]
        by_cases hjt : j = t.col
        · rw [if_pos hjt, if_pos hjt.symm, hplace, hjt]
          rfl
        · rw [if_neg hjt, if_neg (Ne.symm hjt)]
          exact h.next_eq j hj
      slots_eq := by
        intro j hj
        rw [Triplet.column_append, List.length_append, Triplet.column_singleton]
        by_cases hjt : j = t.col
        · subst hjt
          simp only [if_true, List.length_singleton]
          have hstore := slots_set_self (i := t.row) (x := t.val) (hplace ▸ hr) (hplace ▸ hv)
          simp only [← hplace] at hstore
          rw [hstore, h.slots_eq _ hj]
        · rw [if_neg (Ne.symm hjt), List.append_nil, List.length_nil, Nat.add_zero]
          refine (slots_set_of_ne hr hv fun q hq => ?_).trans (h.slots_eq j hj)
          rw [List.mem_range'_1] at hq
          have hroom := length_column_le hsplit j
          have hmem := placeIn_mem_column hlength
          rw [getD_col hsplit] at hmem
          refine ne_of_columns hjt ⟨hq.1, ?_⟩ hmem
          rw [startIn_succ]
          omega }

/-- What stands at the place of an entry once all entries have been put. -/
theorem getD_placeIn (h : Filled n ts ts rows values next) (hsplit : ts = done ++ t :: todo)
    (ht : t.col < n) :
    rows.getD (placeIn (ts.map Triplet.col) done.length) 0 = t.row ∧
      values.getD (placeIn (ts.map Triplet.col) done.length) 0 = t.val := by
  have hslots := h.slots_eq t.col ht
  have hcolumn : Triplet.column ts t.col =
      Triplet.column done t.col ++ (t.row, t.val) :: Triplet.column todo t.col := by
    rw [hsplit, ← List.singleton_append, Triplet.column_append, Triplet.column_append,
      Triplet.column_singleton, if_pos rfl]
    rfl
  rw [placeIn_eq hsplit]
  have hat := congrArg (fun l => l[(Triplet.column done t.col).length]?) hslots
  rw [getElem?_slots (by rw [hcolumn, List.length_append, List.length_cons]; omega), hcolumn,
    List.getElem?_append_right (Nat.le_refl _), Nat.sub_self, List.getElem?_cons_zero] at hat
  exact Prod.mk.inj (Option.some.inj hat)

end Filled

end Quasidefinite
