import Quasidefinite.Kkt.Assembly
import Quasidefinite.Proofs.Sparse.Layout
import Quasidefinite.Proofs.Sparse.Search

/-!
# The entries of the whole system

Assembly distributes the entries of four lists, one after the other: those of `P`, the zeros where
`P` lacks a diagonal entry, those of `A`, and the diagonal of the bottom right block
(`Kkt.triplets`). This module fixes the lists, tells which entries go to which column
(`column_top`, `column_bottom`) and shows that the counting of the columns is right
(`Blocks.exists_columnCounts`, `Blocks.entryCount_eq`).
-/

namespace Quasidefinite

namespace Kkt

variable {α : Type} [Scalar α]

/-! ## 1. The lists -/

/-- The data of a system: a well-formed upper triangle and a well-formed matrix of constraints, of
    dimensions that fit. -/
structure Blocks (P A : Sparse α) : Prop where
  quadratic : P.WellFormed
  upper : P.Upper
  rows_eq : P.rows = A.cols
  cols_eq : P.cols = A.cols
  constraint : A.WellFormed

/-- The entries of a matrix at the positions that `target` makes of their rows and columns. -/
def blockTriplets (M : Sparse α) (target : Nat → Nat → Nat × Nat) : List (Triplet α) :=
  (List.range M.rowIndex.size).map fun p =>
    ⟨(target (M.row p) (M.colOf p)).1, (target (M.row p) (M.colOf p)).2, M.val p⟩

/-- The columns of an upper triangle that store no diagonal entry. -/
def lacking (P : Sparse α) : List Nat := (List.range P.cols).filter fun j => j ∉ P.rowsOf j

/-- Zeros on the diagonal of the given columns. -/
def zeroTriplets (cols : List Nat) : List (Triplet α) := cols.map fun j => ⟨j, j, 0⟩

/-- The entries of the whole system, in the order in which they are put. -/
def triplets (P A : Sparse α) : List (Triplet α) :=
  blockTriplets P (fun row col => (row, col)) ++ zeroTriplets (lacking P) ++
    blockTriplets A (fun row col => (col, row + A.cols)) ++
    zeroTriplets (List.range' A.cols A.rows)

@[simp] theorem length_blockTriplets (M : Sparse α) (target : Nat → Nat → Nat × Nat) :
    (blockTriplets M target).length = M.rowIndex.size := by
  simp [blockTriplets]

@[simp] theorem length_zeroTriplets (cols : List Nat) :
    (zeroTriplets cols : List (Triplet α)).length = cols.length := by
  simp [zeroTriplets]

theorem getElem_blockTriplets (M : Sparse α) (target : Nat → Nat → Nat × Nat) {p : Nat}
    (hp : p < (blockTriplets M target).length) :
    (blockTriplets M target)[p] =
      ⟨(target (M.row p) (M.colOf p)).1, (target (M.row p) (M.colOf p)).2, M.val p⟩ := by
  simp [blockTriplets]

theorem map_position_blockTriplets (M : Sparse α) (target : Nat → Nat → Nat × Nat) :
    ((blockTriplets M target).map fun t => (t.row, t.col)) =
      (List.range M.rowIndex.size).map fun p => target (M.row p) (M.colOf p) := by
  simp [blockTriplets]

theorem map_position_zeroTriplets (cols : List Nat) :
    ((zeroTriplets cols : List (Triplet α)).map fun t => (t.row, t.col)) =
      cols.map fun j => (j, j) := by
  simp [zeroTriplets]

/-! ## 2. The columns -/

omit [Scalar α] in
theorem filter_colOf {M : Sparse α} (hM : M.Shaped) {j : Nat} (hj : j < M.cols) :
    ((List.range M.rowIndex.size).filter fun p => M.colOf p = j) = M.positions j := by
  have hle := hM.start_le_succ j hj
  have hend := hM.start_le_size (j := j + 1) hj
  have hsplit : List.range M.rowIndex.size = List.range' 0 (M.start j) ++ M.positions j ++
      List.range' (M.start (j + 1)) (M.rowIndex.size - M.start (j + 1)) := by
    unfold Sparse.positions
    rw [List.range_eq_range']
    have h₁ := List.range'_append_1 (s := 0) (m := M.start j) (n := M.start (j + 1) - M.start j)
    have h₂ := List.range'_append_1 (s := 0) (m := M.start (j + 1))
      (n := M.rowIndex.size - M.start (j + 1))
    simp only [Nat.zero_add, Nat.add_sub_of_le hle, Nat.add_sub_of_le hend] at h₁ h₂
    rw [h₁, h₂]
  have houtside : ∀ p < M.rowIndex.size, p ∉ M.positions j → ¬ decide (M.colOf p = j) = true :=
    fun p hp hmem hcol => hmem ((hM.mem_positions_iff hj).2 ⟨hp, of_decide_eq_true hcol⟩)
  have hbefore : (List.range' 0 (M.start j)).filter (fun p => M.colOf p = j) = [] := by
    refine List.filter_eq_nil_iff.2 fun p hp => ?_
    rw [List.mem_range'_1] at hp
    exact houtside p (by omega) (by rw [Sparse.mem_positions]; omega)
  have hafter : (List.range' (M.start (j + 1)) (M.rowIndex.size - M.start (j + 1))).filter
      (fun p => M.colOf p = j) = [] := by
    refine List.filter_eq_nil_iff.2 fun p hp => ?_
    rw [List.mem_range'_1] at hp
    exact houtside p (by omega) (by rw [Sparse.mem_positions]; omega)
  have hinside : (M.positions j).filter (fun p => M.colOf p = j) = M.positions j := by
    rw [List.filter_eq_self]
    exact fun p hp => decide_eq_true (hM.colOf_eq hj hp)
  rw [hsplit, List.filter_append, List.filter_append, hbefore, hafter, hinside, List.append_nil,
    List.nil_append]

theorem column_zeroTriplets {cols : List Nat} (hnodup : cols.Nodup) (j : Nat) :
    Triplet.column (zeroTriplets cols : List (Triplet α)) j =
      if j ∈ cols then [(j, 0)] else [] := by
  induction cols with
  | nil => rfl
  | cons c cols ih =>
    rw [List.nodup_cons] at hnodup
    rw [show zeroTriplets (c :: cols) = [(⟨c, c, 0⟩ : Triplet α)] ++ zeroTriplets cols from rfl,
      Triplet.column_append, Triplet.column_singleton, ih hnodup.2]
    by_cases hc : c = j
    · subst hc
      rw [if_pos rfl, if_neg hnodup.1, if_pos List.mem_cons_self]
      rfl
    · rw [if_neg hc, List.nil_append]
      exact if_congr (by simp [Ne.symm hc]) rfl rfl

omit [Scalar α] in
theorem column_eq_nil {ts : List (Triplet α)} {j : Nat} (h : ∀ t ∈ ts, t.col ≠ j) :
    Triplet.column ts j = [] := by
  unfold Triplet.column
  rw [List.map_eq_nil_iff, List.filter_eq_nil_iff]
  exact fun t ht => by simpa using h t ht

omit [Scalar α] in
theorem nodup_lacking (P : Sparse α) : (lacking P).Nodup := List.nodup_range.filter _

omit [Scalar α] in
theorem mem_lacking {P : Sparse α} {j : Nat} : j ∈ lacking P ↔ j < P.cols ∧ j ∉ P.rowsOf j := by
  simp [lacking]

omit [Scalar α] in
theorem count_colOf {M : Sparse α} (hM : M.Shaped) {j : Nat} (hj : j < M.cols) :
    ((List.range M.rowIndex.size).map M.colOf).count j = M.start (j + 1) - M.start j := by
  have hlength := congrArg List.length (filter_colOf hM hj)
  rw [← List.countP_eq_length_filter, Sparse.positions, List.length_range'] at hlength
  rw [← hlength, List.count, List.countP_map]
  rfl

omit [Scalar α] in
/-- Entries go to different positions if those of two lists do, and none of the first list goes
    where one of the second goes. -/
theorem nodup_positions_append {ts us : List (Triplet α)}
    (hts : (ts.map fun t => (t.row, t.col)).Nodup) (hus : (us.map fun t => (t.row, t.col)).Nodup)
    (hne : ∀ t ∈ ts, ∀ u ∈ us, t.row ≠ u.row ∨ t.col ≠ u.col) :
    ((ts ++ us).map fun t => (t.row, t.col)).Nodup := by
  rw [List.map_append]
  refine hts.append hus fun e he he' => ?_
  obtain ⟨t, ht, rfl⟩ := List.mem_map.1 he
  obtain ⟨u, hu, hut⟩ := List.mem_map.1 he'
  obtain ⟨hrow, hcol⟩ := Prod.mk.inj hut
  rcases hne t ht u hu with hne | hne
  · exact hne hrow.symm
  · exact hne hcol.symm

theorem nodup_positions_blockTriplets {M : Sparse α} (hM : M.WellFormed)
    {target : Nat → Nat → Nat × Nat}
    (hinj : ∀ i j i' j', target i j = target i' j' → i = i' ∧ j = j') :
    ((blockTriplets M target).map fun t => (t.row, t.col)).Nodup := by
  rw [map_position_blockTriplets, List.nodup_map_iff_inj_on List.nodup_range]
  intro p hp q hq hpq
  obtain ⟨hrow, hcol⟩ := hinj _ _ _ _ hpq
  exact hM.toShaped.eq_of_row_eq hM.distinct (List.mem_range.1 hp) (List.mem_range.1 hq) hrow hcol

theorem nodup_positions_zeroTriplets {cols : List Nat} (hcols : cols.Nodup) :
    ((zeroTriplets cols : List (Triplet α)).map fun t => (t.row, t.col)).Nodup := by
  rw [map_position_zeroTriplets, List.nodup_map_iff_inj_on hcols]
  exact fun i _ j _ hij => (Prod.mk.inj hij).1

variable {P A : Sparse α} (h : Blocks P A)

/-- Where the zeros of the bottom right block go. -/
theorem mem_bottom_right {t : Triplet α} (ht : t ∈ zeroTriplets (List.range' A.cols A.rows)) :
    t.row = t.col ∧ A.cols ≤ t.row ∧ t.col < A.rows + A.cols := by
  obtain ⟨i, hi, rfl⟩ := List.mem_map.1 ht
  rw [List.mem_range'_1] at hi
  dsimp only
  omega

include h

/-- Where the entries of `A` go. -/
theorem Blocks.mem_top_right {t : Triplet α}
    (ht : t ∈ blockTriplets A fun row col => (col, row + A.cols)) :
    t.row < A.cols ∧ A.cols ≤ t.col ∧ t.col < A.rows + A.cols := by
  obtain ⟨p, hp, rfl⟩ := List.mem_map.1 ht
  have hp := List.mem_range.1 hp
  have hcol := h.constraint.colOf_lt hp
  have hrow := h.constraint.row_lt p hp
  dsimp only
  omega

theorem Blocks.colOf_lt {p : Nat} (hp : p < P.rowIndex.size) : P.colOf p < A.cols :=
  h.cols_eq ▸ h.quadratic.colOf_lt hp

/-- Where the entries of `P` go, and the zeros for those it lacks. -/
theorem Blocks.mem_top_left {t : Triplet α} (ht : t ∈
    blockTriplets P (fun row col => (row, col)) ++ zeroTriplets (lacking P)) :
    t.row ≤ t.col ∧ t.col < A.cols := by
  rcases List.mem_append.1 ht with ht | ht
  · obtain ⟨p, hp, rfl⟩ := List.mem_map.1 ht
    have hp := List.mem_range.1 hp
    have hcol := h.colOf_lt hp
    exact ⟨h.upper _ (h.cols_eq ▸ hcol) p (h.quadratic.mem_positions_colOf hp), hcol⟩
  · obtain ⟨j, hj, rfl⟩ := List.mem_map.1 ht
    exact ⟨Nat.le_refl j, h.cols_eq ▸ (mem_lacking.1 hj).1⟩

/-- A column of the left half holds a column of `P`, and a zero where that lacks its diagonal. -/
theorem Blocks.column_left {j : Nat} (hj : j < A.cols) : Triplet.column (triplets P A) j =
    P.entries j ++ if j ∉ P.rowsOf j then [(j, 0)] else [] := by
  have hquadratic : Triplet.column (blockTriplets P fun row col => (row, col)) j = P.entries j := by
    unfold Triplet.column blockTriplets
    rw [List.filter_map, List.map_map]
    have hfilter := filter_colOf h.quadratic.toShaped (j := j) (h.cols_eq ▸ hj)
    unfold Sparse.entries
    rw [← hfilter]
    rfl
  have hconstraint :
      Triplet.column (blockTriplets A fun row col => (col, row + A.cols)) j = [] := by
    refine column_eq_nil fun t ht => ?_
    have hcol := (h.mem_top_right ht).2.1
    omega
  unfold triplets
  rw [Triplet.column_append, Triplet.column_append, Triplet.column_append, hquadratic, hconstraint,
    column_zeroTriplets (nodup_lacking P), column_zeroTriplets List.nodup_range',
    if_neg (c := j ∈ List.range' A.cols A.rows) (by rw [List.mem_range'_1]; omega), List.append_nil,
    List.append_nil]
  exact congrArg _ (if_congr (by rw [mem_lacking, h.cols_eq]; exact and_iff_right hj) rfl rfl)

/-- A column of the right half holds a row of `A`, and its diagonal entry. -/
theorem Blocks.column_right {i : Nat} (hi : i < A.rows) :
    Triplet.column (triplets P A) (A.cols + i) =
      Triplet.column (blockTriplets A fun row col => (col, row + A.cols)) (A.cols + i) ++
        [(A.cols + i, 0)] := by
  have hquadratic :
      Triplet.column (blockTriplets P fun row col => (row, col)) (A.cols + i) = [] := by
    refine column_eq_nil fun t ht => ?_
    have hcol := (h.mem_top_left (List.mem_append_left _ ht)).2
    omega
  unfold triplets
  rw [Triplet.column_append, Triplet.column_append, Triplet.column_append, hquadratic,
    column_zeroTriplets (nodup_lacking P), column_zeroTriplets List.nodup_range',
    if_neg (c := _ ∈ lacking P) (by rw [mem_lacking, h.cols_eq]; omega),
    if_pos (by rw [List.mem_range'_1]; omega), List.append_nil, List.nil_append]

/-- Every entry lies inside the whole system, on or above the diagonal. -/
theorem Blocks.inside : ∀ t ∈ triplets P A, t.row ≤ t.col ∧ t.col < A.rows + A.cols := by
  intro t ht
  rcases List.mem_append.1 ht with ht | ht
  · rcases List.mem_append.1 ht with ht | ht
    · have hleft := h.mem_top_left ht
      omega
    · have hright := h.mem_top_right ht
      omega
  · have hright := mem_bottom_right ht
    omega

/-- No two entries go to one position. -/
theorem Blocks.nodup_positions : ((triplets P A).map fun t => (t.row, t.col)).Nodup := by
  refine nodup_positions_append (nodup_positions_append (nodup_positions_append ?_ ?_ ?_) ?_ ?_)
    ?_ ?_
  · exact nodup_positions_blockTriplets h.quadratic fun i j i' j' hij => Prod.mk.inj hij
  · exact nodup_positions_zeroTriplets (nodup_lacking P)
  · -- a zero goes to the diagonal of a column of `P` that has no entry there
    intro t ht u hu
    obtain ⟨p, hp, rfl⟩ := List.mem_map.1 ht
    obtain ⟨j, hj, rfl⟩ := List.mem_map.1 hu
    by_contra hsame
    rw [not_or, not_not, not_not] at hsame
    obtain ⟨hrow, hcol⟩ := hsame
    refine (mem_lacking.1 hj).2 (List.mem_map.2 ⟨p, ?_, hrow⟩)
    have hmem := h.quadratic.mem_positions_colOf (List.mem_range.1 hp)
    rwa [show P.colOf p = j from hcol] at hmem
  · refine nodup_positions_blockTriplets h.constraint fun i j i' j' hij => ?_
    obtain ⟨hj, hi⟩ := Prod.mk.inj hij
    exact ⟨Nat.add_right_cancel hi, hj⟩
  · -- the entries so far lie in the left half
    intro t ht u hu
    have hleft := h.mem_top_left ht
    have hright := h.mem_top_right hu
    omega
  · exact nodup_positions_zeroTriplets List.nodup_range'
  · -- the entries so far lie in the left half or in the upper one
    intro t ht u hu
    have hbottom := mem_bottom_right hu
    rcases List.mem_append.1 ht with ht | ht
    · have hleft := h.mem_top_left ht
      omega
    · have hright := h.mem_top_right ht
      omega

/-! ## 3. Counting -/

omit h in
/-- A diagonal entry of an upper triangle is the last one of its column. -/
theorem row_last (hP : P.WellFormed) (hupper : P.Upper) {j : Nat} (hj : j < P.cols)
    (hmem : j ∈ P.rowsOf j) : P.start j < P.start (j + 1) ∧ P.row (P.start (j + 1) - 1) = j := by
  obtain ⟨p, hp, hrow⟩ := List.mem_map.1 hmem
  obtain ⟨hlo, hhi⟩ := Sparse.mem_positions.1 hp
  have hlt : P.start j < P.start (j + 1) := by omega
  refine ⟨hlt, ?_⟩
  by_contra hne
  have hle := hupper j hj (P.start (j + 1) - 1) (Sparse.mem_positions.2 ⟨by omega, by omega⟩)
  rcases Nat.lt_or_ge p (P.start (j + 1) - 1) with hlt | hge
  · have := hP.row_lt_row hj hlo hlt (by omega)
    omega
  · have hp : P.start (j + 1) - 1 = p := by omega
    exact hne (hp ▸ hrow)

omit h in
omit [Scalar α] in
theorem getLast?_rowsOf (M : Sparse α) (j : Nat) : (M.rowsOf j).getLast? =
    if M.start j < M.start (j + 1) then some (M.row (M.start (j + 1) - 1)) else none := by
  unfold Sparse.rowsOf Sparse.positions
  rw [List.getLast?_map, List.getLast?_range']
  by_cases hlt : M.start j < M.start (j + 1)
  · rw [if_pos hlt, if_neg (by omega), Option.map_some]
    congr 2
    omega
  · rw [if_neg hlt, if_pos (by omega), Option.map_none]

omit h in
/-- The last entry of a sorted column above the diagonal tells whether the diagonal is stored. -/
theorem lacksDiagonal_eq (hP : P.WellFormed) (hupper : P.Upper) {j : Nat}
    (hj : j < P.cols) : lacksDiagonal P j = .ok (decide (j ∉ P.rowsOf j)) := by
  have hle := hP.start_le_succ j hj
  have hend := hP.start_le_size (j := j + 1) hj
  unfold lacksDiagonal
  rw [hP.entry_colStart (Nat.le_of_lt hj), Checked.ok_bind, hP.entry_colStart hj, Checked.ok_bind]
  by_cases hempty : P.start j = P.start (j + 1)
  · rw [if_pos hempty, Sparse.rowsOf, Sparse.positions, ← hempty]
    simp
  · have hlast : P.start (j + 1) - 1 < P.rowIndex.size := by omega
    have hpos : 1 ≤ P.start (j + 1) := by omega
    rw [if_neg hempty, Checked.difference, if_pos hpos, Checked.ok_bind,
      Sparse.entry_rowIndex hlast, Checked.ok_bind, Checked.pure_eq_ok, Except.ok.injEq,
      decide_eq_decide]
    refine not_congr ⟨fun hrow => ?_, fun hmem => (row_last hP hupper hj hmem).2⟩
    exact List.mem_map.2 ⟨_, Sparse.mem_positions.2 ⟨by omega, by omega⟩, hrow⟩

omit h in
theorem foldRange_lacking (hP : P.WellFormed) (hupper : P.Upper) {σ : Type}
    (f : σ → Nat → Checked σ) (s : σ) :
    Checked.foldRange 0 P.cols
        (fun s j => do if (← lacksDiagonal P j) then f s j else pure s) s =
      (lacking P).foldlM f s := by
  rw [Checked.foldRange_eq_foldlM, Nat.sub_zero, ← List.range_eq_range', lacking,
    List.foldlM_filter]
  refine Checked.foldlM_congr (fun j hj s => ?_) s
  rw [lacksDiagonal_eq hP hupper (List.mem_range.1 hj), Checked.ok_bind]

omit h in
/-- The columns to which the entries go. -/
theorem map_col_triplets : (triplets P A).map Triplet.col =
    (List.range P.rowIndex.size).map P.colOf ++ lacking P ++
      A.rowIndex.toList.map (A.cols + ·) ++ List.range' A.cols A.rows := by
  rw [toList_eq_map A.rowIndex 0, show (fun p => A.rowIndex.getD p 0) = A.row from rfl]
  simp [triplets, blockTriplets, zeroTriplets, Function.comp_def, Nat.add_comm]

/-- The entries of `P` are counted column by column. -/
theorem Blocks.exists_countColumns (size : Nat) (hsize : A.cols ≤ size) :
    ∃ counts, Checked.foldRange 0 P.cols (countColumn P) (Array.replicate size 0) = .ok counts ∧
      counts.size = size ∧
      ∀ j, counts.getD j 0 = ((List.range P.rowIndex.size).map P.colOf).count j := by
  have hP := h.quadratic.toShaped
  obtain ⟨counts, hrun, hcounts, hcount⟩ := Checked.exists_foldRange
    (fun j (counts : Array Nat) => counts.size = size ∧ ∀ i, counts.getD i 0 =
      if i < j then ((List.range P.rowIndex.size).map P.colOf).count i else 0)
    (countColumn P) 0 P.cols (Array.replicate size 0) (Nat.zero_le _)
    ⟨by simp, fun i => by rw [getD_replicate, if_neg (Nat.not_lt_zero i)]⟩
    (by
      rintro j counts - hj ⟨hcounts, hcount⟩
      have hlt : j < counts.size := by
        rw [hcounts]
        exact Nat.lt_of_lt_of_le (h.cols_eq ▸ hj) hsize
      unfold countColumn
      rw [hP.entry_colStart hj, Checked.ok_bind, hP.entry_colStart (Nat.le_of_lt hj),
        Checked.ok_bind, Checked.difference, if_pos (hP.start_le_succ j hj), Checked.ok_bind,
        Checked.adjust_eq _ _ _ 0 hlt]
      refine ⟨_, rfl, by rw [Array.size_set, hcounts], fun i => ?_⟩
      rw [getD_set, hcount, hcount, ← count_colOf hP hj]
      by_cases hij : i = j
      · rw [if_pos hij, if_neg (Nat.lt_irrefl j), if_pos (by omega), hij, Nat.zero_add]
      · rw [if_neg hij]
        exact if_congr (by omega) rfl rfl)
  refine ⟨counts, hrun, hcounts, fun j => ?_⟩
  rw [hcount j]
  by_cases hj : j < P.cols
  · rw [if_pos hj]
  · rw [if_neg hj, eq_comm, List.count_eq_zero]
    intro hmem
    obtain ⟨p, hp, rfl⟩ := List.mem_map.1 hmem
    exact hj (hP.colOf_lt (List.mem_range.1 hp))

/-- **The columns are counted rightly.** -/
theorem Blocks.exists_columnCounts : ∃ counts, columnCounts P A = .ok counts ∧
    counts.size = A.rows + A.cols + 1 ∧
    ∀ j, counts.getD j 0 = ((triplets P A).map Triplet.col).count j := by
  have hcols := h.cols_eq
  obtain ⟨quadratic, hquadratic, hsize₁, hcount₁⟩ :=
    h.exists_countColumns (A.rows + A.cols + 1) (by omega)
  obtain ⟨diagonal, hdiagonal, hsize₂, hcount₂⟩ :=
    Checked.exists_foldlM_count (lacking P) quadratic fun c hc => by
      have := (mem_lacking.1 hc).1
      omega
  obtain ⟨constraint, hconstraint, hsize₃, hcount₃⟩ :=
    Checked.exists_foldlM_count (A.rowIndex.toList.map (A.cols + ·)) diagonal fun c hc => by
      obtain ⟨row, hrow, rfl⟩ := List.mem_map.1 hc
      obtain ⟨p, hp, rfl⟩ := List.mem_iff_getElem.1 hrow
      rw [Array.length_toList] at hp
      have := h.constraint.row_lt p hp
      unfold Sparse.row at this
      rw [getD_of_lt _ _ _ hp] at this
      rw [Array.getElem_toList]
      omega
  obtain ⟨counts, hcounts, hsize₄, hcount₄⟩ :=
    Checked.exists_foldlM_count (List.range' A.cols A.rows) constraint fun c hc => by
      rw [List.mem_range'_1] at hc
      omega
  refine ⟨counts, ?_, by omega, fun j => ?_⟩
  · have hlacking := foldRange_lacking h.quadratic h.upper
      (fun counts j => Checked.adjust counts j (· + 1)) quadratic
    rw [columnCounts, hquadratic, Checked.ok_bind, Checked.require_of _ _ h.quadratic.size_colStart,
      Checked.ok_bind, Checked.require_of _ _ (by omega), Checked.ok_bind]
    unfold countLacking
    rw [hlacking, hdiagonal, Checked.ok_bind, ← List.foldlM_map (f := (A.cols + ·))
      (g := fun counts c => Checked.adjust counts c (· + 1)), hconstraint, Checked.ok_bind,
      Checked.foldRange_eq_foldlM, Nat.add_sub_cancel_left, hcounts]
  · rw [map_col_triplets, hcount₄, hcount₃, hcount₂, hcount₁, List.count_append,
      List.count_append, List.count_append]

/-- The number of entries. -/
theorem Blocks.entryCount_eq : entryCount P A = .ok (triplets P A).length := by
  have hsquare : P.rows = P.cols := h.rows_eq.trans h.cols_eq.symm
  have hlength : (lacking P).length + (List.range P.cols).countP (fun j => j ∈ P.rowsOf j) =
      P.cols := by
    unfold lacking
    rw [← List.countP_eq_length_filter]
    have hsum := List.length_eq_countP_add_countP (fun j => decide (j ∈ P.rowsOf j))
      (l := List.range P.cols)
    rw [List.length_range] at hsum
    simp only [decide_eq_true_eq, decide_not] at hsum ⊢
    omega
  have hcols := h.cols_eq
  unfold entryCount
  rw [h.quadratic.storedCount_eq, Checked.ok_bind, h.quadratic.diagonalCount_eq hsquare,
    Checked.ok_bind, Checked.difference, if_pos (by omega), Checked.ok_bind,
    h.constraint.storedCount_eq, Checked.ok_bind, Checked.pure_eq_ok, Except.ok.injEq]
  simp only [triplets, List.length_append, length_blockTriplets, length_zeroTriplets,
    List.length_range']
  omega

/-! ## 4. The diagonal -/

/-- **The last entry of every column is the diagonal one.** -/
theorem Blocks.getLast?_column {j : Nat} (hj : j < A.rows + A.cols) :
    ((Triplet.column (triplets P A) j).map Prod.fst).getLast? = some j := by
  by_cases hleft : j < A.cols
  · rw [h.column_left hleft, List.map_append]
    by_cases hmem : j ∈ P.rowsOf j
    · have hlast := row_last h.quadratic h.upper (h.cols_eq ▸ hleft) hmem
      rw [if_neg (not_not.2 hmem), List.map_nil, List.append_nil, Sparse.map_fst_entries,
        getLast?_rowsOf, if_pos hlast.1, hlast.2]
    · rw [if_pos hmem, List.map_singleton, List.getLast?_concat]
  · obtain ⟨i, rfl⟩ := Nat.exists_eq_add_of_le (Nat.le_of_not_lt hleft)
    rw [h.column_right (by omega), List.map_append, List.map_singleton, List.getLast?_concat]

end Kkt

end Quasidefinite
