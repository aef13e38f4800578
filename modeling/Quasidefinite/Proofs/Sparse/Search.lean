import Quasidefinite.Proofs.Reflexive
import Quasidefinite.Proofs.Sparse.Columns
import Quasidefinite.Proofs.Sparse.Dense

/-!
# Single entries, the diagonal and symmetry

In a well-formed matrix the search in a column finds exactly the rows that the column stores
(`search?_of_mem`, `search?_of_not_mem`). So single entries are looked up rightly
(`WellFormed.entry?_eq`) and the stored diagonal entries are counted rightly
(`WellFormed.diagonalCount_eq`). The test for symmetry compares stored entries alone; it answers on
every well-formed matrix and accepts the square ones whose entries at transposed positions are all
equal, stored or not (`WellFormed.isSymmetric_decides`).
-/

namespace Quasidefinite

namespace Sparse

/-! ## 1. The search -/

/-- Halving the block never loses the position that is searched for. -/
theorem searchFrom_eq {rows : Array Nat}
    (hsorted : ∀ i j, i < j → j < rows.size → rows.getD i 0 < rows.getD j 0) (steps : Nat)
    {base count q : Nat} (hsteps : count ≤ steps + 1) (hlo : base ≤ q) (hhi : q < base + count)
    (hend : base + count ≤ rows.size) :
    searchFrom rows (rows.getD q 0) steps base count = q := by
  induction steps generalizing base count with
  | zero =>
    rw [searchFrom]
    omega
  | succ steps ih =>
    rw [searchFrom]
    by_cases hcount : count ≤ 1
    · rw [if_pos hcount]
      omega
    · rw [if_neg hcount]
      by_cases hmid : q < base + count / 2
      · rw [if_pos (hsorted q (base + count / 2) hmid (by omega))]
        exact ih (by omega) hlo (by omega) (by omega)
      · have hle : ¬ rows.getD q 0 < rows.getD (base + count / 2) 0 := by
          rcases Nat.lt_or_eq_of_le (Nat.le_of_not_lt hmid) with hlt | heq
          · have := hsorted (base + count / 2) q hlt (by omega)
            omega
          · rw [heq]
            omega
        rw [if_neg hle]
        exact ih (by omega) (by omega) (by omega) (by omega)

/-- A row that is stored is found. -/
theorem search?_of_mem {rows : Array Nat}
    (hsorted : ∀ i j, i < j → j < rows.size → rows.getD i 0 < rows.getD j 0) {q : Nat}
    (hq : q < rows.size) : search? rows (rows.getD q 0) = some q := by
  have hfound : searchFrom rows (rows.getD q 0) rows.size 0 rows.size = q :=
    searchFrom_eq hsorted rows.size (Nat.le_succ _) (Nat.zero_le q) (by omega) (by omega)
  unfold search?
  rw [hfound, if_pos]
  rw [Array.getElem?_eq_getElem hq, getD_of_lt _ _ _ hq]

/-- A row that is not stored is not found. -/
theorem search?_of_not_mem {rows : Array Nat} {row : Nat}
    (h : ∀ q < rows.size, rows.getD q 0 ≠ row) : search? rows row = none := by
  unfold search?
  refine if_neg fun hat => ?_
  obtain ⟨hlt, heq⟩ := Array.getElem?_eq_some_iff.1 hat
  exact h _ hlt (by rw [getD_of_lt _ _ _ hlt, heq])

/-! ## 2. Entries -/

/-- In a list without repeated rows, what stands in a row is found. -/
theorem lookup_of_mem {α : Type} {es : List (Nat × α)} (hnodup : (es.map Prod.fst).Nodup)
    {e : Nat × α} (he : e ∈ es) : es.lookup e.1 = some e.2 := by
  obtain ⟨before, after, rfl⟩ := List.append_of_mem he
  rw [List.map_append, List.map_cons, List.nodup_append] at hnodup
  refine List.lookup_eq_some_iff.2 ⟨before, after, rfl, fun f hf => bne_iff_ne.2 fun heq => ?_⟩
  exact hnodup.2.2 f.1 (List.mem_map_of_mem hf) e.1 List.mem_cons_self heq.symm

section Stored

variable {α : Type} [Scalar α] {A : Sparse α}

/-- The value stored in row `i` of column `j`, or else zero. -/
def stored (A : Sparse α) (i j : Nat) : α := ((A.entries j).lookup i).getD 0

theorem lookup_entries (hdistinct : A.Distinct) {j p : Nat} (hj : j < A.cols)
    (hp : p ∈ A.positions j) : (A.entries j).lookup (A.row p) = some (A.val p) := by
  refine lookup_of_mem ?_ (e := (A.row p, A.val p)) (List.mem_map_of_mem hp)
  rw [map_fst_entries]
  exact hdistinct j hj

theorem lookup_entries_of_not_mem {i j : Nat} (hi : i ∉ A.rowsOf j) :
    (A.entries j).lookup i = none := by
  refine List.lookup_eq_none_iff.2 fun e he => bne_iff_ne.2 ?_
  obtain ⟨p, hp, rfl⟩ := List.mem_map.1 he
  rintro rfl
  exact hi (List.mem_map_of_mem hp)

/-- In a well-formed matrix the members of a column are what the lookup finds. -/
theorem WellFormed.mem_entries_iff (h : A.WellFormed) {i j : Nat} (hj : j < A.cols)
    {v : α} : (i, v) ∈ A.entries j ↔ (A.entries j).lookup i = some v := by
  constructor
  · intro he
    obtain ⟨p, hp, heq⟩ := List.mem_map.1 he
    obtain ⟨rfl, rfl⟩ := Prod.mk.inj heq
    exact lookup_entries h.distinct hj hp
  · intro hfound
    obtain ⟨before, after, hsplit, -⟩ := List.lookup_eq_some_iff.1 hfound
    rw [hsplit]
    exact List.mem_append_right _ List.mem_cons_self

/-- The entry at a position is the one stored in its row and column. -/
theorem stored_row (hdistinct : A.Distinct) {j p : Nat} (hj : j < A.cols)
    (hp : p ∈ A.positions j) : A.stored (A.row p) j = A.val p := by
  rw [stored, lookup_entries hdistinct hj hp]
  rfl

theorem stored_of_not_mem {i j : Nat} (hi : i ∉ A.rowsOf j) : A.stored i j = 0 := by
  rw [stored, lookup_entries_of_not_mem hi]
  rfl

/-- Every entry of a well-formed matrix is finite. -/
theorem WellFormed.isFinite_stored (h : A.WellFormed) (hzero : Scalar.isFinite (0 : α) = true)
    {i j : Nat} (hj : j < A.cols) : Scalar.isFinite (A.stored i j) = true := by
  by_cases hmem : i ∈ A.rowsOf j
  · obtain ⟨p, hp, rfl⟩ := List.mem_map.1 hmem
    rw [stored_row h.distinct hj hp]
    exact h.isFinite_val p (h.lt_size_of_mem hj hp)
  · rw [stored_of_not_mem hmem]
    exact hzero

/-- Nothing on or above the diagonal is lost in the upper triangle. -/
theorem stored_upperPart (A : Sparse α) {i j : Nat} (hij : i ≤ j) (hj : j < A.cols) :
    A.upperPart.stored i j = A.stored i j := by
  have hfilter : ∀ es : List (Nat × α),
      (es.filter fun e => decide (e.1 ≤ j)).lookup i = es.lookup i := by
    intro es
    induction es with
    | nil => rfl
    | cons e es ih =>
      by_cases he : e.1 ≤ j
      · rw [List.filter_cons, if_pos (decide_eq_true he), List.lookup_cons, List.lookup_cons, ih]
      · have hne : (i == e.1) = false := beq_false_of_ne (by omega)
        rw [List.filter_cons, if_neg (by simpa using he), List.lookup_cons, hne, ih]
  rw [stored, entries_upperPart A hj, upperEntries, hfilter, stored]

end Stored

namespace WellFormed

variable {α : Type} [Scalar α] {A : Sparse α} (h : A.WellFormed)

include h

/-- The rows of a column are sorted. -/
theorem sorted_rowsOf {j : Nat} (hj : j < A.cols) :
    ∀ i k, i < k → k < (A.rowsOf j).toArray.size →
      (A.rowsOf j).toArray.getD i 0 < (A.rowsOf j).toArray.getD k 0 := by
  intro i k hik hk
  have hk : k < A.start (j + 1) - A.start j := by simpa [rowsOf, positions] using hk
  rw [getD_toArray, getD_toArray, rowsOf, getD_map_row_positions A (by omega),
    getD_map_row_positions A hk]
  exact h.row_lt_row hj (by omega) (by omega) (by omega)

theorem search?_row {j p : Nat} (hj : j < A.cols) (hp : p ∈ A.positions j) :
    search? (A.rowsOf j).toArray (A.row p) = some (p - A.start j) := by
  obtain ⟨hlo, hhi⟩ := mem_positions.1 hp
  have hget : (A.rowsOf j).toArray.getD (p - A.start j) 0 = A.row p := by
    rw [getD_toArray, rowsOf, getD_map_row_positions A (by omega), Nat.add_sub_of_le hlo]
  rw [← hget]
  exact search?_of_mem (h.sorted_rowsOf hj) (by simp [rowsOf, positions]; omega)

omit [Scalar α] h in
theorem search?_eq_none {i j : Nat} (hi : i ∉ A.rowsOf j) :
    search? (A.rowsOf j).toArray i = none := by
  refine search?_of_not_mem fun q hq hrow => hi ?_
  rw [getD_of_lt _ _ _ hq] at hrow
  rw [← hrow]
  simp

/-- A stored entry is found. -/
theorem entry?_row {j p : Nat} (hj : j < A.cols) (hp : p ∈ A.positions j) :
    A.entry? (A.row p) j = .ok (some (A.val p)) := by
  have hsize := h.lt_size_of_mem hj hp
  obtain ⟨hlo, -⟩ := mem_positions.1 hp
  have hrow := h.row_lt p hsize
  unfold entry?
  rw [Checked.require_of _ _ ⟨hrow, hj⟩, Checked.ok_bind, h.columnRows_eq hj, Checked.ok_bind,
    show ((A.positions j).map A.row).toArray = (A.rowsOf j).toArray from rfl, h.search?_row hj hp]
  dsimp only
  rw [h.entry_colStart (Nat.le_of_lt hj), Checked.ok_bind, Nat.add_sub_of_le hlo,
    h.entry_value hsize]
  rfl

/-- An entry that is not stored is not found. -/
theorem entry?_eq_none {i j : Nat} (hi : i < A.rows) (hj : j < A.cols) (hmem : i ∉ A.rowsOf j) :
    A.entry? i j = .ok none := by
  unfold entry?
  rw [Checked.require_of _ _ ⟨hi, hj⟩, Checked.ok_bind, h.columnRows_eq hj, Checked.ok_bind,
    show ((A.positions j).map A.row).toArray = (A.rowsOf j).toArray from rfl, search?_eq_none hmem]
  rfl

/-- **The lookup of an entry finds what is stored.** -/
theorem entry?_eq {i j : Nat} (hi : i < A.rows) (hj : j < A.cols) :
    A.entry? i j = .ok ((A.entries j).lookup i) := by
  by_cases hmem : i ∈ A.rowsOf j
  · obtain ⟨p, hp, rfl⟩ := List.mem_map.1 hmem
    rw [h.entry?_row hj hp, lookup_entries h.distinct hj hp]
  · rw [h.entry?_eq_none hi hj hmem, lookup_entries_of_not_mem hmem]

/-- The number of stored diagonal entries. -/
theorem diagonalCount_eq (hsquare : A.rows = A.cols) :
    A.diagonalCount = .ok ((List.range A.cols).countP fun j => j ∈ A.rowsOf j) := by
  unfold diagonalCount
  rw [hsquare, Nat.min_self]
  have hstep : ∀ j (count : Nat), 0 ≤ j → j < A.cols →
      count = ((List.range j).countP fun j => j ∈ A.rowsOf j) →
      ∃ t, (do
        let rows ← A.columnRows j
        pure (if (search? rows j).isSome then count + 1 else count) : Checked Nat) = .ok t ∧
        t = (List.range (j + 1)).countP fun j => j ∈ A.rowsOf j := by
    intro j count _ hj hcount
    rw [h.columnRows_eq hj, Checked.ok_bind]
    refine ⟨_, rfl, ?_⟩
    rw [List.range_succ, List.countP_append, List.countP_singleton, ← hcount,
      show ((A.positions j).map A.row).toArray = (A.rowsOf j).toArray from rfl]
    by_cases hmem : j ∈ A.rowsOf j
    · obtain ⟨p, hp, hrow⟩ := List.mem_map.1 hmem
      have hfound := h.search?_row hj hp
      rw [hrow] at hfound
      simp [hfound, hmem]
    · simp [search?_eq_none hmem, hmem]
  obtain ⟨count, hrun, rfl⟩ := Checked.exists_foldRange
    (fun k count => count = (List.range k).countP fun j => j ∈ A.rowsOf j) _ 0 A.cols 0
    (Nat.zero_le _) rfl hstep
  exact hrun

end WellFormed

/-! ## 3. Symmetry -/

section Mirrored

variable {α : Type} [Scalar α] {A : Sparse α}

/-- The entries at transposed positions are equal, a missing one counting as zero. -/
def Mirrored (A : Sparse α) : Prop :=
  ∀ i < A.cols, ∀ j < A.cols, (A.stored i j == A.stored j i) = true

instance (A : Sparse α) : Decidable A.Mirrored :=
  inferInstanceAs (Decidable (∀ i < A.cols, ∀ j < A.cols, (A.stored i j == A.stored j i) = true))

/-- Comparing what is stored off the diagonal compares all entries: where neither of two transposed
    positions stores anything, both entries are zero. -/
theorem WellFormed.mirrored_iff [ReflexiveScalar α] [SymmetricScalar α] (h : A.WellFormed)
    (hzero : Scalar.isFinite (0 : α) = true) (hsquare : A.rows = A.cols) : A.Mirrored ↔
    ∀ j < A.cols, ∀ p ∈ A.positions j, A.row p ≠ j →
      (A.stored j (A.row p) == A.val p) = true := by
  constructor
  · intro hmirrored j hj p hp _
    have hrow : A.row p < A.cols := hsquare ▸ h.row_lt p (h.lt_size_of_mem hj hp)
    rw [← stored_row h.distinct hj hp]
    exact hmirrored j hj _ hrow
  · intro hstored i hi j hj
    by_cases hdiag : i = j
    · rw [hdiag]
      exact ReflexiveScalar.beq_self (h.isFinite_stored hzero hj)
    · by_cases hmem : i ∈ A.rowsOf j
      · obtain ⟨p, hp, rfl⟩ := List.mem_map.1 hmem
        rw [stored_row h.distinct hj hp, SymmetricScalar.beq_comm]
        exact hstored j hj p hp hdiag
      · by_cases hmem' : j ∈ A.rowsOf i
        · obtain ⟨p, hp, rfl⟩ := List.mem_map.1 hmem'
          rw [stored_row h.distinct hi hp]
          exact hstored i hi p hp (Ne.symm hdiag)
        · rw [stored_of_not_mem hmem, stored_of_not_mem hmem']
          exact ReflexiveScalar.beq_self hzero

end Mirrored

namespace WellFormed

variable {α : Type} [Scalar α] {A : Sparse α} (h : A.WellFormed)

include h

section Square

variable (hsquare : A.rows = A.cols)

include hsquare

/-- An entry off the diagonal is compared with what is stored at the transposed position. -/
theorem matchesTransposed_eq {j p : Nat} (hj : j < A.cols) (hp : p ∈ A.positions j) :
    A.matchesTransposed j p =
      .ok (if A.row p = j then true else A.stored j (A.row p) == A.val p) := by
  have hsize := h.lt_size_of_mem hj hp
  have hrow : A.row p < A.cols := hsquare ▸ h.row_lt p hsize
  unfold matchesTransposed
  rw [entry_rowIndex hsize, Checked.ok_bind, h.entry?_eq (hsquare ▸ hj) hrow, Checked.ok_bind]
  by_cases hdiag : A.row p = j
  · rw [if_pos hdiag, if_pos hdiag]
    rfl
  · rw [if_neg hdiag, if_neg hdiag, h.entry_value hsize]
    rfl

/-- The test for symmetry answers on every well-formed square matrix. -/
theorem exists_isSymmetric : ∃ b, A.isSymmetric = .ok b := by
  unfold isSymmetric
  rw [if_pos (by rw [isSquare, hsquare, beq_self_eq_true])]
  refine Checked.exists_allRange _ _ _ fun j _ hj => ?_
  rw [h.entry_colStart (Nat.le_of_lt hj), Checked.ok_bind, h.entry_colStart (j := j + 1) hj,
    Checked.ok_bind]
  exact Checked.exists_allRange _ _ _ fun p hlo hhi =>
    ⟨_, h.matchesTransposed_eq hsquare hj (mem_positions.2 ⟨hlo, hhi⟩)⟩

/-- It succeeds if it does at every entry. -/
theorem isSymmetric_eq_true_iff : A.isSymmetric = .ok true ↔
    ∀ j < A.cols, ∀ p ∈ A.positions j, A.row p ≠ j →
      (A.stored j (A.row p) == A.val p) = true := by
  have hcolumn : ∀ j < A.cols, (do
      let first ← Checked.entry A.colStart j
      let last ← Checked.entry A.colStart (j + 1)
      Checked.allRange first last (A.matchesTransposed j) : Checked Bool) = .ok true ↔
      ∀ p ∈ A.positions j, A.row p ≠ j → (A.stored j (A.row p) == A.val p) = true := by
    intro j hj
    rw [h.entry_colStart (Nat.le_of_lt hj), Checked.ok_bind, h.entry_colStart (j := j + 1) hj,
      Checked.ok_bind, Checked.allRange_eq_true_iff]
    have hentry : ∀ p ∈ A.positions j, (A.matchesTransposed j p = .ok true ↔
        (A.row p ≠ j → (A.stored j (A.row p) == A.val p) = true)) := by
      intro p hp
      rw [h.matchesTransposed_eq hsquare hj hp, Except.ok.injEq]
      by_cases hdiag : A.row p = j
      · simp [hdiag]
      · simp [hdiag]
    constructor
    · intro hmatches p hp
      obtain ⟨hlo, hhi⟩ := mem_positions.1 hp
      exact (hentry p hp).1 (hmatches p hlo hhi)
    · intro hstored p hlo hhi
      have hp := mem_positions.2 ⟨hlo, hhi⟩
      exact (hentry p hp).2 (hstored p hp)
  unfold isSymmetric
  rw [if_pos (by rw [isSquare, hsquare, beq_self_eq_true]), Checked.allRange_eq_true_iff]
  exact ⟨fun hall j hj => (hcolumn j hj).1 (hall j (Nat.zero_le j) hj),
    fun hall j _ hj => (hcolumn j hj).2 (hall j hj)⟩

end Square

/-- **The test for symmetry answers on every well-formed matrix, and is right.** -/
theorem isSymmetric_decides [ReflexiveScalar α] [SymmetricScalar α]
    (hzero : Scalar.isFinite (0 : α) = true) :
    A.isSymmetric = .ok (decide (A.rows = A.cols ∧ A.Mirrored)) := by
  by_cases hsquare : A.rows = A.cols
  · obtain ⟨b, hb⟩ := h.exists_isSymmetric hsquare
    have hiff := h.isSymmetric_eq_true_iff hsquare
    rw [← h.mirrored_iff hzero hsquare, hb, Except.ok.injEq] at hiff
    rw [hb, Except.ok.injEq, Bool.eq_iff_iff, decide_eq_true_iff, and_iff_right hsquare]
    exact hiff
  · have hsquare' : A.isSquare = false := beq_false_of_ne hsquare
    rw [isSymmetric, hsquare', decide_eq_false fun hand => hsquare hand.1]
    rfl

end WellFormed

section Exact

open scoped Scalar

variable {K : Type} [Field K] [LinearOrder K] [SquareRoot K] {A : Sparse K}

/-- The stored entry is the entry of the matrix. -/
theorem WellFormed.dense_row (h : A.WellFormed) {j p : Nat} (hj : j < A.cols)
    (hp : p ∈ A.positions j) : A.dense (A.row p) j = A.val p := by
  have he : (A.row p, A.val p) ∈ A.entries j := List.mem_map.2 ⟨p, hp, rfl⟩
  refine coeff_of_mem ?_ he
  rw [map_fst_entries]
  exact h.distinct j hj

/-- What is stored at a position is the entry of the matrix. -/
theorem WellFormed.stored_eq_dense (h : A.WellFormed) {i j : Nat} (hj : j < A.cols) :
    A.stored i j = A.dense i j := by
  by_cases hmem : i ∈ A.rowsOf j
  · obtain ⟨p, hp, rfl⟩ := List.mem_map.1 hmem
    rw [stored_row h.distinct hj hp, h.dense_row hj hp]
  · rw [stored_of_not_mem hmem, dense, coeff_of_not_mem (by rwa [map_fst_entries])]

/-- A symmetric matrix is mirrored. -/
theorem WellFormed.mirrored_of_dense (h : A.WellFormed)
    (hsym : ∀ i < A.cols, ∀ j < A.cols, A.dense i j = A.dense j i) : A.Mirrored := by
  intro i hi j hj
  rw [h.stored_eq_dense hj, h.stored_eq_dense hi, hsym i hi j hj]
  exact beq_self_eq_true _

end Exact

end Sparse

end Quasidefinite
