import Mathlib.Data.List.Nodup
import Quasidefinite.Proofs.Sparse.Shape

/-!
# What the format check and the triangle test decide

The format check answers on every matrix (`Sparse.exists_checkFormat`). It passes the well-formed
ones and no others (`Sparse.wellFormed_of_checkFormat`, `WellFormed.checkFormat_eq`); read off the
arrays themselves, these are the matrices that `Sparse.checkFormat_decides` describes. The test for
the upper triangle answers on every shaped matrix (`Shaped.exists_isUpper`).
-/

namespace Quasidefinite

/-! ## 1. Chains -/

theorem chained_iff (r : Nat → Nat → Bool) (xs : List Nat) :
    chained r xs = true ↔ ∀ i, i + 1 < xs.length → r (xs.getD i 0) (xs.getD (i + 1) 0) = true := by
  induction xs with
  | nil => simp [chained]
  | cons x xs ih =>
    cases xs with
    | nil => simp [chained]
    | cons y xs =>
      rw [chained, Bool.and_eq_true, ih]
      constructor
      · rintro ⟨hxy, hrest⟩ i hi
        cases i with
        | zero => exact hxy
        | succ i => exact hrest i (by simpa using hi)
      · intro h
        exact ⟨h 0 (by simp), fun i hi => h (i + 1) (by simpa using hi)⟩

theorem Attempt.run_forM_eq_ok {ε β : Type} (f : β → Attempt ε Unit) (xs : List β) :
    (xs.forM f).run = .ok (.ok ()) ↔ ∀ x ∈ xs, (f x).run = .ok (.ok ()) := by
  induction xs with
  | nil => simp
  | cons x xs ih =>
    rw [List.forM_eq_forM, List.forM_cons, run_bind_eq_ok, List.forall_mem_cons]
    constructor
    · rintro ⟨⟨⟩, hx, hxs⟩
      exact ⟨hx, ih.1 hxs⟩
    · rintro ⟨hx, hxs⟩
      exact ⟨(), hx, ih.2 hxs⟩

namespace Sparse

variable {α : Type}

theorem getD_toList (xs : Array Nat) (i : Nat) : xs.toList.getD i 0 = xs.getD i 0 := by
  simp [Array.getD_eq_getD_getElem?, List.getD_eq_getElem?_getD]

/-! ## 2. The format check -/

theorem getD_map_row_positions (A : Sparse α) {j i : Nat} (hi : i < A.start (j + 1) - A.start j) :
    ((A.positions j).map A.row).getD i 0 = A.row (A.start j + i) := by
  simp [List.getD_eq_getElem?_getD, positions, hi]

theorem Shaped.row_lt_of_checkColumnOrder {A : Sparse α} (h : A.Shaped) {j : Nat} (hj : j < A.cols)
    (hcheck : (A.checkColumnOrder j).run = .ok (.ok ())) {p : Nat} (hlo : A.start j ≤ p)
    (hhi : p + 1 < A.start (j + 1)) : A.row p < A.row (p + 1) := by
  unfold checkColumnOrder at hcheck
  obtain ⟨rows, hrows, hsorted⟩ := Attempt.run_bind_eq_ok.1 hcheck
  rw [Attempt.run_lift_eq_ok, h.columnRows_eq hj, Except.ok.injEq] at hrows
  subst hrows
  rw [Attempt.run_ensure_eq_ok, chained_iff] at hsorted
  have hstep := hsorted (p - A.start j) (by simp [positions]; omega)
  rw [getD_map_row_positions A (by omega), getD_map_row_positions A (by omega)] at hstep
  rw [show A.start j + (p - A.start j) = p by omega,
    show A.start j + (p - A.start j + 1) = p + 1 by omega] at hstep
  exact of_decide_eq_true hstep

/-- The checks of the lengths, the column starts and the range of the rows make sure that the arrays
    fit together. -/
theorem shaped_of_checks {A : Sparse α} (hvalue : A.rowIndex.size = A.value.size)
    (hstart : A.colStart.size = A.cols + 1) (hstored : A.storedCount = .ok A.rowIndex.size)
    (hfirst : Checked.entry A.colStart 0 = .ok 0)
    (hchain : chained (· ≤ ·) A.colStart.toList = true)
    (hrows : A.rowIndex.all (· < A.rows) = true) : A.Shaped where
  size_colStart := hstart
  size_value := hvalue.symm
  start_zero := (Checked.entry_eq_ok 0 hfirst).2
  start_le_succ := by
    intro j hj
    rw [chained_iff] at hchain
    have hstep := hchain j (by simp [hstart]; omega)
    rw [getD_toList, getD_toList] at hstep
    exact of_decide_eq_true hstep
  start_cols := (Checked.entry_eq_ok 0 hstored).2
  row_lt := by
    intro p hp
    rw [Array.all_eq_true] at hrows
    unfold row
    rw [getD_of_lt _ _ _ hp]
    exact of_decide_eq_true (hrows p hp)

/-- **A matrix that passes the format check is well formed.** -/
theorem wellFormed_of_checkFormat [Scalar α] {A : Sparse α}
    (h : A.checkFormat.run = .ok (.ok ())) : A.WellFormed := by
  unfold checkFormat at h
  simp only [Attempt.run_bind_eq_ok, Attempt.run_ensure_eq_ok, Attempt.run_lift_eq_ok,
    exists_const] at h
  obtain ⟨hvalue, hstart, stored, hstored, rfl, first, hfirst, rfl, hchain, hrows, ⟨⟩, hcols,
    hfinite⟩ := h
  have hshaped := shaped_of_checks hvalue hstart hstored hfirst hchain hrows
  refine { hshaped with row_lt_succ := ?_, isFinite_val := ?_ }
  · intro j hj p hlo hhi
    rw [Attempt.run_forM_eq_ok] at hcols
    exact hshaped.row_lt_of_checkColumnOrder hj (hcols j (List.mem_range.2 hj)) hlo hhi
  · intro p hp
    have hp' : p < A.value.size := hvalue ▸ hp
    unfold Vec.isFinite at hfinite
    rw [Array.all_eq_true] at hfinite
    unfold val
    rw [getD_of_lt _ _ _ hp']
    exact hfinite p hp'

/-- **The format check never faults**, whatever the fields of the matrix. -/
theorem exists_checkFormat [Scalar α] (A : Sparse α) : ∃ r, A.checkFormat.run = .ok r := by
  unfold checkFormat
  refine Attempt.exists_run_bind (Attempt.exists_run_ensure _ _) fun _ hvalue => ?_
  refine Attempt.exists_run_bind (Attempt.exists_run_ensure _ _) fun _ hstart => ?_
  rw [Attempt.run_ensure_eq_ok] at hvalue hstart
  -- there are column starts, so the first and the last one can be read
  refine Attempt.exists_run_bind (Attempt.exists_run_lift ⟨_, Checked.entry_eq _ _ 0 (by omega)⟩)
    fun stored hstored => ?_
  refine Attempt.exists_run_bind (Attempt.exists_run_ensure _ _) fun _ hlast => ?_
  refine Attempt.exists_run_bind (Attempt.exists_run_lift ⟨_, Checked.entry_eq _ _ 0 (by omega)⟩)
    fun first hfirst => ?_
  refine Attempt.exists_run_bind (Attempt.exists_run_ensure _ _) fun _ hzero => ?_
  refine Attempt.exists_run_bind (Attempt.exists_run_ensure _ _) fun _ hchain => ?_
  refine Attempt.exists_run_bind (Attempt.exists_run_ensure _ _) fun _ hrows => ?_
  rw [Attempt.run_ensure_eq_ok] at hlast hzero hchain hrows
  rw [Attempt.run_lift_eq_ok, hlast] at hstored
  rw [Attempt.run_lift_eq_ok, hzero] at hfirst
  -- by now the arrays fit together, so every column can be cut out
  have hshaped := shaped_of_checks hvalue hstart hstored hfirst hchain hrows
  refine Attempt.exists_run_bind (Attempt.exists_run_forM fun j hj => ?_) fun _ _ =>
    Attempt.exists_run_ensure _ _
  exact Attempt.exists_run_bind
    (Attempt.exists_run_lift ⟨_, hshaped.columnRows_eq (List.mem_range.1 hj)⟩) fun _ _ =>
    Attempt.exists_run_ensure _ _

/-- Sorted rows increase from one position to the next. -/
theorem row_lt_succ_of_pairwise {A : Sparse α} {j : Nat} (h : (A.rowsOf j).Pairwise (· < ·))
    {p : Nat} (hlo : A.start j ≤ p) (hhi : p + 1 < A.start (j + 1)) : A.row p < A.row (p + 1) := by
  rw [rowsOf, List.pairwise_map, positions, List.pairwise_iff_getElem] at h
  have hat := h (p - A.start j) (p + 1 - A.start j) (by simp; omega) (by simp; omega) (by omega)
  rwa [List.getElem_range', List.getElem_range', Nat.one_mul, Nat.one_mul, Nat.add_sub_of_le hlo,
    Nat.add_sub_of_le (by omega)] at hat

namespace WellFormed

variable [Scalar α] {A : Sparse α} (h : A.WellFormed)

include h

/-- The rows of a column increase with the position. -/
theorem row_lt_row {j p q : Nat} (hj : j < A.cols) (hp : A.start j ≤ p) (hpq : p < q)
    (hq : q < A.start (j + 1)) : A.row p < A.row q := by
  induction q with
  | zero => omega
  | succ q ih =>
    have hlast := h.row_lt_succ j hj q (by omega) hq
    rcases Nat.lt_or_eq_of_le (Nat.lt_succ_iff.1 hpq) with hlt | rfl
    · exact (ih hlt (by omega)).trans hlast
    · exact hlast

/-- The rows of a column are sorted. -/
theorem pairwise_rowsOf {j : Nat} (hj : j < A.cols) : (A.rowsOf j).Pairwise (· < ·) := by
  rw [rowsOf, List.pairwise_map]
  refine List.Pairwise.imp_of_mem ?_ List.pairwise_lt_range'
  intro p q hp hq hpq
  exact h.row_lt_row hj (mem_positions.1 hp).1 hpq (mem_positions.1 hq).2

/-- A column has at most one entry in every row. -/
theorem eq_of_row_eq {j p q : Nat} (hj : j < A.cols) (hp : p ∈ A.positions j)
    (hq : q ∈ A.positions j) (hrow : A.row p = A.row q) : p = q := by
  obtain ⟨hp₁, hp₂⟩ := mem_positions.1 hp
  obtain ⟨hq₁, hq₂⟩ := mem_positions.1 hq
  rcases Nat.lt_trichotomy p q with hlt | heq | hlt
  · have := h.row_lt_row hj hp₁ hlt hq₂
    omega
  · exact heq
  · have := h.row_lt_row hj hq₁ hlt hp₂
    omega

theorem isFinite_of_mem_value {v : α} (hv : v ∈ A.value.toList) : Scalar.isFinite v = true := by
  rw [toList_eq_map _ 0] at hv
  obtain ⟨p, hp, rfl⟩ := List.mem_map.1 hv
  exact h.isFinite_val p (h.size_value ▸ List.mem_range.1 hp)

theorem isFinite_of_mem_entries {j : Nat} (hj : j < A.cols) {e : Nat × α} (he : e ∈ A.entries j) :
    Scalar.isFinite e.2 = true := by
  obtain ⟨p, hp, rfl⟩ := List.mem_map.1 he
  exact h.isFinite_val p (h.lt_size_of_mem hj hp)

/-- A well-formed matrix passes the test of its columns. -/
theorem checkColumnOrder_eq {j : Nat} (hj : j < A.cols) :
    (A.checkColumnOrder j).run = .ok (.ok ()) := by
  unfold checkColumnOrder
  rw [Attempt.run_bind_of_ok _ (Attempt.run_lift_of_ok (h.columnRows_eq hj)),
    Attempt.run_ensure_eq_ok, chained_iff]
  intro i hi
  have hi : i + 1 < A.start (j + 1) - A.start j := by simpa [positions] using hi
  rw [getD_map_row_positions A (by omega), getD_map_row_positions A hi]
  exact decide_eq_true (h.row_lt_succ j hj _ (by omega) (by omega))

/-- **A well-formed matrix passes the format check.** -/
theorem checkFormat_eq : A.checkFormat.run = .ok (.ok ()) := by
  have hchain : chained (· ≤ ·) A.colStart.toList = true := by
    rw [chained_iff]
    intro j hj
    rw [getD_toList, getD_toList]
    rw [Array.length_toList, h.size_colStart] at hj
    exact decide_eq_true (h.start_le_succ j (by omega))
  have hrows : (A.rowIndex.all (· < A.rows)) = true := by
    rw [Array.all_eq_true]
    intro p hp
    have hrow := h.row_lt p hp
    unfold row at hrow
    rw [getD_of_lt _ _ _ hp] at hrow
    exact decide_eq_true hrow
  have hfinite : Vec.isFinite A.value = true := by
    unfold Vec.isFinite
    rw [Array.all_eq_true]
    intro p hp
    have hval := h.isFinite_val p (h.size_value ▸ hp)
    unfold val at hval
    rwa [getD_of_lt _ _ _ hp] at hval
  unfold checkFormat
  rw [Attempt.run_bind_of_ok _ (Attempt.run_ensure_of h.size_value.symm),
    Attempt.run_bind_of_ok _ (Attempt.run_ensure_of h.size_colStart),
    Attempt.run_bind_of_ok _ (Attempt.run_lift_of_ok h.storedCount_eq),
    Attempt.run_bind_of_ok _ (Attempt.run_ensure_of rfl),
    Attempt.run_bind_of_ok _ (Attempt.run_lift_of_ok (h.entry_colStart (Nat.zero_le _))),
    Attempt.run_bind_of_ok _ (Attempt.run_ensure_of h.start_zero),
    Attempt.run_bind_of_ok _ (Attempt.run_ensure_of hchain),
    Attempt.run_bind_of_ok _ (Attempt.run_ensure_of hrows),
    Attempt.run_bind_of_ok _ ((Attempt.run_forM_eq_ok _ _).2 fun j hj =>
      h.checkColumnOrder_eq (List.mem_range.1 hj)), Attempt.run_ensure_of hfinite]

end WellFormed

/-- Sorted columns and finite values make a shaped matrix well formed. -/
theorem Shaped.wellFormed [Scalar α] {A : Sparse α} (h : A.Shaped)
    (hsorted : ∀ j < A.cols, (A.rowsOf j).Pairwise (· < ·))
    (hfinite : ∀ j < A.cols, ∀ e ∈ A.entries j, Scalar.isFinite e.2 = true) : A.WellFormed where
  toShaped := h
  row_lt_succ j hj _ hlo hhi := row_lt_succ_of_pairwise (hsorted j hj) hlo hhi
  isFinite_val p hp :=
    hfinite _ (h.colOf_lt hp) (A.row p, A.val p) (List.mem_map_of_mem (h.mem_positions_colOf hp))

/-! ## 3. What the format check decides -/

namespace Shaped

variable {A : Sparse α} (h : A.Shaped)

include h

theorem getElem?_colStart {j s : Nat} : A.colStart[j]? = some s ↔ j ≤ A.cols ∧ A.start j = s := by
  by_cases hj : j ≤ A.cols
  · rw [getElem?_eq_getD _ 0 (by rw [h.size_colStart]; omega), Option.some.injEq, and_iff_right hj,
      start]
  · rw [Array.getElem?_eq_none (by rw [h.size_colStart]; omega)]
    exact iff_of_false nofun fun hand => hj hand.1

/-- The column starts never decrease. -/
theorem pairwise_colStart : A.colStart.toList.Pairwise (· ≤ ·) := by
  rw [List.pairwise_iff_getElem]
  intro i j hi hj hij
  rw [Array.length_toList, h.size_colStart] at hj
  have hmono := h.start_mono (Nat.le_of_lt hij) (Nat.le_of_lt_succ hj)
  rwa [start, start, getD_of_lt _ _ _ hi, getD_of_lt _ _ _ (h.size_colStart ▸ hj)] at hmono

theorem lt_rows_of_mem {i : Nat} (hi : i ∈ A.rowIndex) : i < A.rows := by
  obtain ⟨p, hp, rfl⟩ := Array.mem_iff_getElem.1 hi
  have hrow := h.row_lt p hp
  rwa [row, getD_of_lt _ _ _ hp] at hrow

/-- The arrays of a shaped matrix fit together. -/
theorem ofFields_eq : ofFields A.rows A.cols A.colStart A.rowIndex A.value = .ok A := by
  unfold ofFields
  rw [Checked.require_of _ _ h.size_value.symm, Checked.ok_bind,
    Checked.require_of _ _ h.size_colStart, Checked.ok_bind,
    show Checked.entry A.colStart A.cols = _ from h.storedCount_eq, Checked.ok_bind,
    Checked.require_of _ _ rfl, Checked.ok_bind]
  rfl

theorem mem_value_of_mem_entries [Scalar α] {j : Nat} (hj : j < A.cols) {e : Nat × α}
    (he : e ∈ A.entries j) : e.2 ∈ A.value := by
  obtain ⟨p, hp, rfl⟩ := List.mem_map.1 he
  have hp : p < A.value.size := h.size_value ▸ h.lt_size_of_mem hj hp
  rw [val, getD_of_lt _ _ _ hp]
  exact Array.getElem_mem hp

end Shaped

/-- Between two neighbouring column starts stand the rows of a column. -/
theorem Sliced.toList_extract_rowIndex {A : Sparse α} (h : A.Sliced) {j : Nat} (hj : j < A.cols) :
    (A.rowIndex.extract (A.start j) (A.start (j + 1))).toList = A.rowsOf j :=
  toList_extract _ _ _ 0 (h.start_le_size j hj)

/-- Arrays of the right lengths, columns that follow each other from the first position to the last
    and rows inside the matrix make up its shape. -/
theorem shaped_of_arrays {A : Sparse α} (hvalue : A.rowIndex.size = A.value.size)
    (hsize : A.colStart.size = A.cols + 1) (hzero : A.colStart[0]? = some 0)
    (hmono : A.colStart.toList.Pairwise (· ≤ ·))
    (hcols : A.colStart[A.cols]? = some A.rowIndex.size) (hrows : ∀ i ∈ A.rowIndex, i < A.rows) :
    A.Shaped where
  size_colStart := hsize
  size_value := hvalue.symm
  start_zero := by
    rw [getElem?_eq_getD _ 0 (by omega)] at hzero
    exact Option.some.inj hzero
  start_le_succ j hj := by
    rw [List.pairwise_iff_getElem] at hmono
    have hle := hmono j (j + 1) (by simp; omega) (by simp; omega) (Nat.lt_succ_self j)
    rw [start, start, getD_of_lt _ _ _ (by omega), getD_of_lt _ _ _ (by omega)]
    exact hle
  start_cols := by
    rw [getElem?_eq_getD _ 0 (by omega)] at hcols
    exact Option.some.inj hcols
  row_lt p hp := by
    rw [row, getD_of_lt _ _ _ hp]
    exact hrows _ (Array.getElem_mem hp)

/-- **The format check answers on every matrix, whatever its fields, and passes exactly those**
    whose arrays have the lengths that the dimensions ask for, whose columns follow each other from
    the first position to the last, whose rows lie inside the matrix and increase strictly within
    each column, and whose values are finite. -/
theorem checkFormat_decides [Scalar α] (A : Sparse α) :
    (∃ r, A.checkFormat.run = .ok r) ∧
      (A.checkFormat.run = .ok (.ok ()) ↔
        A.rowIndex.size = A.value.size ∧ A.colStart.size = A.cols + 1 ∧
        A.colStart[0]? = some 0 ∧ A.colStart.toList.Pairwise (· ≤ ·) ∧
        A.colStart[A.cols]? = some A.rowIndex.size ∧ (∀ i ∈ A.rowIndex, i < A.rows) ∧
        (∀ j lo hi, A.colStart[j]? = some lo → A.colStart[j + 1]? = some hi →
          (A.rowIndex.extract lo hi).toList.Pairwise (· < ·)) ∧
        ∀ v ∈ A.value, Scalar.isFinite v = true) := by
  refine ⟨A.exists_checkFormat, ?_, ?_⟩
  · intro hcheck
    have h := wellFormed_of_checkFormat hcheck
    have hcolumns : ∀ j lo hi, A.colStart[j]? = some lo → A.colStart[j + 1]? = some hi →
        (A.rowIndex.extract lo hi).toList.Pairwise (· < ·) := by
      intro j lo hi hlo hhi
      obtain ⟨-, rfl⟩ := h.getElem?_colStart.1 hlo
      obtain ⟨hj, rfl⟩ := h.getElem?_colStart.1 hhi
      rw [h.sliced.toList_extract_rowIndex hj]
      exact h.pairwise_rowsOf hj
    exact ⟨h.size_value.symm, h.size_colStart, h.getElem?_colStart.2 ⟨Nat.zero_le _, h.start_zero⟩,
      h.pairwise_colStart, h.getElem?_colStart.2 ⟨Nat.le_refl _, h.start_cols⟩,
      fun _ => h.lt_rows_of_mem, hcolumns, fun _ hv => h.isFinite_of_mem_value hv.val⟩
  · intro hspec
    obtain ⟨hvalue, hsize, hzero, hmono, hcols, hrows, hcolumns, hfinite⟩ := hspec
    have h := shaped_of_arrays hvalue hsize hzero hmono hcols hrows
    refine WellFormed.checkFormat_eq (h.wellFormed ?_ ?_)
    · intro j hj
      rw [← h.sliced.toList_extract_rowIndex hj]
      exact hcolumns j _ _ (h.getElem?_colStart.2 ⟨Nat.le_of_lt hj, rfl⟩)
        (h.getElem?_colStart.2 ⟨hj, rfl⟩)
    · intro j hj e he
      exact hfinite _ (h.mem_value_of_mem_entries hj he)

/-! ## 4. Triangles -/

/-- No entry is stored below the diagonal. -/
def Upper (A : Sparse α) : Prop := ∀ j < A.cols, ∀ p ∈ A.positions j, A.row p ≤ j

instance (A : Sparse α) : Decidable A.Upper :=
  inferInstanceAs (Decidable (∀ j < A.cols, ∀ p ∈ A.positions j, A.row p ≤ j))

theorem Upper.le_of_mem_rowsOf {A : Sparse α} (h : A.Upper) {i j : Nat} (hj : j < A.cols)
    (hi : i ∈ A.rowsOf j) : i ≤ j := by
  obtain ⟨p, hp, rfl⟩ := List.mem_map.1 hi
  exact h j hj p hp

/-- Every entry is stored below the diagonal. -/
def StrictLower (A : Sparse α) : Prop := ∀ j < A.cols, ∀ p ∈ A.positions j, j < A.row p

/-- Every column has at most one entry in a row. -/
def Distinct (A : Sparse α) : Prop := ∀ j < A.cols, (A.rowsOf j).Nodup

theorem WellFormed.distinct [Scalar α] {A : Sparse α} (h : A.WellFormed) : A.Distinct := by
  intro j hj
  refine (List.nodup_map_iff_inj_on List.nodup_range').2 fun p hp q hq hrow => ?_
  exact h.eq_of_row_eq hj hp hq hrow

theorem Shaped.eq_of_row_eq {A : Sparse α} (h : A.Shaped) (hdistinct : A.Distinct) {p q : Nat}
    (hp : p < A.rowIndex.size) (hq : q < A.rowIndex.size) (hrow : A.row p = A.row q)
    (hcol : A.colOf p = A.colOf q) : p = q := by
  have hq' := h.mem_positions_colOf hq
  rw [← hcol] at hq'
  exact (List.nodup_map_iff_inj_on List.nodup_range').1 (hdistinct _ (h.colOf_lt hp)) p
    (h.mem_positions_colOf hp) q hq' hrow

/-- The upper triangle of a square matrix, with arrays that fit together. -/
structure Triangle (A : Sparse α) : Prop extends A.Shaped where
  square : A.rows = A.cols
  upper : A.Upper

/-- The test for the upper triangle answers on a shaped matrix, and is right. -/
theorem Shaped.exists_isUpper {A : Sparse α} (h : A.Shaped) :
    ∃ b, A.isUpper = .ok b ∧ (b = true ↔ A.Upper) := by
  refine ⟨_, Checked.allRange_eq_ok _ (fun j => ((A.positions j).map A.row).all (· ≤ j)) 0 A.cols
    fun j _ hj => ?_, ?_⟩
  · rw [h.columnRows_eq hj]
    simp
  · simp [Upper, List.all_eq_true]

theorem Shaped.isUpper_eq {A : Sparse α} (h : A.Shaped) : A.isUpper = .ok (decide A.Upper) := by
  obtain ⟨b, hb, hiff⟩ := h.exists_isUpper
  rw [hb]
  congr 1
  cases b with
  | true => exact (decide_eq_true (hiff.1 rfl)).symm
  | false => exact (decide_eq_false fun hupper => Bool.false_ne_true (hiff.2 hupper)).symm

theorem Shaped.isUpper_of_upper {A : Sparse α} (h : A.Shaped) (hupper : A.Upper) :
    A.isUpper = .ok true := by
  rw [h.isUpper_eq, decide_eq_true hupper]

end Sparse

end Quasidefinite
