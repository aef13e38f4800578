import Mathlib.Logic.Function.Basic
import Quasidefinite.Proofs.Sparse.Shape

/-!
# Entries in slots

The columns of a matrix are filled slot by slot: an entry is stored in the next free slot of its
column, one store for the row and one for the value. `slots` reads the entries off a block of
slots; a store appends to the block of its own column (`slots_set_self`) and goes unnoticed in
every other one (`slots_set_of_ne`). A column of slots is subtracted from a vector, scaled, entry
by entry (`exists_subtractEntries`). A shaped matrix is determined by its dimensions and the entries
of its columns (`Sparse.Shaped.ext_entries`).
-/

namespace Quasidefinite

variable {α : Type}

/-! ## 1. Arrays as functions -/

theorem getD_set_eq_update (xs : Array α) (i : Nat) (h : i < xs.size) (x d : α) :
    (fun j => (xs.set i x h).getD j d) = Function.update (fun j => xs.getD j d) i x := by
  funext j
  rw [getD_set, Function.update_apply]

/-! ## 2. Blocks of slots -/

section Slots

variable [Scalar α]

/-- The rows and values in `count` slots from `first` on. -/
def slots (rows : Array Nat) (values : Array α) (first count : Nat) : List (Nat × α) :=
  (List.range' first count).map fun p => (rows.getD p 0, values.getD p 0)

@[simp] theorem slots_zero (rows : Array Nat) (values : Array α) (first : Nat) :
    slots rows values first 0 = [] := rfl

variable {rows : Array Nat} {values : Array α} {first count : Nat}

theorem getElem?_slots {i : Nat} (hi : i < count) : (slots rows values first count)[i]? =
    some (rows.getD (first + i) 0, values.getD (first + i) 0) := by
  unfold slots
  rw [List.getElem?_map, List.getElem?_range' hi, Nat.one_mul]
  rfl

/-- A store outside the block goes unnoticed. -/
theorem slots_set_of_ne {p i : Nat} {x : α} (hr : p < rows.size) (hv : p < values.size)
    (hne : ∀ q ∈ List.range' first count, q ≠ p) :
    slots (rows.set p i) (values.set p x) first count = slots rows values first count := by
  refine List.map_congr_left fun q hq => ?_
  rw [getD_set, getD_set, if_neg (hne q hq), if_neg (hne q hq)]

/-- A store in the slot after the block appends an entry to it. -/
theorem slots_set_self {i : Nat} {x : α} (hr : first + count < rows.size)
    (hv : first + count < values.size) :
    slots (rows.set (first + count) i) (values.set (first + count) x) first (count + 1) =
      slots rows values first count ++ [(i, x)] := by
  have hne : ∀ q ∈ List.range' first count, q ≠ first + count := by
    intro q hq
    rw [List.mem_range'_1] at hq
    omega
  have hold : slots (rows.set (first + count) i) (values.set (first + count) x) first count =
      slots rows values first count := slots_set_of_ne hr hv hne
  rw [← hold, slots, slots, List.range'_1_concat, List.map_append, List.map_singleton]
  congr 3
  · exact (getD_set _ _ _ hr _ _).trans (if_pos rfl)
  · exact (getD_set _ _ _ hv _ _).trans (if_pos rfl)

theorem Sparse.entries_eq_slots (A : Sparse α) (j : Nat) :
    A.entries j = slots A.rowIndex A.value (A.start j) (A.start (j + 1) - A.start j) := rfl

end Slots

/-! ## 3. Subtracting a column -/

section Subtract

variable [Scalar α]

/-- Subtracts a list of entries, times `y`, from a vector. -/
def subtractEntries (y : α) (entries : List (Nat × α)) (x : Nat → α) : Nat → α :=
  entries.foldl (fun x e => Function.update x e.1 (x e.1 - e.2 * y)) x

theorem subtractEntries_of_not_mem (y : α) (entries : List (Nat × α)) (x : Nat → α) {i : Nat}
    (hi : ∀ e ∈ entries, e.1 ≠ i) : subtractEntries y entries x i = x i := by
  induction entries generalizing x with
  | nil => rfl
  | cons e es ih =>
    have := ih (Function.update x e.1 (x e.1 - e.2 * y))
      fun e' he' => hi e' (List.mem_cons_of_mem e he')
    unfold subtractEntries
    rw [List.foldl_cons]
    refine Eq.trans this ?_
    rw [Function.update_of_ne (hi e List.mem_cons_self).symm]

/-- Adjusting a vector entry by entry subtracts the list. -/
theorem exists_subtractEntries (y : α) (entries : List (Nat × α)) (xs : Array α)
    (h : ∀ e ∈ entries, e.1 < xs.size) :
    ∃ ys, entries.foldlM (fun xs e => Checked.adjust xs e.1 (· - e.2 * y)) xs = .ok ys ∧
      ys.size = xs.size ∧
      (fun i => ys.getD i 0) = subtractEntries y entries fun i => xs.getD i 0 := by
  induction entries generalizing xs with
  | nil => exact ⟨xs, rfl, rfl, rfl⟩
  | cons e es ih =>
    have he : e.1 < xs.size := h e List.mem_cons_self
    obtain ⟨ys, hrun, hsize, heq⟩ := ih (xs.set e.1 (xs.getD e.1 0 - e.2 * y)) fun e' he' => by
      rw [Array.size_set]
      exact h e' (List.mem_cons_of_mem e he')
    rw [Array.size_set] at hsize
    rw [getD_set_eq_update] at heq
    exact ⟨ys, by rw [List.foldlM_cons, Checked.adjust_eq _ _ _ 0 he, Checked.ok_bind, hrun],
      hsize, heq⟩

end Subtract

/-! ## 4. Shaped matrices -/

namespace Sparse

/-- Storing a row of the matrix, and a value, in one slot keeps the shape. -/
theorem Shaped.store {A : Sparse α} (h : A.Shaped) {p i : Nat} (hp : p < A.rowIndex.size)
    (hp' : p < A.value.size) (hi : i < A.rows) (v : α) :
    ({ A with rowIndex := A.rowIndex.set p i, value := A.value.set p v } : Sparse α).Shaped where
  size_colStart := h.size_colStart
  size_value := by simp [h.size_value]
  start_zero := h.start_zero
  start_le_succ := h.start_le_succ
  start_cols := by
    rw [Array.size_set]
    exact h.start_cols
  row_lt q hq := by
    unfold row
    rw [getD_set]
    split
    · exact hi
    · exact h.row_lt q (by simpa using hq)

/-- Shaped matrices with the same column starts and the same rows in every column have the same
    pattern. -/
theorem Shaped.ext_rows {β : Type} {A : Sparse α} {B : Sparse β} (hA : A.Shaped) (hB : B.Shaped)
    (hcols : A.cols = B.cols) (hstart : A.colStart = B.colStart)
    (h : ∀ j < A.cols, A.rowsOf j = B.rowsOf j) : A.rowIndex = B.rowIndex := by
  have hstarts : ∀ j, A.start j = B.start j := fun j => by rw [start, hstart, start]
  have hsize : A.rowIndex.size = B.rowIndex.size := by
    rw [← hA.start_cols, ← hB.start_cols, hstarts, hcols]
  refine ext_getD 0 hsize fun p hp => ?_
  have hcol := h _ (hA.colOf_lt hp)
  have hpos : B.positions (A.colOf p) = A.positions (A.colOf p) := by
    rw [positions, positions, hstarts, hstarts]
  rw [rowsOf, rowsOf, hpos, List.map_inj_left] at hcol
  exact hcol p (hA.mem_positions_colOf hp)

/-- The lengths of the columns settle where they begin. -/
theorem Shaped.colStart_eq {β : Type} {A : Sparse α} {B : Sparse β} (hA : A.Shaped) (hB : B.Shaped)
    (hcols : A.cols = B.cols)
    (h : ∀ j < A.cols, (A.positions j).length = (B.positions j).length) :
    A.colStart = B.colStart := by
  have hstart : ∀ j ≤ A.cols, A.start j = B.start j := by
    intro j
    induction j with
    | zero => exact fun _ => hA.start_zero.trans hB.start_zero.symm
    | succ j ih =>
      intro hj
      have hlength := h j hj
      rw [positions, positions, List.length_range', List.length_range', ih (Nat.le_of_lt hj)]
        at hlength
      have hle := hA.start_le_succ j hj
      have hle' := hB.start_le_succ j (hcols ▸ hj)
      rw [ih (Nat.le_of_lt hj)] at hle
      omega
  refine ext_getD 0 (by rw [hA.size_colStart, hB.size_colStart, hcols]) fun j hj => hstart j ?_
  rw [hA.size_colStart] at hj
  omega

/-- **A shaped matrix is settled by its dimensions and the entries of its columns.** -/
theorem Shaped.ext_entries [Scalar α] {A B : Sparse α} (hA : A.Shaped) (hB : B.Shaped)
    (hrows : A.rows = B.rows) (hcols : A.cols = B.cols)
    (h : ∀ j < A.cols, A.entries j = B.entries j) : A = B := by
  have hstart : A.colStart = B.colStart := by
    refine hA.colStart_eq hB hcols fun j hj => ?_
    have hlength := congrArg List.length (h j hj)
    rwa [entries, entries, List.length_map, List.length_map] at hlength
  have hstarts : ∀ j, A.start j = B.start j := fun j => by rw [start, hstart, start]
  have hrowIndex : A.rowIndex = B.rowIndex := by
    refine hA.ext_rows hB hcols hstart fun j hj => ?_
    rw [← map_fst_entries, ← map_fst_entries, h j hj]
  have hvalue : A.value = B.value := by
    refine ext_getD 0 (by rw [hA.size_value, hB.size_value, hrowIndex]) fun p hp => ?_
    have hp : p < A.rowIndex.size := hA.size_value ▸ hp
    have hcol := h _ (hA.colOf_lt hp)
    have hpos : B.positions (A.colOf p) = A.positions (A.colOf p) := by
      rw [positions, positions, hstarts, hstarts]
    rw [entries, entries, hpos, List.map_inj_left] at hcol
    exact (Prod.mk.inj (hcol p (hA.mem_positions_colOf hp))).2
  obtain ⟨⟩ := A
  obtain ⟨⟩ := B
  simp_all

end Sparse

end Quasidefinite
