import Mathlib.Data.Fin.VecNotation
import Quasidefinite.Proofs.Sparse.Search

/-!
# Dense arrays and compressed columns

A dense array is compressed column by column, and its zeros are left out. The result is well formed
(`Sparse.wellFormed_ofDense`), and looking its entries up gives the array back
(`Sparse.entry?_ofDense`). Conversely, a well-formed matrix that stores no zero is the compression
of the array of its entries (`WellFormed.ofDense_stored`), for a list of entries sorted by row is
settled by its members (`Sparse.eq_of_mem_iff`).
-/

namespace Quasidefinite

namespace Sparse

variable {α : Type}

/-! ## 1. Sorted columns -/

/-- Two lists sorted by row are the same if they have the same members. -/
theorem eq_of_mem_iff {es fs : List (Nat × α)} (hes : (es.map Prod.fst).Pairwise (· < ·))
    (hfs : (fs.map Prod.fst).Pairwise (· < ·)) (h : ∀ e, e ∈ es ↔ e ∈ fs) : es = fs := by
  have hes' : es.Nodup := List.Nodup.of_map Prod.fst (hes.imp Nat.ne_of_lt)
  have hfs' : fs.Nodup := List.Nodup.of_map Prod.fst (hfs.imp Nat.ne_of_lt)
  rw [List.pairwise_map] at hes hfs
  refine List.Perm.eq_of_pairwise (fun e f _ _ hlt hgt => ?_) hes hfs
    ((List.perm_ext_iff_of_nodup hes' hfs').2 h)
  exact absurd hlt (Nat.lt_asymm hgt)

/-! ## 2. The columns of a dense array -/

variable [Scalar α] {m n : Nat} {array : Fin m → Fin n → α}

/-- A column keeps the nonzero entries. -/
theorem mem_denseColumn {col : Fin n} {i : Nat} {v : α} : (i, v) ∈ denseColumn array col ↔
    ∃ hi : i < m, array ⟨i, hi⟩ col = v ∧ (v == 0) = false := by
  unfold denseColumn
  rw [List.mem_filterMap]
  constructor
  · intro hkept
    obtain ⟨row, -, hkept⟩ := hkept
    cases hzero : array row col == 0 with
    | true =>
      rw [if_pos hzero] at hkept
      cases hkept
    | false =>
      rw [if_neg (Bool.not_eq_true _ ▸ hzero), Option.some.injEq, Prod.mk.injEq] at hkept
      obtain ⟨rfl, rfl⟩ := hkept
      exact ⟨row.isLt, rfl, hzero⟩
  · intro hentry
    obtain ⟨hi, rfl, hzero⟩ := hentry
    refine ⟨⟨i, hi⟩, List.mem_finRange _, ?_⟩
    rw [hzero]
    rfl

/-- The rows of a column are sorted. -/
theorem pairwise_denseColumn (col : Fin n) :
    ((denseColumn array col).map Prod.fst).Pairwise (· < ·) := by
  unfold denseColumn
  rw [List.pairwise_map, List.pairwise_filterMap]
  refine (List.pairwise_lt_finRange m).imp fun {row row'} hlt e he e' he' => ?_
  have hfst : ∀ {row : Fin m} {e : Nat × α},
      (if array row col == 0 then none else some (row.val, array row col)) = some e →
        e.1 = row.val := by
    intro row e he
    split at he
    · cases he
    · cases he
      rfl
  rw [hfst he, hfst he']
  exact hlt

/-! ## 3. From the array to the columns -/

@[simp] theorem rows_ofDense : (ofDense array).rows = m := rfl

@[simp] theorem cols_ofDense : (ofDense array).cols = n := by
  simp [ofDense, ofColumns]

theorem entries_ofDense (col : Fin n) : (ofDense array).entries col = denseColumn array col := by
  unfold ofDense
  rw [entries_ofColumns _ _ (by simp)]
  simp

theorem shaped_ofDense (array : Fin m → Fin n → α) : (ofDense array).Shaped := by
  refine shaped_ofColumns _ _ fun c hc e he => ?_
  obtain ⟨col, -, rfl⟩ := List.mem_map.1 hc
  exact (mem_denseColumn.1 he).1

/-- The arrays of a compression have the lengths that its dimensions ask for. -/
theorem ofFields_ofDense (array : Fin m → Fin n → α) :
    ofFields m n (ofDense array).colStart (ofDense array).rowIndex (ofDense array).value =
      .ok (ofDense array) := by
  have hfields := (shaped_ofDense array).ofFields_eq
  rwa [rows_ofDense, cols_ofDense] at hfields

/-- **The compression of an array of finite values is well formed.** -/
theorem wellFormed_ofDense (hfinite : ∀ i j, Scalar.isFinite (array i j) = true) :
    (ofDense array).WellFormed := by
  refine (shaped_ofDense array).wellFormed ?_ ?_
  · intro j hj
    rw [cols_ofDense] at hj
    rw [← map_fst_entries, entries_ofDense ⟨j, hj⟩]
    exact pairwise_denseColumn _
  · intro j hj e he
    rw [cols_ofDense] at hj
    rw [entries_ofDense ⟨j, hj⟩] at he
    obtain ⟨hi, hvalue, -⟩ := mem_denseColumn.1 he
    rw [← hvalue]
    exact hfinite _ _

/-- **Looking entries up gives the array back**, its zeros as entries that are not stored. -/
theorem entry?_ofDense (hfinite : ∀ i j, Scalar.isFinite (array i j) = true) (i : Fin m)
    (j : Fin n) :
    entry? (ofDense array) i j = .ok (if array i j == 0 then none else some (array i j)) := by
  have h := wellFormed_ofDense hfinite
  have hj : j.val < (ofDense array).cols := by simp
  rw [h.entry?_eq i.isLt hj, Except.ok.injEq]
  cases hzero : array i j == 0 with
  | true =>
    -- whatever stood in this row would be a zero that is stored
    refine Option.eq_none_iff_forall_ne_some.2 fun v hfound => ?_
    rw [← h.mem_entries_iff hj, entries_ofDense, mem_denseColumn] at hfound
    obtain ⟨hi, rfl, hnonzero⟩ := hfound
    exact Bool.false_ne_true (hnonzero.symm.trans hzero)
  | false =>
    refine (h.mem_entries_iff hj).1 ?_
    rw [entries_ofDense]
    exact mem_denseColumn.2 ⟨i.isLt, rfl, hzero⟩

/-! ## 4. From the columns to the array -/

/-- The columns of the array of entries are the columns of the matrix. -/
theorem WellFormed.denseColumn_stored [ReflexiveScalar α] {A : Sparse α} (h : A.WellFormed)
    (hzero : Scalar.isFinite (0 : α) = true) (hnonzero : ∀ v ∈ A.value, (v == 0) = false)
    (j : Fin A.cols) :
    denseColumn (fun (i : Fin A.rows) (j : Fin A.cols) => A.stored i j) j = A.entries j := by
  refine eq_of_mem_iff (pairwise_denseColumn j) ?_ fun e => ?_
  · rw [map_fst_entries]
    exact h.pairwise_rowsOf j.isLt
  · obtain ⟨i, v⟩ := e
    rw [mem_denseColumn]
    constructor
    · intro hentry
      obtain ⟨hi, hstored, hv⟩ := hentry
      rw [h.mem_entries_iff j.isLt]
      unfold stored at hstored
      cases hfound : (A.entries j).lookup i with
      | none =>
        -- an entry that is not stored is zero, and was left out
        rw [hfound] at hstored
        rw [← hstored] at hv
        exact absurd (ReflexiveScalar.beq_self hzero) (by simpa using hv)
      | some w =>
        rw [hfound] at hstored
        exact congrArg some hstored
    · intro he
      have hfound := (h.mem_entries_iff j.isLt).1 he
      refine ⟨?_, ?_, hnonzero v (h.toShaped.mem_value_of_mem_entries j.isLt he)⟩
      · obtain ⟨p, hp, heq⟩ := List.mem_map.1 he
        obtain ⟨rfl, -⟩ := Prod.mk.inj heq
        exact h.row_lt p (h.lt_size_of_mem j.isLt hp)
      · rw [stored, hfound]
        rfl

/-- **A well-formed matrix that stores no zero is the compression of the array of its entries.** -/
theorem WellFormed.ofDense_stored [ReflexiveScalar α] {A : Sparse α} (h : A.WellFormed)
    (hzero : Scalar.isFinite (0 : α) = true) (hnonzero : ∀ v ∈ A.value, (v == 0) = false) :
    ofDense (fun (i : Fin A.rows) (j : Fin A.cols) => A.stored i j) = A := by
  refine (shaped_ofDense _).ext_entries h.toShaped rfl cols_ofDense fun j hj => ?_
  rw [cols_ofDense] at hj
  rw [entries_ofDense ⟨j, hj⟩]
  exact h.denseColumn_stored hzero hnonzero ⟨j, hj⟩

/-- **Compressing a dense array and looking entries up undo each other.** Every array of finite
    values compresses to a matrix that passes the format check, has the dimensions of the array,
    stores its nonzero entries and nothing else, and gives them back. Conversely, a matrix that
    passes the format check and stores no zero comes back from the array of its entries. -/
theorem ofDense_round_trip [ReflexiveScalar α] (hzero : Scalar.isFinite (0 : α) = true) :
    (∀ {m n : Nat} (array : Fin m → Fin n → α), (∀ i j, Scalar.isFinite (array i j) = true) →
      ofFields m n (ofDense array).colStart (ofDense array).rowIndex (ofDense array).value =
        .ok (ofDense array) ∧
      (ofDense array).checkFormat.run = .ok (.ok ()) ∧ (ofDense array).dims = (m, n) ∧
      (∀ (j : Fin n) i v, (i, v) ∈ (ofDense array).entries j ↔
        ∃ hi : i < m, array ⟨i, hi⟩ j = v ∧ (v == 0) = false) ∧
      ∀ (i : Fin m) (j : Fin n), entry? (ofDense array) i j =
        .ok (if array i j == 0 then none else some (array i j))) ∧
    ∀ (A : Sparse α), A.checkFormat.run = .ok (.ok ()) → (∀ v ∈ A.value, (v == 0) = false) →
      ∃ array : Fin A.rows → Fin A.cols → α,
        (∀ (i : Fin A.rows) (j : Fin A.cols),
          (fun v => v.getD 0) <$> A.entry? i j = .ok (array i j)) ∧ ofDense array = A := by
  refine ⟨fun {m n} array hfinite => ?_, fun A hcheck hnonzero => ?_⟩
  · have h := wellFormed_ofDense hfinite
    refine ⟨?_, h.checkFormat_eq, ?_, fun j i v => ?_, entry?_ofDense hfinite⟩
    · exact ofFields_ofDense array
    · rw [dims, rows_ofDense, cols_ofDense]
    · rw [entries_ofDense]
      exact mem_denseColumn
  · have h := wellFormed_of_checkFormat hcheck
    refine ⟨fun i j => A.stored i j, fun i j => ?_, h.ofDense_stored hzero hnonzero⟩
    rw [h.entry?_eq i.isLt j.isLt]
    rfl

/-- An array of doubles with an empty row, an empty column and a negative zero. -/
def sampleArray : Fin 3 → Fin 3 → Float :=
  ![![1.5, 0.0, 4.0], ![0.0, 0.0, -0.0], ![-2.0, 0.0, 0.0]]

/-- The three nonzero entries survive the way there and back. -/
theorem ofDense_round_trip_sample : Scalar.isFinite (0 : Float) = true ∧
    (∀ i j, Scalar.isFinite (sampleArray i j) = true) ∧
    entry? (ofDense sampleArray) 2 0 = .ok (some (-2.0)) ∧
    entry? (ofDense sampleArray) 1 2 = .ok none ∧
    (∀ v ∈ (ofDense sampleArray).value, (v == 0) = false) ∧
    ∃ array : Fin 3 → Fin 3 → Float, ofDense array = ofDense sampleArray := by
  have hzero : Scalar.isFinite (0 : Float) = true := by decide +kernel
  have hfinite : ∀ i j, Scalar.isFinite (sampleArray i j) = true := by decide +kernel
  have hnonzero : ∀ v ∈ (ofDense sampleArray).value, (v == 0) = false := by decide +kernel
  obtain ⟨-, hcheck, -, -, hentry⟩ := (ofDense_round_trip hzero).1 sampleArray hfinite
  obtain ⟨array, -, hback⟩ := (ofDense_round_trip hzero).2 _ hcheck hnonzero
  exact ⟨hzero, hfinite, hentry 2 0, hentry 1 2, hnonzero, array, hback⟩

end Sparse

end Quasidefinite
