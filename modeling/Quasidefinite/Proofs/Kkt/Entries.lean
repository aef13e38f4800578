import Quasidefinite.Proofs.Kkt.Assembly
import Quasidefinite.Proofs.Overflow
import Quasidefinite.Proofs.Sparse.Search

/-!
# The entries of the assembled matrix

In every arithmetic the assembled matrix stores, on and above the diagonal, the entries of

    [ ρₓ I + P   Aᵀ         ]
    [ ·          -diag(ρ_y) ]

(`Kkt.systemEntry`, `Assembled.stored_eq`). Its columns are sorted, and if the entries on the
diagonal of the top left block have not overflown it is well formed (`Assembled.wellFormed`).
-/

namespace Quasidefinite

variable {α : Type} [Scalar α]

namespace Kkt

/-- Entry `(i, j)`, on or above the diagonal, of the matrix of the system. -/
def systemEntry (A P : Sparse α) (primal : α) (dual : Array α) (i j : Nat) : α :=
  if j < A.cols then
    if i = j then P.stored i j + primal else P.stored i j
  else if i < A.cols then A.stored (j - A.cols) i
  else if i = j then -dual.getD (j - A.cols) 0 else 0

/-! ## 1. Triplets -/

/-- **The entries of the whole system**: those of the quadratic term, the zeros where it lacks its
    diagonal, those of the constraints, and the zeros on the dual diagonal. -/
theorem cases_triplet {P A : Sparse α} {x : Triplet α} (hx : x ∈ triplets P A) :
    (∃ p < P.rowIndex.size, x = ⟨P.row p, P.colOf p, P.val p⟩) ∨
      (∃ j ∈ lacking P, x = ⟨j, j, 0⟩) ∨
      (∃ p < A.rowIndex.size, x = ⟨A.colOf p, A.row p + A.cols, A.val p⟩) ∨
      ∃ i < A.rows, x = ⟨A.cols + i, A.cols + i, 0⟩ := by
  simp only [triplets, List.mem_append] at hx
  rcases hx with ((hx | hx) | hx) | hx
  · obtain ⟨p, hp, rfl⟩ := List.mem_map.1 hx
    exact .inl ⟨p, List.mem_range.1 hp, rfl⟩
  · obtain ⟨j, hj, rfl⟩ := List.mem_map.1 hx
    exact .inr (.inl ⟨j, hj, rfl⟩)
  · obtain ⟨p, hp, rfl⟩ := List.mem_map.1 hx
    exact .inr (.inr (.inl ⟨p, List.mem_range.1 hp, rfl⟩))
  · obtain ⟨j, hj, rfl⟩ := List.mem_map.1 hx
    rw [List.mem_range'_1] at hj
    exact .inr (.inr (.inr ⟨j - A.cols, by omega, by rw [Nat.add_sub_of_le hj.1]⟩))

theorem mem_triplets_lacking {P A : Sparse α} {j : Nat} (hj : j ∈ lacking P) :
    ⟨j, j, 0⟩ ∈ triplets P A := by
  simp only [triplets, List.mem_append]
  exact .inl (.inl (.inr (List.mem_map_of_mem hj)))

namespace Assembled

variable {P A : Sparse α} (h : Blocks P A) {f : α → α} {d : Nat → α} {K : Kkt α}
  (hK : Assembled P A f d K)

include h hK

/-! ## 2. Stored entries -/

/-- What is found at the position of an entry of the system. -/
theorem lookup_of_mem {x : Triplet α} (hx : x ∈ triplets P A) :
    (K.matrix.entries x.col).lookup x.row = some (regularized A.cols f d x) := by
  obtain ⟨t, ht⟩ := List.getElem?_of_mem hx
  obtain ⟨hlt, hrow, hcol, hval⟩ := hK.at_placeIn ht
  have hshaped := hK.layout.shaped
  have hmem := hshaped.mem_positions_colOf hlt
  rw [← hval, ← hrow, ← hcol]
  exact Sparse.lookup_entries (distinct h hK) (hshaped.colOf_lt hlt) hmem

omit h in
/-- Nothing is found where the system has no entry. -/
theorem lookup_of_forall_ne {i j : Nat} (hj : j < A.rows + A.cols)
    (hnone : ∀ x ∈ triplets P A, x.row = i → x.col ≠ j) :
    (K.matrix.entries j).lookup i = none := by
  refine Sparse.lookup_entries_of_not_mem fun hmem => ?_
  rw [hK.rowsOf_eq hj] at hmem
  obtain ⟨e, he, hei⟩ := List.mem_map.1 hmem
  obtain ⟨x, hx, rfl⟩ := List.mem_map.1 he
  obtain ⟨hx, hcol⟩ := List.mem_filter.1 hx
  exact hnone x hx hei (of_decide_eq_true hcol)

/-- The columns of the variables hold those of the quadratic term, with a whole diagonal, which is
    regularized. -/
theorem lookup_primal {i j : Nat} (hj : j < A.cols) : (K.matrix.entries j).lookup i =
    if i = j then some (f (P.stored i j)) else (P.entries j).lookup i := by
  have hjP : j < P.cols := h.cols_eq.symm ▸ hj
  by_cases hmem : i ∈ P.rowsOf j
  · obtain ⟨p, hp, rfl⟩ := List.mem_map.1 hmem
    have hfound := lookup_of_mem h hK (List.mem_of_getElem?
      (getElem?_quadratic P A (h.quadratic.lt_size_of_mem hjP hp)))
    rw [h.quadratic.colOf_eq hjP hp] at hfound
    rw [hfound, regularized, Sparse.stored_row h.quadratic.distinct hjP hp, if_pos hj,
      Sparse.lookup_entries h.quadratic.distinct hjP hp, apply_ite some]
  · rw [Sparse.stored_of_not_mem hmem, Sparse.lookup_entries_of_not_mem hmem]
    by_cases hij : i = j
    · subst hij
      rw [if_pos rfl, lookup_of_mem h hK (mem_triplets_lacking (mem_lacking.2 ⟨hjP, hmem⟩)),
        regularized, if_pos rfl, if_pos hj]
    · rw [if_neg hij]
      refine hK.lookup_of_forall_ne (by omega) fun x hx hrow hcol => ?_
      rcases cases_triplet hx with ⟨p, hp, rfl⟩ | ⟨k, -, rfl⟩ | ⟨p, hp, rfl⟩ | ⟨k, hk, rfl⟩
      · exact hmem (List.mem_map.2 ⟨p, hcol ▸ h.quadratic.mem_positions_colOf hp, hrow⟩)
      · exact hij (hrow.symm.trans hcol)
      · dsimp only at hcol
        omega
      · exact hij (hrow.symm.trans hcol)

/-- The columns of the constraints hold the rows of the constraint matrix. -/
theorem lookup_cross {i k : Nat} (hi : i < A.cols) (hk : k < A.rows) :
    (K.matrix.entries (A.cols + k)).lookup i = (A.entries i).lookup k := by
  by_cases hmem : k ∈ A.rowsOf i
  · obtain ⟨p, hp, rfl⟩ := List.mem_map.1 hmem
    have hfound := lookup_of_mem h hK (List.mem_of_getElem?
      (getElem?_constraint P A (h.constraint.lt_size_of_mem hi hp)))
    rw [h.constraint.colOf_eq hi hp] at hfound
    rw [Nat.add_comm, hfound, regularized, Sparse.lookup_entries h.constraint.distinct hi hp,
      if_neg (by dsimp only; omega)]
  · rw [Sparse.lookup_entries_of_not_mem hmem]
    refine hK.lookup_of_forall_ne (by omega) fun x hx hrow hcol => ?_
    rcases cases_triplet hx with ⟨p, hp, rfl⟩ | ⟨j, -, rfl⟩ | ⟨p, hp, rfl⟩ | ⟨j, hj, rfl⟩
    · have := h.colOf_lt hp
      dsimp only at hcol
      omega
    · dsimp only at hrow hcol
      omega
    · dsimp only at hrow hcol
      refine hmem (List.mem_map.2 ⟨p, hrow ▸ h.constraint.mem_positions_colOf hp, ?_⟩)
      omega
    · dsimp only at hrow hcol
      omega

/-- On the dual diagonal the dual values are held, and nothing beside it. -/
theorem lookup_dual {k l : Nat} (hl : l < A.rows) :
    (K.matrix.entries (A.cols + l)).lookup (A.cols + k) = if k = l then some (d l) else none := by
  by_cases hkl : k = l
  · subst hkl
    rw [if_pos rfl, lookup_of_mem h hK (List.mem_of_getElem? (getElem?_dual P A hl)), regularized,
      if_pos rfl, if_neg (by dsimp only; omega), Nat.add_sub_cancel_left]
  · rw [if_neg hkl]
    refine hK.lookup_of_forall_ne (by omega) fun x hx hrow hcol => ?_
    rcases cases_triplet hx with ⟨p, hp, rfl⟩ | ⟨j, -, rfl⟩ | ⟨p, hp, rfl⟩ | ⟨j, hj, rfl⟩
    · have := h.colOf_lt hp
      dsimp only at hcol
      omega
    · dsimp only at hrow hcol
      omega
    · have := h.constraint.colOf_lt hp
      dsimp only at hrow
      omega
    · dsimp only at hrow hcol
      omega

theorem stored_primal {i j : Nat} (hj : j < A.cols) :
    K.matrix.stored i j = if i = j then f (P.stored i j) else P.stored i j := by
  rw [Sparse.stored, lookup_primal h hK hj]
  split <;> rfl

theorem stored_cross {i k : Nat} (hi : i < A.cols) (hk : k < A.rows) :
    K.matrix.stored i (A.cols + k) = A.stored k i := by
  rw [Sparse.stored, lookup_cross h hK hi hk, Sparse.stored]

theorem stored_dual {k l : Nat} (hl : l < A.rows) :
    K.matrix.stored (A.cols + k) (A.cols + l) = if k = l then d l else 0 := by
  rw [Sparse.stored, lookup_dual h hK hl]
  split <;> rfl

omit hK in
/-- **On and above the diagonal the assembled matrix is that of the system.** -/
theorem stored_eq {primal : α} {dual : Array α} {K : Kkt α}
    (hK : Assembled P A (fun v => v + primal) d K) (hd : ∀ i < A.rows, d i = -dual.getD i 0)
    {i j : Nat} (hij : i ≤ j) (hj : j < A.rows + A.cols) :
    K.matrix.stored i j = systemEntry A P primal dual i j := by
  unfold systemEntry
  by_cases hleft : j < A.cols
  · rw [stored_primal h hK hleft, if_pos hleft]
  · obtain ⟨l, rfl⟩ := Nat.exists_eq_add_of_le (Nat.le_of_not_lt hleft)
    have hl : l < A.rows := by omega
    rw [if_neg hleft, Nat.add_sub_cancel_left]
    by_cases hi : i < A.cols
    · rw [stored_cross h hK hi hl, if_pos hi]
    · obtain ⟨k, rfl⟩ := Nat.exists_eq_add_of_le (Nat.le_of_not_lt hi)
      simp only [stored_dual h hK hl, if_neg hi, Nat.add_right_inj, hd l hl]

/-! ## 3. Good form -/

/-- The rows of every column are sorted. -/
theorem pairwise_rowsOf {j : Nat} (hj : j < A.rows + A.cols) :
    (K.matrix.rowsOf j).Pairwise (· < ·) := by
  rw [hK.rowsOf_eq hj]
  by_cases hleft : j < A.cols
  · have hjP : j < P.cols := h.cols_eq.symm ▸ hleft
    rw [h.column_left hleft, List.map_append, Sparse.map_fst_entries]
    refine List.pairwise_append.2 ⟨h.quadratic.pairwise_rowsOf hjP, ?_, ?_⟩
    · split <;> simp
    · intro i hi k hk
      obtain ⟨p, hp, rfl⟩ := List.mem_map.1 hi
      split at hk
      · rename_i hmem
        obtain rfl : k = j := by simpa using hk
        exact Nat.lt_of_le_of_ne (h.upper _ hjP p hp) fun heq => hmem (heq ▸ hi)
      · cases hk
  · obtain ⟨k, rfl⟩ := Nat.exists_eq_add_of_le (Nat.le_of_not_lt hleft)
    have hrows : (Triplet.column (blockTriplets A fun row col => (col, row + A.cols))
        (A.cols + k)).map Prod.fst = ((List.range A.rowIndex.size).filter
          fun p => A.row p + A.cols = A.cols + k).map A.colOf := by
      simp [Triplet.column, blockTriplets, List.filter_map, Function.comp_def]
    rw [h.column_right (by omega), List.map_append, hrows]
    refine List.pairwise_append.2 ⟨?_, List.pairwise_singleton _ _, ?_⟩
    · -- the entries of one row stand in different columns
      rw [List.pairwise_map]
      refine List.Pairwise.imp_of_mem ?_ (List.pairwise_lt_range.filter _)
      intro p q hp hq hpq
      obtain ⟨hp, hrow⟩ := List.mem_filter.1 hp
      obtain ⟨hq, hrow'⟩ := List.mem_filter.1 hq
      have hrow := of_decide_eq_true hrow
      have hrow' := of_decide_eq_true hrow'
      refine Nat.lt_of_le_of_ne (Nat.findGreatest_mono_left (fun _ hle => hle.trans hpq.le) _)
        fun hcol => hpq.ne ?_
      exact h.constraint.toShaped.eq_of_row_eq h.constraint.distinct (List.mem_range.1 hp)
        (List.mem_range.1 hq) (by omega) hcol
    · intro i hi l hl
      obtain ⟨p, hp, rfl⟩ := List.mem_map.1 hi
      have := h.constraint.colOf_lt (List.mem_range.1 (List.mem_filter.1 hp).1)
      obtain rfl : l = A.cols + k := by simpa using hl
      omega

/-- **The assembled matrix is well formed** if what it stores is finite. -/
theorem wellFormed (hfinite : ∀ i j, i ≤ j → j < A.rows + A.cols →
    Scalar.isFinite (K.matrix.stored i j) = true) : K.matrix.WellFormed where
  toShaped := hK.layout.shaped
  row_lt_succ _ hj _ hlo hhi :=
    Sparse.row_lt_succ_of_pairwise (pairwise_rowsOf h hK (hj.trans_eq hK.layout.cols_eq)) hlo hhi
  isFinite_val p hp := by
    have hshaped := hK.layout.shaped
    have hcol := hshaped.colOf_lt hp
    have hmem := hshaped.mem_positions_colOf hp
    rw [← Sparse.stored_row (distinct h hK) hcol hmem]
    exact hfinite _ _ ((triangle h hK).upper _ hcol p hmem) (hcol.trans_eq hK.layout.cols_eq)

omit h in
/-- **The regularizers change values alone**: the pattern and the places are those of the data. -/
theorem eq_revalue {f' : α → α} {d' : Nat → α} {L : Kkt α} (hL : Assembled P A f' d' L) :
    K = { L with matrix := { L.matrix with value := K.matrix.value } } := by
  refine hK.unique (hL.revalue ?_ fun t x hx => ?_)
  · rw [hK.layout.size_value, hL.layout.size_value]
    simp [regularizedTriplets]
  · exact (hK.at_placeIn hx).2.2.2

end Assembled

/-! ## 4. Finite entries -/

variable [OverflowScalar α]

/-- The entries of the system are finite if those on the diagonal of the top left block are. -/
theorem isFinite_systemEntry {A P : Sparse α} (hA : A.WellFormed) (hP : P.WellFormed)
    (hcols : P.cols = A.cols) {primal : α} {dual : Array α}
    (hprimal : ∀ j < A.cols, Scalar.isFinite (P.stored j j + primal) = true)
    (hdual : ∀ i < A.rows, Scalar.isFinite (dual.getD i 0) = true) {i j : Nat}
    (hj : j < A.rows + A.cols) : Scalar.isFinite (systemEntry A P primal dual i j) = true := by
  unfold systemEntry
  by_cases hleft : j < A.cols
  · rw [if_pos hleft]
    by_cases hij : i = j
    · rw [if_pos hij, hij]
      exact hprimal j hleft
    · rw [if_neg hij]
      exact hP.isFinite_stored OverflowScalar.isFinite_zero (hcols.symm ▸ hleft)
  · rw [if_neg hleft]
    by_cases hi : i < A.cols
    · rw [if_pos hi]
      exact hA.isFinite_stored OverflowScalar.isFinite_zero hi
    · rw [if_neg hi]
      split
      · exact OverflowScalar.isFinite_neg (hdual _ (by omega))
      · exact OverflowScalar.isFinite_zero

end Kkt

end Quasidefinite
