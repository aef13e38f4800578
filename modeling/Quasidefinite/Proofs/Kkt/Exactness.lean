import Quasidefinite.Proofs.Kkt.Entries

/-!
# Assembly is exact

Of a well-formed upper triangle `P` and well-formed constraints `A` assembly never faults, and what
it answers with is the upper triangle of

    [ P   Aᵀ ]
    [ ·   0  ]

with a stored entry everywhere on the diagonal, nothing more and nothing less (`Kkt.Exact`,
`Kkt.assemble_exact`). The single entries are told through the lookup of the library
(`Assembled.entry?_primal` and what follows it), the places of the data through the positions of
the matrix. That every position belongs to exactly one datum, or is a zero put where `P` lacks its
diagonal, is the permutation of the places read off in the order in which the entries were put
(`Assembled.perm_places`).
-/

namespace Quasidefinite

variable {α : Type} [Scalar α]

/-- Position `q` of the matrix is one of column `j`, and holds `v` in row `i`. -/
def Sparse.HoldsAt (M : Sparse α) (q i j : Nat) (v : α) : Prop :=
  q ∈ M.positions j ∧ M.row q = i ∧ M.val q = v

namespace Kkt

/-- `K` is the upper triangle of the whole system for `P` and `A`, entry for entry, with the place
    of every datum. -/
structure Exact (P A : Sparse α) (K : Kkt α) : Prop where
  rows_eq : K.matrix.rows = A.rows + A.cols
  cols_eq : K.matrix.cols = A.rows + A.cols
  checkFormat_eq : K.matrix.checkFormat.run = .ok (.ok ())
  isUpper_eq : K.matrix.isUpper = .ok true
  storedCount_eq : K.matrix.storedCount =
    .ok (P.rowIndex.size + (lacking P).length + A.rowIndex.size + A.rows)
  entry_primal : ∀ i < A.cols, ∀ j < A.cols, K.matrix.entry? i j =
    if i = j ∧ j ∈ lacking P then .ok (some 0) else P.entry? i j
  entry_cross : ∀ j < A.cols, ∀ i < A.rows, K.matrix.entry? j (A.cols + i) = A.entry? i j
  entry_below : ∀ i < A.rows, ∀ j < A.cols, K.matrix.entry? (A.cols + i) j = .ok none
  entry_dual : ∀ i < A.rows, ∀ k < A.rows, K.matrix.entry? (A.cols + i) (A.cols + k) =
    .ok (if i = k then some 0 else none)
  size_diagonal : K.places.diagonal.size = A.rows + A.cols
  last : ∀ j < A.rows + A.cols, K.places.diagonal.getD j 0 ∈ K.matrix.positions j ∧
    K.matrix.row (K.places.diagonal.getD j 0) = j ∧
    K.places.diagonal.getD j 0 + 1 = K.matrix.start (j + 1)
  primal_eq : K.places.primal = K.places.diagonal.extract 0 A.cols
  dual_eq : K.places.dual = K.places.diagonal.extract A.cols (A.rows + A.cols)
  size_quadratic : K.places.quadratic.size = P.rowIndex.size
  quadratic_eq : ∀ j < A.cols, ∀ p ∈ P.positions j,
    K.matrix.HoldsAt (K.places.quadratic.getD p 0) (P.row p) j (P.val p)
  size_constraint : K.places.constraint.size = A.rowIndex.size
  constraint_eq : ∀ j < A.cols, ∀ p ∈ A.positions j,
    K.matrix.HoldsAt (K.places.constraint.getD p 0) j (A.cols + A.row p) (A.val p)
  perm_places : (K.places.quadratic.toList ++ K.places.constraint.toList ++
      K.places.dual.toList ++ (lacking P).map fun j => K.places.diagonal.getD j 0).Perm
    (List.range K.matrix.rowIndex.size)

namespace Assembled

variable {P A : Sparse α} (h : Blocks P A) {f : α → α} {d : Nat → α} {K : Kkt α}
  (hK : Assembled P A f d K)

/-! ## 1. Places -/

include hK

theorem size_rowIndex : K.matrix.rowIndex.size =
    P.rowIndex.size + (lacking P).length + A.rowIndex.size + A.rows := by
  rw [hK.layout.size_rowIndex]
  simp [regularizedTriplets, triplets]
  omega

/-- The place of an entry lies in its column. -/
theorem holdsAt_placeIn {t : Nat} {x : Triplet α} (hx : (triplets P A)[t]? = some x) :
    K.matrix.HoldsAt (placeIn ((triplets P A).map Triplet.col) t) x.row x.col
      (regularized A.cols f d x) := by
  obtain ⟨hlt, hrow, hcol, hval⟩ := hK.at_placeIn hx
  exact ⟨hcol ▸ hK.layout.shaped.mem_positions_colOf hlt, hrow, hval⟩

include h

/-- The diagonal places of columns without a diagonal entry in `P` are those of the zeros put. -/
theorem diagonal_lacking {q : Nat} (hq : q < (lacking P).length) :
    K.places.diagonal.getD (lacking P)[q] 0 =
      placeIn ((triplets P A).map Triplet.col) (P.rowIndex.size + q) := by
  obtain ⟨hlt, hrow, hcol, -⟩ := hK.at_placeIn (getElem?_lacking P A hq)
  have hj := (mem_lacking.1 (List.getElem_mem hq)).1
  rw [h.cols_eq] at hj
  obtain ⟨hlt', hrow', hcol'⟩ := at_diagonal h hK (j := (lacking P)[q]) (by omega)
  exact eq_of_position h hK hlt' hlt (hrow'.trans hrow.symm) (hcol'.trans hcol.symm)

/-- The dual places are those on the diagonal of the right half. -/
theorem dual_eq_extract : K.places.dual = K.places.diagonal.extract A.cols (A.rows + A.cols) := by
  refine ext_getD 0 (by rw [hK.size_dual]; simp [hK.size_diagonal]) fun i hi => ?_
  rw [hK.size_dual] at hi
  obtain ⟨hlt, hrow, hcol, -⟩ := hK.at_placeIn (getElem?_dual P A hi)
  obtain ⟨hlt', hrow', hcol'⟩ := at_diagonal h hK (j := A.cols + i) (by omega)
  rw [getD_extract_add _ _ (by omega), hK.dual_eq i hi]
  exact eq_of_position h hK hlt hlt' (hrow.trans hrow'.symm) (hcol.trans hcol'.symm)

/-- **The places are all positions, each taken once.** -/
theorem perm_places : (K.places.quadratic.toList ++ K.places.constraint.toList ++
      K.places.dual.toList ++ (lacking P).map fun j => K.places.diagonal.getD j 0).Perm
    (List.range K.matrix.rowIndex.size) := by
  generalize hplace : placeIn ((triplets P A).map Triplet.col) = place
  have hquadratic : K.places.quadratic.toList = (List.range P.rowIndex.size).map place := by
    rw [toList_eq_map _ 0, hK.size_quadratic]
    exact List.map_congr_left fun p hp => by rw [hK.quadratic_eq p (List.mem_range.1 hp), hplace]
  have hlacking : ((lacking P).map fun j => K.places.diagonal.getD j 0) =
      (List.range (lacking P).length).map fun q => place (P.rowIndex.size + q) := by
    refine List.ext_getElem (by simp) fun q hq _ => ?_
    rw [List.length_map] at hq
    rw [List.getElem_map, List.getElem_map, List.getElem_range, diagonal_lacking h hK hq, hplace]
  have hconstraint : K.places.constraint.toList = (List.range A.rowIndex.size).map fun p =>
      place (P.rowIndex.size + (lacking P).length + p) := by
    rw [toList_eq_map _ 0, hK.size_constraint]
    exact List.map_congr_left fun p hp => by rw [hK.constraint_eq p (List.mem_range.1 hp), hplace]
  have hdual : K.places.dual.toList = (List.range A.rows).map fun i =>
      place (P.rowIndex.size + (lacking P).length + A.rowIndex.size + i) := by
    rw [toList_eq_map _ 0, hK.size_dual]
    exact List.map_congr_left fun i hi => by rw [hK.dual_eq i (List.mem_range.1 hi), hplace]
  -- in the order in which the entries were put, the zeros come before the constraints
  have hall := perm_placeIn ((triplets P A).map Triplet.col)
  have hlength : ((triplets P A).map Triplet.col).length = K.matrix.rowIndex.size := by
    rw [hK.layout.size_rowIndex]
    simp [regularizedTriplets]
  rw [hlength, hplace, size_rowIndex hK, List.range_add, List.range_add, List.range_add] at hall
  simp only [List.map_append, List.map_map, Function.comp_def] at hall
  rw [← hquadratic, ← hlacking, ← hconstraint, ← hdual] at hall
  rw [size_rowIndex hK, List.range_add, List.range_add, List.range_add]
  refine List.Perm.trans ?_ hall
  simp only [List.append_assoc]
  refine List.Perm.append_left _ ?_
  rw [← List.append_assoc]
  exact List.perm_append_comm

end Assembled

/-! ## 2. Single entries -/

namespace Assembled

variable {P A : Sparse α} (h : Blocks P A) {K : Kkt α}
  (hK : Assembled P A (fun v => v) (fun _ => 0) K) (hzero : Scalar.isFinite (0 : α) = true)

include h hK

include hzero in
/-- Before it is regularized the whole system is well formed. -/
theorem wellFormed_id : K.matrix.WellFormed := by
  refine wellFormed h hK fun i j hij hj => ?_
  by_cases hleft : j < A.cols
  · rw [stored_primal h hK hleft, ite_self]
    exact h.quadratic.isFinite_stored hzero (h.cols_eq.symm ▸ hleft)
  · obtain ⟨l, rfl⟩ := Nat.exists_eq_add_of_le (Nat.le_of_not_lt hleft)
    by_cases hi : i < A.cols
    · rw [stored_cross h hK hi (by omega)]
      exact h.constraint.isFinite_stored hzero hi
    · obtain ⟨k, rfl⟩ := Nat.exists_eq_add_of_le (Nat.le_of_not_lt hi)
      rw [stored_dual h hK (by omega), ite_self]
      exact hzero

variable (hformed : K.matrix.WellFormed)

include hformed

omit h in
/-- A lookup inside the whole system finds what the column holds. -/
theorem entry?_eq {i j : Nat} (hi : i < A.rows + A.cols) (hj : j < A.rows + A.cols) :
    K.matrix.entry? i j = .ok ((K.matrix.entries j).lookup i) :=
  hformed.entry?_eq (hK.layout.rows_eq.symm ▸ hi) (hK.layout.cols_eq.symm ▸ hj)

theorem entry?_primal {i j : Nat} (hi : i < A.cols) (hj : j < A.cols) : K.matrix.entry? i j =
    if i = j ∧ j ∈ lacking P then .ok (some 0) else P.entry? i j := by
  have hjP : j < P.cols := h.cols_eq.symm ▸ hj
  rw [entry?_eq hK hformed (by omega) (by omega), lookup_primal h hK hj,
    h.quadratic.entry?_eq (h.rows_eq.symm ▸ hi) hjP]
  by_cases hij : i = j
  · subst hij
    by_cases hmem : i ∈ P.rowsOf i
    · obtain ⟨p, hp, hrow⟩ := List.mem_map.1 hmem
      have hlookup := Sparse.lookup_entries h.quadratic.distinct hjP hp
      have hstored := Sparse.stored_row h.quadratic.distinct hjP hp
      rw [hrow] at hlookup hstored
      rw [if_pos rfl, if_neg fun hlacks => (mem_lacking.1 hlacks.2).2 hmem, hlookup, hstored]
    · rw [if_pos rfl, if_pos ⟨rfl, mem_lacking.2 ⟨hjP, hmem⟩⟩, Sparse.stored_of_not_mem hmem]
  · rw [if_neg hij, if_neg fun hboth => hij hboth.1]

theorem entry?_cross {i j : Nat} (hj : j < A.cols) (hi : i < A.rows) :
    K.matrix.entry? j (A.cols + i) = A.entry? i j := by
  rw [entry?_eq hK hformed (by omega) (by omega), lookup_cross h hK hj hi,
    h.constraint.entry?_eq hi hj]

theorem entry?_below {i j : Nat} (hi : i < A.rows) (hj : j < A.cols) :
    K.matrix.entry? (A.cols + i) j = .ok none := by
  have hjP : j < P.cols := h.cols_eq.symm ▸ hj
  rw [entry?_eq hK hformed (by omega) (by omega), lookup_primal h hK hj, if_neg (by omega),
    Sparse.lookup_entries_of_not_mem fun hmem => ?_]
  have := h.upper.le_of_mem_rowsOf hjP hmem
  omega

theorem entry?_dual {i k : Nat} (hi : i < A.rows) (hk : k < A.rows) :
    K.matrix.entry? (A.cols + i) (A.cols + k) = .ok (if i = k then some 0 else none) := by
  rw [entry?_eq hK hformed (by omega) (by omega), lookup_dual h hK hk]

end Assembled

/-! ## 3. The whole system -/

/-- **Assembly is exact.** -/
theorem assemble_exact {P A : Sparse α} (hzero : Scalar.isFinite (0 : α) = true)
    (hP : P.checkFormat.run = .ok (.ok ())) (hupper : P.Upper) (hrows : P.rows = A.cols)
    (hcols : P.cols = A.cols) (hA : A.checkFormat.run = .ok (.ok ())) :
    ∃ K, assemble P A = .ok K ∧ Exact P A K := by
  have h : Blocks P A :=
    { quadratic := Sparse.wellFormed_of_checkFormat hP
      upper := hupper
      rows_eq := hrows
      cols_eq := hcols
      constraint := Sparse.wellFormed_of_checkFormat hA }
  obtain ⟨K, hassemble, hK⟩ := h.exists_assemble
  have hformed := hK.wellFormed_id h hzero
  refine ⟨K, hassemble, ?_⟩
  exact
    { rows_eq := hK.layout.rows_eq
      cols_eq := hK.layout.cols_eq
      checkFormat_eq := hformed.checkFormat_eq
      isUpper_eq := hformed.isUpper_of_upper (hK.triangle h).upper
      storedCount_eq := by rw [hformed.storedCount_eq, hK.size_rowIndex]
      entry_primal := fun i hi j hj => hK.entry?_primal h hformed hi hj
      entry_cross := fun j hj i hi => hK.entry?_cross h hformed hj hi
      entry_below := fun i hi j hj => hK.entry?_below h hformed hi hj
      entry_dual := fun i hi k hk => hK.entry?_dual h hformed hi hk
      size_diagonal := hK.size_diagonal
      last := fun j hj => by
        obtain ⟨hlt, hrow⟩ := hK.last_place h hj
        rw [hK.diagonal_eq j hj, Sparse.mem_positions]
        exact ⟨⟨by omega, by omega⟩, hrow, by omega⟩
      primal_eq := hK.primal_eq
      dual_eq := hK.dual_eq_extract h
      size_quadratic := hK.size_quadratic
      quadratic_eq := fun j hj p hp => by
        have hjP : j < P.cols := hcols.symm ▸ hj
        have hp' := h.quadratic.lt_size_of_mem hjP hp
        have hat := hK.holdsAt_placeIn (getElem?_quadratic P A hp')
        rw [hK.quadratic_eq p hp']
        simpa [regularized, h.quadratic.colOf_eq hjP hp, hj] using hat
      size_constraint := hK.size_constraint
      constraint_eq := fun j hj p hp => by
        have hp' := h.constraint.lt_size_of_mem hj hp
        have hat := hK.holdsAt_placeIn (getElem?_constraint P A hp')
        rw [hK.constraint_eq p hp', Nat.add_comm A.cols]
        have hne : j ≠ A.row p + A.cols := by omega
        simpa [regularized, h.constraint.colOf_eq hj hp, hne] using hat
      perm_places := hK.perm_places h }

open scoped Scalar

/-- A quadratic term on three variables, the first two of which it does not know. -/
def lastOnly : Sparse ℚ where
  rows := 3
  cols := 3
  colStart := #[0, 0, 0, 3]
  rowIndex := #[0, 1, 2]
  value := #[4, 5, 6]

/-- One constraint that does not know the last of three variables. -/
def firstOnly : Sparse ℚ where
  rows := 1
  cols := 3
  colStart := #[0, 1, 2, 2]
  rowIndex := #[0, 0]
  value := #[1, 1]

theorem assemble_exact_lastOnly : ∃ K, assemble lastOnly firstOnly = .ok K ∧
    Exact lastOnly firstOnly K ∧ K.matrix.colStart = #[0, 1, 2, 5, 8] ∧
    K.matrix.rowIndex = #[0, 1, 0, 1, 2, 0, 1, 3] ∧ K.matrix.value = #[0, 0, 4, 5, 6, 1, 1, 0] := by
  obtain ⟨K, hK, hexact⟩ := assemble_exact (P := lastOnly) (A := firstOnly) (by decide +kernel)
    (by decide +kernel) (by decide +kernel) rfl rfl (by decide +kernel)
  have hfields : (assemble lastOnly firstOnly).map (fun K =>
      (K.matrix.colStart, K.matrix.rowIndex, K.matrix.value)) =
        .ok (#[0, 1, 2, 5, 8], #[0, 1, 0, 1, 2, 0, 1, 3], #[0, 0, 4, 5, 6, 1, 1, 0]) := by
    decide +kernel
  rw [hK] at hfields
  obtain ⟨hstart, hrest⟩ := Prod.mk.inj (Except.ok.inj hfields)
  obtain ⟨hrows, hvalues⟩ := Prod.mk.inj hrest
  exact ⟨K, hK, hexact, hstart, hrows, hvalues⟩

end Kkt

end Quasidefinite
