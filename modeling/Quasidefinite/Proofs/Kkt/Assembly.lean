import Quasidefinite.Proofs.Factor.Factorization
import Quasidefinite.Proofs.Kkt.Triplets

/-!
# What assembly builds

Assembly answers with the layout of the entries of the whole system, and knows the places of the
data in it (`Kkt.Assembled`). The two regularizers then change the values on the diagonal and
nothing else: `addPrimal` those of the left half (`Assembled.exists_addPrimal`), `setDual` those of
the right half, whatever stood there (`Assembled.exists_setDual`). What is assembled depends on the
data and the regularizers alone (`Assembled.unique`).
-/

namespace Quasidefinite

theorem getD_singleton_append (x : Nat) (xs : Array Nat) (j : Nat) :
    (#[x] ++ xs).getD (j + 1) 0 = xs.getD j 0 := by
  simp [Array.getD_eq_getD_getElem?, Array.getElem?_append]

namespace Kkt

variable {α : Type} [Scalar α]

/-! ## 1. Filling -/

/-- The entries `done`, out of `ts`, have been put. -/
def Filling.Done (n : Nat) (ts done : List (Triplet α)) (f : Filling α) : Prop :=
  Filled n ts done f.rowIndex f.value f.next

section Fill

variable {n : Nat} {ts done todo : List (Triplet α)} {f : Filling α}

theorem Filling.Done.exists_put (h : f.Done n ts done) {t : Triplet α}
    (hsplit : ts = done ++ t :: todo) (ht : t.col < n) :
    ∃ g, f.put t.row t.col t.val = .ok (g, placeIn (ts.map Triplet.col) done.length) ∧
      g.Done n ts (done ++ [t]) := by
  obtain ⟨hr, hv, hn, hnext, hfilled⟩ := Filled.exists_store h hsplit ht
  refine ⟨⟨_, _, _⟩, ?_, hfilled⟩
  unfold Filling.put
  rw [Checked.entry_eq _ _ 0 hn, Checked.ok_bind, hnext, Checked.store_of_lt _ _ _ hr,
    Checked.ok_bind, Checked.store_of_lt _ _ _ hv, Checked.ok_bind, Checked.store_of_lt _ _ _ hn,
    Checked.ok_bind]
  rfl

/-- The first `p` entries of `block` have been put after `done`, and their places kept. -/
structure Filling.Placed (n : Nat) (ts done block : List (Triplet α)) (p : Nat)
    (s : Filling α × Array Nat) : Prop where
  filled : s.1.Done n ts (done ++ block.take p)
  size_places : s.2.size = block.length
  place_eq : ∀ q < p, s.2.getD q 0 = placeIn (ts.map Triplet.col) (done.length + q)

/-- The next entry of a block is put, and its place kept. -/
theorem Filling.Placed.exists_put {block : List (Triplet α)} {p : Nat} {places : Array Nat}
    (h : Filling.Placed n ts done block p (f, places)) (hsplit : ts = done ++ block ++ todo)
    (hcol : ∀ t ∈ ts, t.col < n) (hp : p < block.length) :
    ∃ g place places', f.put block[p].row block[p].col block[p].val = .ok (g, place) ∧
      Checked.store places p place = .ok places' ∧
      Filling.Placed n ts done block (p + 1) (g, places') := by
  have hnext : ts = (done ++ block.take p) ++ block[p] :: (block.drop (p + 1) ++ todo) := by
    rw [hsplit]
    nth_rewrite 1 [← List.take_append_drop p block]
    rw [List.drop_eq_getElem_cons hp]
    simp only [List.append_assoc, List.cons_append]
  have hmem : block[p] ∈ ts := by
    rw [hnext]
    simp
  obtain ⟨g, hput, hdone⟩ := h.filled.exists_put hnext (hcol _ hmem)
  rw [List.length_append, List.length_take, Nat.min_eq_left (Nat.le_of_lt hp)] at hput
  rw [List.append_assoc, ← List.take_succ_eq_append_getElem hp] at hdone
  have hstore : p < places.size := h.size_places.symm ▸ hp
  refine ⟨g, _, _, hput, Checked.store_of_lt _ _ _ hstore, hdone, ?_, fun q hq => ?_⟩
  · exact (Array.size_set hstore).trans h.size_places
  · show (places.set p _ hstore).getD q 0 = _
    rw [getD_set]
    by_cases hqp : q = p
    · rw [if_pos hqp, hqp]
    · rw [if_neg hqp]
      exact h.place_eq q (by omega)

/-- The entries of a block are put, and their places kept. -/
theorem Filling.Done.exists_fillBlock (h : f.Done n ts done) {M : Sparse α} (hM : M.Shaped)
    (target : Nat → Nat → Nat × Nat) (hsplit : ts = done ++ blockTriplets M target ++ todo)
    (hcol : ∀ t ∈ ts, t.col < n) (places : Array Nat) (hsize : places.size = M.rowIndex.size) :
    ∃ g places', fillBlock M target f places = .ok (g, places') ∧
      g.Done n ts (done ++ blockTriplets M target) ∧ places'.size = M.rowIndex.size ∧
      ∀ p < M.rowIndex.size,
        places'.getD p 0 = placeIn (ts.map Triplet.col) (done.length + p) := by
  have hlength : (blockTriplets M target).length = M.rowIndex.size := length_blockTriplets M target
  obtain ⟨⟨g, places'⟩, hrun, hdone, hsize', hplace⟩ := hM.exists_foldColumns
    (Filling.Placed n ts done (blockTriplets M target))
    (fun j (s : Filling α × Array Nat) p row => do
      let r ← s.1.put (target row j).1 (target row j).2 (← Checked.entry M.value p)
      pure (r.1, ← Checked.store s.2 p r.2))
    (f, places)
    ⟨by simpa using h, hsize.trans hlength.symm, fun q hq => absurd hq (Nat.not_lt_zero q)⟩
    (by
      rintro j p ⟨f, places⟩ hj hp hplaced
      have hpM := hM.lt_size_of_mem hj hp
      have hlt : p < (blockTriplets M target).length := hlength.symm ▸ hpM
      obtain ⟨g, place, places', hput, hstore, hplaced'⟩ := hplaced.exists_put hsplit hcol hlt
      rw [getElem_blockTriplets M target hlt, hM.colOf_eq hj hp] at hput
      refine ⟨(g, places'), ?_, hplaced'⟩
      dsimp only at hput ⊢
      rw [hM.entry_value hpM, Checked.ok_bind, hput, Checked.ok_bind]
      dsimp only
      rw [hstore]
      rfl)
  rw [List.take_of_length_le (Nat.le_of_eq hlength)] at hdone
  exact ⟨g, places', hrun, hdone, hsize'.trans hlength, hplace⟩

/-- The zeros on the diagonal of the lacking columns are put. -/
theorem Filling.Done.exists_fillLacking (h : f.Done n ts done) {P : Sparse α} (hP : P.WellFormed)
    (hupper : P.Upper) (hsplit : ts = done ++ zeroTriplets (lacking P) ++ todo)
    (hcol : ∀ t ∈ ts, t.col < n) :
    ∃ g, Checked.foldRange 0 P.cols (fillLacking P) f = .ok g ∧
      g.Done n ts (done ++ zeroTriplets (lacking P)) := by
  obtain ⟨g, hrun, hdone⟩ := Checked.exists_foldlM
    (fun (cols : List Nat) (f : Filling α) => f.Done n ts (done ++ zeroTriplets cols))
    (fun (f : Filling α) j => do
      let r ← f.put j j 0
      pure r.1)
    (lacking P) f (by simpa [zeroTriplets] using h)
    (by
      intro before j after f hlacking hdone
      have hsplit' : ts = (done ++ zeroTriplets before) ++
          ⟨j, j, 0⟩ :: (zeroTriplets after ++ todo) := by
        rw [hsplit, hlacking]
        simp [zeroTriplets]
      obtain ⟨g, hput, hdone'⟩ := hdone.exists_put hsplit' (hcol ⟨j, j, 0⟩ (by rw [hsplit']; simp))
      refine ⟨g, ?_, ?_⟩
      · rw [hput]
        rfl
      · simpa [zeroTriplets] using hdone')
  refine ⟨g, ?_, hdone⟩
  rw [← hrun, ← foldRange_lacking hP hupper]
  rfl

/-- The diagonal of the bottom right block is put, and its places kept. -/
theorem Filling.Done.exists_fillDual (h : f.Done n ts done) (first count : Nat)
    (hsplit : ts = done ++ zeroTriplets (List.range' first count)) (hcol : ∀ t ∈ ts, t.col < n)
    (places : Array Nat) (hsize : places.size = count) :
    ∃ g places', Checked.foldRange 0 count (fillDual first) (f, places) = .ok (g, places') ∧
      g.Done n ts ts ∧ places'.size = count ∧
      ∀ i < count, places'.getD i 0 = placeIn (ts.map Triplet.col) (done.length + i) := by
  have hlength : (zeroTriplets (List.range' first count) : List (Triplet α)).length = count := by
    rw [length_zeroTriplets, List.length_range']
  obtain ⟨⟨g, places'⟩, hrun, hdone, hsize', hplace⟩ := Checked.exists_foldRange
    (Filling.Placed n ts done (zeroTriplets (List.range' first count)))
    (fillDual first) 0 count (f, places) (Nat.zero_le _)
    ⟨by simpa using h, hsize.trans hlength.symm, fun q hq => absurd hq (Nat.not_lt_zero q)⟩
    (by
      rintro i ⟨f, places⟩ - hi hplaced
      have hlt : i < (zeroTriplets (List.range' first count) : List (Triplet α)).length :=
        hlength.symm ▸ hi
      have hget : (zeroTriplets (List.range' first count) : List (Triplet α))[i] =
          ⟨first + i, first + i, 0⟩ := by
        simp [zeroTriplets]
      have hsplit' : ts = done ++ zeroTriplets (List.range' first count) ++ [] := by
        rw [List.append_nil, hsplit]
      obtain ⟨g, place, places', hput, hstore, hplaced'⟩ := hplaced.exists_put hsplit' hcol hlt
      rw [hget] at hput
      refine ⟨(g, places'), ?_, hplaced'⟩
      unfold fillDual
      dsimp only at hput ⊢
      rw [hput, Checked.ok_bind]
      dsimp only
      rw [hstore]
      rfl)
  rw [List.take_of_length_le (Nat.le_of_eq hlength), ← hsplit] at hdone
  exact ⟨g, places', hrun, hdone, hsize'.trans hlength, hplace⟩

end Fill

/-! ## 2. What is assembled -/

/-- The value of an entry once the diagonal is regularized: changed by `f` in the left half, `d` in
    the right half. -/
def regularized (n : Nat) (f : α → α) (d : Nat → α) (t : Triplet α) : α :=
  if t.row = t.col then if t.col < n then f t.val else d (t.col - n) else t.val

/-- The entries of the whole system once the diagonal is regularized. -/
def regularizedTriplets (P A : Sparse α) (f : α → α) (d : Nat → α) : List (Triplet α) :=
  (triplets P A).map fun t => { t with val := regularized A.cols f d t }

/-- The matrix holds the regularized entries, and the places are those of the data. -/
structure Assembled (P A : Sparse α) (f : α → α) (d : Nat → α) (K : Kkt α) : Prop where
  layout : Sparse.LayoutOf (A.rows + A.cols) (regularizedTriplets P A f d) K.matrix
  size_quadratic : K.places.quadratic.size = P.rowIndex.size
  quadratic_eq : ∀ p < P.rowIndex.size,
    K.places.quadratic.getD p 0 = placeIn ((triplets P A).map Triplet.col) p
  size_constraint : K.places.constraint.size = A.rowIndex.size
  constraint_eq : ∀ p < A.rowIndex.size, K.places.constraint.getD p 0 =
    placeIn ((triplets P A).map Triplet.col) (P.rowIndex.size + (lacking P).length + p)
  size_dual : K.places.dual.size = A.rows
  dual_eq : ∀ i < A.rows, K.places.dual.getD i 0 =
    placeIn ((triplets P A).map Triplet.col)
      (P.rowIndex.size + (lacking P).length + A.rowIndex.size + i)
  size_diagonal : K.places.diagonal.size = A.rows + A.cols
  diagonal_eq : ∀ j < A.rows + A.cols, K.places.diagonal.getD j 0 = K.matrix.start (j + 1) - 1
  primal_eq : K.places.primal = K.places.diagonal.extract 0 A.cols

theorem map_col_regularizedTriplets (P A : Sparse α) (f : α → α) (d : Nat → α) :
    (regularizedTriplets P A f d).map Triplet.col = (triplets P A).map Triplet.col := by
  simp [regularizedTriplets]

variable {P A : Sparse α} (h : Blocks P A)

include h

/-- Every column holds an entry. -/
theorem Blocks.count_pos {j : Nat} (hj : j < A.rows + A.cols) :
    0 < ((triplets P A).map Triplet.col).count j := by
  rw [← Triplet.length_column]
  by_cases hleft : j < A.cols
  · rw [h.column_left hleft, List.length_append]
    by_cases hmem : j ∈ P.rowsOf j
    · have := List.length_pos_of_mem hmem
      unfold Sparse.rowsOf at this
      rw [List.length_map] at this
      unfold Sparse.entries
      rw [List.length_map]
      omega
    · rw [if_pos hmem, List.length_singleton]
      omega
  · rw [show j = A.cols + (j - A.cols) by omega, h.column_right (by omega), List.length_append,
      List.length_singleton]
    omega

theorem Blocks.val_eq_zero {t : Triplet α} (ht : t ∈ triplets P A) (hdiag : t.row = t.col)
    (hright : A.cols ≤ t.col) : t.val = 0 := by
  simp only [triplets, List.mem_append] at ht
  rcases ht with ((ht | ht) | ht) | ht
  · obtain ⟨p, hp, rfl⟩ := List.mem_map.1 ht
    exact absurd (h.colOf_lt (List.mem_range.1 hp)) (Nat.not_lt.2 hright)
  · obtain ⟨j, hj, rfl⟩ := List.mem_map.1 ht
    rfl
  · obtain ⟨p, hp, rfl⟩ := List.mem_map.1 ht
    have := h.constraint.colOf_lt (List.mem_range.1 hp)
    dsimp only at hdiag hright
    omega
  · obtain ⟨j, hj, rfl⟩ := List.mem_map.1 ht
    rfl

/-- Before regularization the diagonal of the right half is zero. -/
theorem Blocks.regularizedTriplets_id :
    regularizedTriplets P A (fun v => v) (fun _ => 0) = triplets P A := by
  refine (List.map_congr_left fun t ht => ?_).trans (List.map_id _)
  have hval : regularized A.cols (fun v => v) (fun _ => 0) t = t.val := by
    unfold regularized
    by_cases hdiag : t.row = t.col
    · by_cases hleft : t.col < A.cols
      · rw [if_pos hdiag, if_pos hleft]
      · rw [if_pos hdiag, if_neg hleft, h.val_eq_zero ht hdiag (Nat.le_of_not_lt hleft)]
    · rw [if_neg hdiag]
  rw [hval]
  rfl

omit h in
/-- The next free places before anything is put. -/
theorem done_start {counts : Array Nat} (hsize : counts.size = A.rows + A.cols + 1)
    (hcount : ∀ j, counts.getD j 0 = ((triplets P A).map Triplet.col).count j) :
    Filling.Done (A.rows + A.cols) (triplets P A) []
      { rowIndex := Array.replicate (triplets P A).length 0
        value := Array.replicate (triplets P A).length 0
        next := (Sparse.startsOfLengths 0 counts.toList).toArray.extract 0
          (A.rows + A.cols + 1) } :=
  filled_start (by simp) (by simp) hcount (Nat.le_succ _) (by omega)

section Ends

variable {g : Filling α} (hdone : g.Done (A.rows + A.cols) (triplets P A) (triplets P A))

include hdone

omit h in
theorem size_ends : (g.next.extract 0 (A.rows + A.cols)).size = A.rows + A.cols := by
  have := hdone.size_next
  simp
  omega

omit h in
/-- Once all entries are put, every column ends where the next one begins. -/
theorem getD_ends {j : Nat} (hj : j < A.rows + A.cols) :
    (g.next.extract 0 (A.rows + A.cols)).getD j 0 =
      startIn ((triplets P A).map Triplet.col) (j + 1) := by
  rw [getD_extract _ _ hj, hdone.next_eq j hj, Triplet.length_column, startIn_succ]

omit h in
theorem getD_colStart {j : Nat} (hj : j ≤ A.rows + A.cols) :
    (#[0] ++ g.next.extract 0 (A.rows + A.cols)).getD j 0 =
      startIn ((triplets P A).map Triplet.col) j := by
  cases j with
  | zero => simp [Array.getD_eq_getD_getElem?, startIn_zero]
  | succ j => rw [getD_singleton_append, getD_ends hdone hj]

theorem Blocks.mapM_ends : (g.next.extract 0 (A.rows + A.cols)).toList.mapM
    (fun last => Checked.difference last 1) =
      .ok ((g.next.extract 0 (A.rows + A.cols)).toList.map (· - 1)) := by
  refine mapM_eq_pure fun x hx => ?_
  obtain ⟨j, hj, rfl⟩ := List.mem_iff_getElem.1 hx
  rw [Array.length_toList] at hj
  have hlt := hj.trans_eq (size_ends hdone)
  have hend := getD_ends hdone hlt
  rw [getD_of_lt _ _ _ hj, startIn_succ] at hend
  have := h.count_pos hlt
  rw [Array.getElem_toList, Checked.difference, if_pos (by omega)]
  rfl

end Ends

/-- **Assembly answers with what is to be assembled.** -/
theorem Blocks.exists_assemble :
    ∃ K, assemble P A = .ok K ∧ Assembled P A (fun v => v) (fun _ => 0) K := by
  obtain ⟨counts, hcounts, hsize, hcount⟩ := h.exists_columnCounts
  have hcol : ∀ t ∈ triplets P A, t.col < A.rows + A.cols := fun t ht => (h.inside t ht).2
  obtain ⟨f₁, quadratic, hrun₁, hdone₁, hquadratic, hquadratic'⟩ :=
    (done_start hsize hcount).exists_fillBlock h.quadratic.toShaped
      (fun row col => (row, col)) (by simp only [triplets, List.append_assoc]; rfl) hcol
      (Array.replicate P.rowIndex.size 0) (by simp)
  obtain ⟨f₂, hrun₂, hdone₂⟩ := hdone₁.exists_fillLacking h.quadratic h.upper
    (by simp only [triplets, List.append_assoc]; rfl) hcol
  obtain ⟨f₃, constraint, hrun₃, hdone₃, hconstraint, hconstraint'⟩ :=
    hdone₂.exists_fillBlock h.constraint.toShaped (fun row col => (col, row + A.cols))
      (by simp only [triplets, List.append_assoc]; rfl) hcol
      (Array.replicate A.rowIndex.size 0) (by simp)
  obtain ⟨f₄, dual, hrun₄, hdone₄, hdual, hdual'⟩ := hdone₃.exists_fillDual
    A.cols A.rows (by simp only [triplets, List.append_assoc]; rfl) hcol
    (Array.replicate A.rows 0) (by simp)
  have hends := size_ends hdone₄
  unfold assemble
  rw [h.quadratic.room_eq, Checked.ok_bind, h.constraint.room_eq, Checked.ok_bind, h.entryCount_eq,
    Checked.ok_bind, hcounts, Checked.ok_bind]
  simp only [Sparse.allocate]
  rw [hrun₁, Checked.ok_bind]
  dsimp only
  rw [hrun₂, Checked.ok_bind, hrun₃, Checked.ok_bind]
  dsimp only
  rw [hrun₄, Checked.ok_bind]
  dsimp only
  rw [h.mapM_ends hdone₄]
  refine ⟨_, rfl, ?_⟩
  exact
    { layout := by
        rw [h.regularizedTriplets_id]
        refine Sparse.layoutOf_of_filled hdone₄ (fun t ht => ?_) rfl rfl ?_
          fun j hj => getD_colStart hdone₄ hj
        · have := h.inside t ht
          omega
        · rw [Array.size_append, hends]
          exact Nat.add_comm 1 _
      size_quadratic := hquadratic
      quadratic_eq := fun p hp => by rw [hquadratic' p hp, List.length_nil, Nat.zero_add]
      size_constraint := hconstraint
      constraint_eq := fun p hp => by rw [hconstraint' p hp]; simp
      size_dual := hdual
      dual_eq := fun i hi => by rw [hdual' i hi]; simp [Nat.add_assoc]
      size_diagonal := by simpa using hends
      diagonal_eq := fun j hj => by
        have hlt : j < (f₄.next.extract 0 (A.rows + A.cols)).size := hends.symm ▸ hj
        show (List.map (· - 1) (f₄.next.extract 0 (A.rows + A.cols)).toList).toArray.getD j 0 =
          (#[0] ++ f₄.next.extract 0 (A.rows + A.cols)).getD (j + 1) 0 - 1
        rw [getD_singleton_append, getD_of_lt _ _ _ hlt, getD_of_lt _ _ _ (by simpa using hlt)]
        simp
      primal_eq := rfl }

/-! ## 3. Places -/

omit h in
theorem getElem?_quadratic (P A : Sparse α) {p : Nat} (hp : p < P.rowIndex.size) :
    (triplets P A)[p]? = some ⟨P.row p, P.colOf p, P.val p⟩ := by
  simp only [triplets, List.append_assoc]
  rw [List.getElem?_append_left (by simpa using hp), List.getElem?_eq_getElem (by simpa using hp),
    getElem_blockTriplets]

omit h in
theorem getElem?_lacking (P A : Sparse α) {q : Nat} (hq : q < (lacking P).length) :
    (triplets P A)[P.rowIndex.size + q]? = some ⟨(lacking P)[q], (lacking P)[q], 0⟩ := by
  unfold triplets
  rw [List.getElem?_append_left (by simp; omega), List.getElem?_append_left (by simp; omega),
    List.getElem?_append_right (by simp), length_blockTriplets, Nat.add_sub_cancel_left]
  simp [zeroTriplets, hq]

omit h in
theorem getElem?_constraint (P A : Sparse α) {p : Nat} (hp : p < A.rowIndex.size) :
    (triplets P A)[P.rowIndex.size + (lacking P).length + p]? =
      some ⟨A.colOf p, A.row p + A.cols, A.val p⟩ := by
  unfold triplets
  rw [List.getElem?_append_left (by simp; omega), List.getElem?_append_right (by simp),
    List.length_append, length_blockTriplets, length_zeroTriplets, Nat.add_sub_cancel_left,
    List.getElem?_eq_getElem (by simpa using hp), getElem_blockTriplets]

omit h in
theorem getElem?_dual (P A : Sparse α) {i : Nat} (hi : i < A.rows) :
    (triplets P A)[P.rowIndex.size + (lacking P).length + A.rowIndex.size + i]? =
      some ⟨A.cols + i, A.cols + i, 0⟩ := by
  have hlength : (blockTriplets P (fun row col => (row, col)) ++ zeroTriplets (lacking P) ++
      blockTriplets A (fun row col => (col, row + A.cols))).length =
      P.rowIndex.size + (lacking P).length + A.rowIndex.size := by simp [Nat.add_assoc]
  unfold triplets
  rw [List.getElem?_append_right (by omega), hlength, Nat.add_sub_cancel_left]
  simp [zeroTriplets, hi]

namespace Assembled

variable {f : α → α} {d : Nat → α} {K : Kkt α} (hK : Assembled P A f d K)

include hK

omit h in
/-- **What is assembled depends on the data and the regularizers alone.** -/
theorem unique {L : Kkt α} (hL : Assembled P A f d L) : K = L := by
  have hmatrix := hK.layout.unique hL.layout
  have hquadratic : K.places.quadratic = L.places.quadratic :=
    ext_getD 0 (hK.size_quadratic.trans hL.size_quadratic.symm) fun p hp => by
      rw [hK.size_quadratic] at hp
      rw [hK.quadratic_eq p hp, hL.quadratic_eq p hp]
  have hconstraint : K.places.constraint = L.places.constraint :=
    ext_getD 0 (hK.size_constraint.trans hL.size_constraint.symm) fun p hp => by
      rw [hK.size_constraint] at hp
      rw [hK.constraint_eq p hp, hL.constraint_eq p hp]
  have hdual : K.places.dual = L.places.dual :=
    ext_getD 0 (hK.size_dual.trans hL.size_dual.symm) fun i hi => by
      rw [hK.size_dual] at hi
      rw [hK.dual_eq i hi, hL.dual_eq i hi]
  have hdiagonal : K.places.diagonal = L.places.diagonal :=
    ext_getD 0 (hK.size_diagonal.trans hL.size_diagonal.symm) fun j hj => by
      rw [hK.size_diagonal] at hj
      rw [hK.diagonal_eq j hj, hL.diagonal_eq j hj, hmatrix]
  have hprimal : K.places.primal = L.places.primal := by
    rw [hK.primal_eq, hL.primal_eq, hdiagonal]
  obtain ⟨M, ⟨_, _, _, _, _⟩⟩ := K
  obtain ⟨N, ⟨_, _, _, _, _⟩⟩ := L
  simp_all

omit h in
/-- What stands at the place of an entry. -/
theorem at_placeIn {t : Nat} {x : Triplet α} (hx : (triplets P A)[t]? = some x) :
    placeIn ((triplets P A).map Triplet.col) t < K.matrix.rowIndex.size ∧
      K.matrix.row (placeIn ((triplets P A).map Triplet.col) t) = x.row ∧
      K.matrix.colOf (placeIn ((triplets P A).map Triplet.col) t) = x.col ∧
      K.matrix.val (placeIn ((triplets P A).map Triplet.col) t) = regularized A.cols f d x := by
  obtain ⟨ht, rfl⟩ := List.getElem?_eq_some_iff.1 hx
  have hlt : t < (regularizedTriplets P A f d).length := by simpa [regularizedTriplets] using ht
  have hplace := Sparse.LayoutOf.placeIn_lt hlt
  have hrow := hK.layout.row_placeIn t hlt
  have hcol := hK.layout.colOf_placeIn hlt
  have hval := hK.layout.val_placeIn t hlt
  rw [map_col_regularizedTriplets] at hplace hrow hcol hval
  simp only [regularizedTriplets, List.getElem_map, List.length_map] at hplace hrow hcol hval
  refine ⟨?_, hrow, hcol, hval⟩
  rw [hK.layout.size_rowIndex]
  simpa [regularizedTriplets] using hplace

theorem distinct : K.matrix.Distinct := by
  refine hK.layout.distinct ?_
  unfold regularizedTriplets
  rw [List.map_map]
  exact h.nodup_positions

theorem triangle : K.matrix.Triangle where
  toShaped := hK.layout.shaped
  square := by rw [hK.layout.rows_eq, hK.layout.cols_eq]
  upper := hK.layout.upper fun t ht => by
    obtain ⟨u, hu, rfl⟩ := List.mem_map.1 ht
    exact (h.inside u hu).1

omit h in
/-- The rows of a column are those of the entries that go there. -/
theorem rowsOf_eq {j : Nat} (hj : j < A.rows + A.cols) :
    K.matrix.rowsOf j = (Triplet.column (triplets P A) j).map Prod.fst := by
  have hentries := congrArg (List.map Prod.fst) (hK.layout.entries_eq hj)
  simpa [Sparse.entries, Sparse.rowsOf, Triplet.column, regularizedTriplets, List.filter_map,
    Function.comp_def] using hentries

/-- The last entry of every column is the diagonal one. -/
theorem last_place {j : Nat} (hj : j < A.rows + A.cols) :
    K.matrix.start j < K.matrix.start (j + 1) ∧
      K.matrix.row (K.matrix.start (j + 1) - 1) = j := by
  have hlast := h.getLast?_column hj
  rw [← hK.rowsOf_eq hj, getLast?_rowsOf] at hlast
  by_cases hlt : K.matrix.start j < K.matrix.start (j + 1)
  · rw [if_pos hlt] at hlast
    exact ⟨hlt, Option.some.inj hlast⟩
  · rw [if_neg hlt] at hlast
    exact absurd hlast (by simp)

theorem fullColumns : Factorization.FullColumns K.matrix := by
  intro j hj
  rw [hK.layout.cols_eq] at hj
  exact Nat.ne_of_lt (last_place h hK hj).1

/-- **The places kept for the diagonal are those of the diagonal entries.** -/
theorem at_diagonal {j : Nat} (hj : j < A.rows + A.cols) :
    K.places.diagonal.getD j 0 < K.matrix.rowIndex.size ∧
      K.matrix.row (K.places.diagonal.getD j 0) = j ∧
      K.matrix.colOf (K.places.diagonal.getD j 0) = j := by
  obtain ⟨hlt, hrow⟩ := last_place h hK hj
  have hshaped := hK.layout.shaped
  have hcols : j < K.matrix.cols := hK.layout.cols_eq.symm ▸ hj
  have hmem : K.matrix.start (j + 1) - 1 ∈ K.matrix.positions j :=
    Sparse.mem_positions.2 ⟨by omega, by omega⟩
  rw [hK.diagonal_eq j hj]
  exact ⟨hshaped.lt_size_of_mem hcols hmem, hrow, hshaped.colOf_eq hcols hmem⟩

/-- Entries at the same position stand at the same place. -/
theorem eq_of_position {p q : Nat} (hp : p < K.matrix.rowIndex.size)
    (hq : q < K.matrix.rowIndex.size) (hrow : K.matrix.row p = K.matrix.row q)
    (hcol : K.matrix.colOf p = K.matrix.colOf q) : p = q :=
  hK.layout.shaped.eq_of_row_eq (distinct h hK) hp hq hrow hcol

/-- The primal places are those of the diagonal entries in the left half. -/
theorem placeIn_mem_primal {t : Nat} {x : Triplet α} (hx : (triplets P A)[t]? = some x) :
    placeIn ((triplets P A).map Triplet.col) t ∈ K.places.primal.toList ↔
      x.row = x.col ∧ x.col < A.cols := by
  obtain ⟨hlt, hrow, hcol, -⟩ := hK.at_placeIn hx
  have hsize : K.places.primal.size = A.cols := by
    rw [hK.primal_eq, Array.size_extract, hK.size_diagonal]
    omega
  have hget : ∀ j < A.cols, K.places.primal.getD j 0 = K.places.diagonal.getD j 0 :=
    fun j hj => by rw [hK.primal_eq, getD_extract _ _ hj]
  constructor
  · intro hmem
    obtain ⟨j, hj, hjt⟩ := List.mem_iff_getElem.1 hmem
    rw [Array.length_toList] at hj
    rw [Array.getElem_toList, ← getD_of_lt _ _ 0 hj, hget j (hsize ▸ hj)] at hjt
    obtain ⟨-, hrow', hcol'⟩ := at_diagonal h hK (j := j) (by omega)
    rw [hjt, hrow] at hrow'
    rw [hjt, hcol] at hcol'
    omega
  · rintro ⟨hdiag, hleft⟩
    obtain ⟨hlt', hrow', hcol'⟩ := at_diagonal h hK (j := x.col) (by omega)
    have heq := eq_of_position h hK hlt' hlt (by rw [hrow', hrow, hdiag]) (by rw [hcol', hcol])
    rw [← heq, ← hget _ hleft, getD_of_lt _ _ _ (hsize ▸ hleft)]
    simp

/-- The dual places are those of the diagonal entries in the right half. -/
theorem placeIn_mem_dual {t : Nat} {x : Triplet α} (hx : (triplets P A)[t]? = some x) {i : Nat}
    (hi : i < A.rows) : placeIn ((triplets P A).map Triplet.col) t = K.places.dual.getD i 0 ↔
      x.row = A.cols + i ∧ x.col = A.cols + i := by
  obtain ⟨hlt, hrow, hcol, -⟩ := hK.at_placeIn hx
  obtain ⟨hlt', hrow', hcol', -⟩ := hK.at_placeIn (getElem?_dual P A hi)
  rw [hK.dual_eq i hi]
  constructor
  · intro heq
    rw [← heq] at hrow' hcol'
    exact ⟨hrow.symm.trans hrow', hcol.symm.trans hcol'⟩
  · rintro ⟨hr, hc⟩
    exact eq_of_position h hK hlt hlt' (by rw [hrow, hrow', hr]) (by rw [hcol, hcol', hc])

/-! ## 4. Regularizers -/

omit h in
theorem size_primal : K.places.primal.size = A.cols := by
  rw [hK.primal_eq, Array.size_extract, hK.size_diagonal]
  omega

theorem at_primal {j : Nat} (hj : j < A.cols) :
    K.places.primal.getD j 0 < K.matrix.rowIndex.size ∧
      K.matrix.colOf (K.places.primal.getD j 0) = j := by
  rw [hK.primal_eq, getD_extract _ _ hj]
  obtain ⟨hlt, -, hcol⟩ := at_diagonal h hK (j := j) (by omega)
  exact ⟨hlt, hcol⟩

omit h in
theorem at_dual {i : Nat} (hi : i < A.rows) :
    K.places.dual.getD i 0 < K.matrix.rowIndex.size ∧
      K.matrix.colOf (K.places.dual.getD i 0) = A.cols + i := by
  rw [hK.dual_eq i hi]
  obtain ⟨hlt, -, hcol, -⟩ := hK.at_placeIn (getElem?_dual P A hi)
  exact ⟨hlt, hcol⟩

theorem nodup_primal : K.places.primal.toList.Nodup := by
  refine List.nodup_iff_injective_getElem.2 fun i j hij => ?_
  have hi := i.isLt.trans_eq (Array.length_toList.trans hK.size_primal)
  have hj := j.isLt.trans_eq (Array.length_toList.trans hK.size_primal)
  simp only [Array.getElem_toList] at hij
  rw [← getD_of_lt _ _ 0, ← getD_of_lt _ _ 0] at hij
  exact Fin.ext ((at_primal h hK hi).2.symm.trans (hij ▸ (at_primal h hK hj).2))

omit h in
theorem nodup_dual : K.places.dual.toList.Nodup := by
  refine List.nodup_iff_injective_getElem.2 fun i j hij => ?_
  have hi := i.isLt.trans_eq (Array.length_toList.trans hK.size_dual)
  have hj := j.isLt.trans_eq (Array.length_toList.trans hK.size_dual)
  simp only [Array.getElem_toList] at hij
  rw [← getD_of_lt _ _ 0, ← getD_of_lt _ _ 0] at hij
  have hcol := (hK.at_dual hi).2.symm.trans (hij ▸ (hK.at_dual hj).2)
  exact Fin.ext (Nat.add_left_cancel hcol)

omit h in
/-- A change of values that agrees with other regularizers. -/
theorem revalue {f' : α → α} {d' : Nat → α} {value : Array α}
    (hsize : value.size = K.matrix.value.size)
    (hvalue : ∀ t x, (triplets P A)[t]? = some x →
      value.getD (placeIn ((triplets P A).map Triplet.col) t) 0 = regularized A.cols f' d' x) :
    Assembled P A f' d' { K with matrix := { K.matrix with value } } where
  layout := by
    refine hK.layout.revalue ?_ ?_ fun t ht => ?_
    · simp [regularizedTriplets]
    · rw [hsize, hK.layout.size_value]
      simp [regularizedTriplets]
    · have hlt : t < (triplets P A).length := by simpa [regularizedTriplets] using ht
      rw [map_col_regularizedTriplets, hvalue t _ (List.getElem?_eq_getElem hlt)]
      simp [regularizedTriplets]
  size_quadratic := hK.size_quadratic
  quadratic_eq := hK.quadratic_eq
  size_constraint := hK.size_constraint
  constraint_eq := hK.constraint_eq
  size_dual := hK.size_dual
  dual_eq := hK.dual_eq
  size_diagonal := hK.size_diagonal
  diagonal_eq := hK.diagonal_eq
  primal_eq := hK.primal_eq

/-- **The primal regularizer is added to the diagonal of the left half.** -/
theorem exists_addPrimal (primal : α) :
    ∃ L, K.addPrimal primal = .ok L ∧ Assembled P A (fun v => f v + primal) d L := by
  have hvalue := hK.layout.shaped.size_value
  obtain ⟨value, hrun, hsize, hget⟩ := Checked.exists_foldlM_adjust 0 K.places.primal.toList
    (· + primal) K.matrix.value (nodup_primal h hK) fun q hq => by
      obtain ⟨j, hj, rfl⟩ := List.mem_iff_getElem.1 hq
      rw [Array.length_toList] at hj
      rw [Array.getElem_toList, ← getD_of_lt _ _ 0 hj, hvalue]
      exact (at_primal h hK (hj.trans_eq hK.size_primal)).1
  refine ⟨_, by rw [addPrimal, hrun]; rfl, hK.revalue hsize fun t x hx => ?_⟩
  obtain ⟨-, -, -, hval⟩ := hK.at_placeIn hx
  rw [hget, if_congr (placeIn_mem_primal h hK hx) rfl rfl]
  unfold Sparse.val at hval
  rw [hval, regularized, regularized]
  by_cases hdiag : x.row = x.col
  · by_cases hleft : x.col < A.cols
    · rw [if_pos ⟨hdiag, hleft⟩, if_pos hdiag, if_pos hleft, if_pos hdiag, if_pos hleft]
    · rw [if_neg fun hmem => hleft hmem.2, if_pos hdiag, if_neg hleft, if_pos hdiag, if_neg hleft]
  · rw [if_neg fun hmem => hdiag hmem.1, if_neg hdiag, if_neg hdiag]

/-- **The dual regularizer replaces the diagonal of the right half.** -/
theorem setDual_eq {values : Array α} (hvalues : values.size = A.rows) :
    K.setDual values = .ok { K with matrix := { K.matrix with
      value := overwrite K.matrix.value (K.places.dual.toList.zip values.toList) } } ∧
    Assembled P A f (fun i => values.getD i 0) { K with matrix := { K.matrix with
      value := overwrite K.matrix.value (K.places.dual.toList.zip values.toList) } } := by
  have hvalue := hK.layout.shaped.size_value
  have hlt : ∀ e ∈ K.places.dual.toList.zip values.toList, e.1 < K.matrix.value.size := by
    intro e he
    obtain ⟨i, hi, hie⟩ := List.mem_iff_getElem.1 (List.of_mem_zip he).1
    rw [Array.length_toList] at hi
    rw [Array.getElem_toList, ← getD_of_lt _ _ 0 hi] at hie
    rw [← hie, hvalue]
    exact (hK.at_dual (hi.trans_eq hK.size_dual)).1
  refine ⟨?_, hK.revalue (size_overwrite _ _) fun t x hx => ?_⟩
  · unfold setDual
    rw [Checked.foldlM_store_eq _ _ hlt]
    rfl
  obtain ⟨-, -, -, hval⟩ := hK.at_placeIn hx
  unfold Sparse.val at hval
  by_cases hright : ∃ i < A.rows, x.row = A.cols + i ∧ x.col = A.cols + i
  · obtain ⟨i, hi, hrow, hcol⟩ := hright
    have hmem : (K.places.dual.getD i 0, values.getD i 0) ∈
        K.places.dual.toList.zip values.toList := by
      refine List.mem_iff_getElem.2 ⟨i, ?_, ?_⟩
      · simp [hK.size_dual, hvalues, hi]
      · simp [List.getElem_zip, hK.size_dual, hvalues, hi]
    have hat := getD_overwrite_of_mem K.matrix.value 0 ?_ hmem (hlt _ hmem)
    · rw [(placeIn_mem_dual h hK hx hi).2 ⟨hrow, hcol⟩, hat, regularized,
        if_pos (hrow.trans hcol.symm), if_neg (by omega), hcol, Nat.add_sub_cancel_left]
    · rw [List.map_fst_zip (by simp [hK.size_dual, hvalues])]
      exact hK.nodup_dual
  · rw [getD_overwrite_of_not_mem _ _ _ fun e he heq => ?_, hval, regularized, regularized]
    · by_cases hdiag : x.row = x.col
      · have hcol := (h.inside x (List.mem_of_getElem? hx)).2
        have hleft : x.col < A.cols := by
          by_contra hge
          exact hright ⟨x.col - A.cols, by omega, by omega, by omega⟩
        rw [if_pos hdiag, if_pos hleft, if_pos hdiag, if_pos hleft]
      · rw [if_neg hdiag, if_neg hdiag]
    · obtain ⟨i, hi, hie⟩ := List.mem_iff_getElem.1 (List.of_mem_zip he).1
      rw [Array.length_toList] at hi
      rw [Array.getElem_toList, ← getD_of_lt _ _ 0 hi, heq] at hie
      have hi := hi.trans_eq hK.size_dual
      exact hright ⟨i, hi, (placeIn_mem_dual h hK hx hi).1 hie.symm⟩

end Assembled

end Kkt

end Quasidefinite
