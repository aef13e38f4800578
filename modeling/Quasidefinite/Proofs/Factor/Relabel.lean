import Quasidefinite.Factor.Relabel
import Quasidefinite.Proofs.Factor.Tree
import Quasidefinite.Proofs.Permutation
import Quasidefinite.Proofs.Sparse.Dense
import Quasidefinite.Proofs.Sparse.Layout

/-!
# What relabelling does

Relabelling sends the entry at position `p` to the place that the counting of the new columns
assigns to it, and keeps its value (`Sparse.RelabelOf`). The places depend on the pattern alone, so
the result is unique (`RelabelOf.unique`), and a change of a value follows its entry
(`RelabelOf.setValue`).
-/

namespace Quasidefinite

namespace Sparse

variable {α : Type}

/-! ## 1. Targets -/

/-- The new row of the entry at position `p`. -/
def newRow (A : Sparse α) (label : Array Nat) (p : Nat) : Nat :=
  min (label.getD (A.row p) 0) (label.getD (A.colOf p) 0)

/-- The new column of the entry at position `p`. -/
def newCol (A : Sparse α) (label : Array Nat) (p : Nat) : Nat :=
  max (label.getD (A.row p) 0) (label.getD (A.colOf p) 0)

/-- The new columns of the entries. -/
def newCols (A : Sparse α) (label : Array Nat) : List Nat :=
  (List.range A.rowIndex.size).map (A.newCol label)

/-- The entries on their way to their new columns. -/
def triplets [Scalar α] (A : Sparse α) (label : Array Nat) : List (Triplet α) :=
  (List.range A.rowIndex.size).map fun p => ⟨A.newRow label p, A.newCol label p, A.val p⟩

theorem map_col_triplets [Scalar α] (A : Sparse α) (label : Array Nat) :
    (A.triplets label).map Triplet.col = A.newCols label := by
  simp [triplets, newCols, Function.comp_def]

theorem length_triplets [Scalar α] (A : Sparse α) (label : Array Nat) :
    (A.triplets label).length = A.rowIndex.size := by
  simp [triplets]

theorem getElem_triplets [Scalar α] (A : Sparse α) (label : Array Nat) {p : Nat}
    (hp : p < (A.triplets label).length) :
    (A.triplets label)[p] = ⟨A.newRow label p, A.newCol label p, A.val p⟩ := by
  simp [triplets]

theorem length_newCols (A : Sparse α) (label : Array Nat) :
    (A.newCols label).length = A.rowIndex.size := by
  simp [newCols]

/-- The labels are good for the rows and columns of the matrix. -/
structure Labels (A : Sparse α) (label : Array Nat) : Prop where
  square : A.rows = A.cols
  size_eq : label.size = A.cols
  lt : ∀ i < A.cols, label.getD i 0 < A.cols
  inj : ∀ i < A.cols, ∀ j < A.cols, label.getD i 0 = label.getD j 0 → i = j

/-- The inverse of a permutation of the columns gives labels. -/
theorem labels_of_isInverse {A : Sparse α} {perm label : Array Nat} (hsquare : A.rows = A.cols)
    (hsize : perm.size = A.cols) (h : Permutation.IsInverse perm label) : Labels A label where
  square := hsquare
  size_eq := h.size_eq.trans hsize
  lt i hi := hsize ▸ h.label_lt i (hsize ▸ hi)
  inj _ hi _ hj := h.label_inj (hsize ▸ hi) (hsize ▸ hj)

variable {A : Sparse α} {label : Array Nat}

theorem Labels.newCol_lt (hl : Labels A label) (hA : A.Shaped) {p : Nat}
    (hp : p < A.rowIndex.size) : A.newCol label p < A.cols := by
  have hrow := hl.lt _ (hl.square ▸ hA.row_lt p hp)
  have hcol := hl.lt _ (hA.colOf_lt hp)
  exact Nat.max_lt.2 ⟨hrow, hcol⟩

theorem Labels.inside [Scalar α] (hl : Labels A label) (hA : A.Shaped) :
    ∀ t ∈ A.triplets label, t.row < A.cols ∧ t.col < A.cols := by
  intro t ht
  obtain ⟨p, hp, rfl⟩ := List.mem_map.1 ht
  have hcol := hl.newCol_lt hA (List.mem_range.1 hp)
  exact ⟨Nat.lt_of_le_of_lt (Nat.le_trans (Nat.min_le_left _ _) (Nat.le_max_left _ _)) hcol, hcol⟩

theorem Labels.relabelledEntry_eq (hl : Labels A label) (hA : A.Shaped) {j p : Nat}
    (hj : j < A.cols) (hp : p ∈ A.positions j) :
    relabelledEntry label (A.row p) j = .ok (A.newRow label p, A.newCol label p) := by
  have hsize := hA.lt_size_of_mem hj hp
  have hrow : A.row p < label.size := by
    rw [hl.size_eq, ← hl.square]
    exact hA.row_lt p hsize
  unfold relabelledEntry
  rw [Checked.entry_eq _ _ 0 hrow, Checked.ok_bind, Checked.entry_eq _ _ 0 (hl.size_eq ▸ hj),
    Checked.ok_bind, newRow, newCol, hA.colOf_eq hj hp]
  rfl

/-- The entry at a position of an upper triangle moves to the new position of rows and columns `i`
    and `j` exactly if it stands at their old one. -/
theorem Labels.new_eq_iff (hl : Labels A label) (hA : A.Shaped) (hupper : A.Upper) {i j p : Nat}
    (hi : i < A.cols) (hj : j < A.cols) (hp : p < A.rowIndex.size) :
    A.newRow label p = min (label.getD i 0) (label.getD j 0) ∧
        A.newCol label p = max (label.getD i 0) (label.getD j 0) ↔
      A.row p = min i j ∧ A.colOf p = max i j := by
  have hpc := hA.colOf_lt hp
  have hpr := hupper _ hpc p (hA.mem_positions_colOf hp)
  have hinj : ∀ x ≤ A.colOf p, ∀ y < A.cols, label.getD x 0 = label.getD y 0 → x = y :=
    fun x hx y hy => hl.inj x (by omega) y hy
  unfold newRow newCol
  constructor
  · rintro ⟨hmin, hmax⟩
    have hcases : (label.getD (A.row p) 0 = label.getD i 0 ∧
        label.getD (A.colOf p) 0 = label.getD j 0) ∨
        (label.getD (A.row p) 0 = label.getD j 0 ∧
          label.getD (A.colOf p) 0 = label.getD i 0) := by omega
    rcases hcases with ⟨hr, hc⟩ | ⟨hr, hc⟩
    · have hr := hinj _ hpr i hi hr
      have hc := hinj _ (Nat.le_refl _) j hj hc
      omega
    · have hr := hinj _ hpr j hj hr
      have hc := hinj _ (Nat.le_refl _) i hi hc
      omega
  · rintro ⟨hr, hc⟩
    rcases Nat.le_total i j with hij | hij
    · rw [hr, hc, Nat.min_eq_left hij, Nat.max_eq_right hij]
      exact ⟨rfl, rfl⟩
    · rw [hr, hc, Nat.min_eq_right hij, Nat.max_eq_left hij, Nat.min_comm, Nat.max_comm]
      exact ⟨rfl, rfl⟩

/-- Entries of an upper triangle with the same new position have the same old one. -/
theorem Labels.eq_of_new (hl : Labels A label) (hA : A.Shaped) (hupper : A.Upper) {p q : Nat}
    (hp : p < A.rowIndex.size) (hq : q < A.rowIndex.size)
    (hrow : A.newRow label p = A.newRow label q) (hcol : A.newCol label p = A.newCol label q) :
    A.row p = A.row q ∧ A.colOf p = A.colOf q := by
  have hqc := hA.colOf_lt hq
  have hqr := hupper _ hqc q (hA.mem_positions_colOf hq)
  have hsame := (hl.new_eq_iff hA hupper (Nat.lt_of_le_of_lt hqr hqc) hqc hp).1 ⟨hrow, hcol⟩
  rwa [Nat.min_eq_left hqr, Nat.max_eq_right hqr] at hsame

/-- The labels of rows and columns of the matrix alone are looked at. -/
theorem Shaped.relabelledEntry_extract (hA : A.Shaped) (hsquare : A.rows = A.cols) {j p : Nat}
    (hj : j < A.cols) (hp : p ∈ A.positions j) :
    relabelledEntry (label.extract 0 A.cols) (A.row p) j = relabelledEntry label (A.row p) j := by
  have hrow := hA.row_lt p (hA.lt_size_of_mem hj hp)
  unfold relabelledEntry
  rw [Checked.entry_extract _ (hsquare ▸ hrow), Checked.entry_extract _ hj]

/-! ## 2. Counting -/

theorem Shaped.range_start_succ (hA : A.Shaped) {j : Nat} (hj : j < A.cols) :
    List.range (A.start (j + 1)) = List.range (A.start j) ++ A.positions j := by
  have hle := hA.start_le_succ j hj
  have hend : A.start (j + 1) = A.start j + (A.start (j + 1) - A.start j) := by omega
  rw [List.range_eq_range', List.range_eq_range', positions]
  nth_rewrite 1 [hend]
  rw [← List.range'_append_1, Nat.zero_add]

theorem exists_countRelabelled (hl : Labels A label) (hA : A.Shaped) :
    ∃ counts, Checked.foldRange 0 A.cols (A.countRelabelled label)
        (Array.replicate A.cols 0) = .ok counts ∧
      counts.size = A.cols ∧ ∀ j, counts.getD j 0 = (A.newCols label).count j := by
  obtain ⟨counts, hrun, hsize, hcount⟩ := Checked.exists_foldRange
    (fun j (counts : Array Nat) => counts.size = A.cols ∧
      ∀ i, counts.getD i 0 = ((List.range (A.start j)).map (A.newCol label)).count i)
    (A.countRelabelled label) 0 A.cols (Array.replicate A.cols 0) (Nat.zero_le _)
    ⟨by simp, fun i => by rw [getD_replicate, hA.start_zero]; rfl⟩
    (by
      rintro j counts - hj ⟨hsize, hcount⟩
      obtain ⟨counts', hrun, hsize', hcount'⟩ := Checked.exists_foldlM_count
        ((A.positions j).map (A.newCol label)) counts fun c hc => by
          obtain ⟨p, hp, rfl⟩ := List.mem_map.1 hc
          rw [hsize]
          exact hl.newCol_lt hA (hA.lt_size_of_mem hj hp)
      refine ⟨counts', ?_, hsize'.trans hsize, fun i => ?_⟩
      · unfold countRelabelled
        rw [hA.columnRows_eq hj, Checked.ok_bind, ← hrun, List.foldlM_map, List.foldlM_map]
        refine Checked.foldlM_congr (fun p hp counts => ?_) counts
        rw [hl.relabelledEntry_eq hA hj hp, Checked.ok_bind]
      · rw [hcount' i, hcount i, hA.range_start_succ hj, List.map_append, List.count_append])
  exact ⟨counts, hrun, hsize, fun j => by rw [hcount j, hA.start_cols]; rfl⟩

/-! ## 3. Moving -/

variable [Scalar α]

/-- The matrix is `A`, relabelled, and the places are those of its entries. -/
structure RelabelOf (A : Sparse α) (label : Array Nat) (R : Relabelled α) : Prop where
  layout : LayoutOf A.cols (A.triplets label) R.matrix
  size_place : R.place.size = A.rowIndex.size
  place_eq : ∀ p < A.rowIndex.size, R.place.getD p 0 = placeIn (A.newCols label) p

/-- The entries before position `p` have been moved. -/
structure Moved (A : Sparse α) (label : Array Nat) (p : Nat) (f : Filling α) : Prop where
  filled : Filled A.cols (A.triplets label) ((A.triplets label).take p) f.matrix.rowIndex
    f.matrix.value f.next
  size_place : f.place.size = A.rowIndex.size
  place_eq : ∀ q < p, f.place.getD q 0 = placeIn (A.newCols label) q

theorem triplets_split {p : Nat} (hp : p < A.rowIndex.size) : A.triplets label =
    (A.triplets label).take p ++ ⟨A.newRow label p, A.newCol label p, A.val p⟩ ::
      (A.triplets label).drop (p + 1) := by
  have hlt : p < (A.triplets label).length := by simpa [triplets] using hp
  have hget : (A.triplets label)[p] = ⟨A.newRow label p, A.newCol label p, A.val p⟩ := by
    simp [triplets]
  rw [← hget, ← List.drop_eq_getElem_cons hlt, List.take_append_drop]

theorem length_take_triplets {p : Nat} (hp : p ≤ A.rowIndex.size) :
    ((A.triplets label).take p).length = p := by
  rw [List.length_take, triplets, List.length_map, List.length_range, Nat.min_eq_left hp]

theorem exists_moveRelabelled (hl : Labels A label) (hA : A.Shaped) {j p : Nat} (hj : j < A.cols)
    (hp : p ∈ A.positions j) {f : Filling α} (h : Moved A label p f) :
    ∃ g, A.moveRelabelled label j f p (A.row p) = .ok g ∧ Moved A label (p + 1) g ∧
      g.matrix.rows = f.matrix.rows ∧ g.matrix.cols = f.matrix.cols ∧
      g.matrix.colStart = f.matrix.colStart := by
  have hsize := hA.lt_size_of_mem hj hp
  have hcol := hl.newCol_lt hA hsize
  obtain ⟨hr, hv, hn, hnext, hfilled⟩ := h.filled.exists_store (triplets_split hsize) hcol
  have htake : ((A.triplets label).take p).length = p := length_take_triplets (Nat.le_of_lt hsize)
  rw [htake, map_col_triplets] at hr hv hnext
  simp only [htake, map_col_triplets] at hfilled
  have hplace : p < f.place.size := h.size_place ▸ hsize
  have hsucc : (A.triplets label).take (p + 1) = (A.triplets label).take p ++
      [⟨A.newRow label p, A.newCol label p, A.val p⟩] := by
    have hlt : p < (A.triplets label).length := by simpa [triplets] using hsize
    rw [List.take_succ_eq_append_getElem hlt]
    simp [triplets]
  unfold moveRelabelled
  rw [hl.relabelledEntry_eq hA hj hp, Checked.ok_bind]
  dsimp only
  rw [Checked.entry_eq _ _ 0 hn, Checked.ok_bind, hnext, hA.entry_value hsize, Checked.ok_bind,
    Checked.store_of_lt _ _ _ hr, Checked.ok_bind, Checked.store_of_lt _ _ _ hv, Checked.ok_bind,
    Checked.store_of_lt _ _ _ hplace, Checked.ok_bind, Checked.store_of_lt _ _ _ hn,
    Checked.ok_bind, Checked.pure_eq_ok]
  refine ⟨_, rfl, ?_, rfl, rfl, rfl⟩
  exact
    { filled := by
        rw [hsucc]
        exact hfilled
      size_place := by rw [Array.size_set, h.size_place]
      place_eq := by
        intro q hq
        rw [getD_set]
        by_cases hqp : q = p
        · rw [if_pos hqp, hqp]
        · rw [if_neg hqp]
          exact h.place_eq q (by omega) }

/-- **Relabelling answers**, and every entry goes to its place. -/
theorem Shaped.exists_relabel (hA : A.Shaped) (hl : Labels A label) :
    ∃ R, A.relabel label = .ok R ∧ RelabelOf A label R := by
  obtain ⟨counts, hcounts, hsize, hcount⟩ := exists_countRelabelled hl hA
  rw [← map_col_triplets] at hcount
  obtain ⟨f, hrun, hmoved, hrows, hcols, hcolStart⟩ := hA.exists_foldColumns
    (fun p (f : Filling α) => Moved A label p f ∧ f.matrix.rows = A.cols ∧ f.matrix.cols = A.cols ∧
      f.matrix.colStart = (startsOfLengths 0 counts.toList).toArray)
    (A.moveRelabelled label)
    { matrix := { Sparse.allocate A.cols A.cols A.rowIndex.size with
        colStart := (startsOfLengths 0 counts.toList).toArray }
      place := Array.replicate A.rowIndex.size 0
      next := (startsOfLengths 0 counts.toList).toArray.extract 0 A.cols }
    ⟨{ filled := filled_start (by simp [allocate, triplets]) (by simp [allocate, triplets]) hcount
          (Nat.le_refl _) (by omega)
       size_place := by simp
       place_eq := fun q hq => absurd hq (Nat.not_lt_zero q) }, rfl, rfl, rfl⟩
    (by
      rintro j p f hj hp ⟨hmoved, hrows, hcols, hcolStart⟩
      obtain ⟨g, hrun, hmoved', hrows', hcols', hcolStart'⟩ :=
        exists_moveRelabelled hl hA hj hp hmoved
      exact ⟨g, hrun, hmoved', hrows'.trans hrows, hcols'.trans hcols,
        hcolStart'.trans hcolStart⟩)
  refine ⟨f.toRelabelled, ?_, ?_⟩
  · unfold relabel
    rw [hA.room_eq, Checked.ok_bind, hcounts, Checked.ok_bind]
    dsimp only
    rw [hrun]
    rfl
  · have hall : (A.triplets label).take A.rowIndex.size = A.triplets label := by
      rw [List.take_of_length_le (by simp [triplets])]
    have hfilled := hmoved.filled
    rw [hall] at hfilled
    exact
      { layout := layoutOf_of_filled hfilled (hl.inside hA) hrows hcols
          (by rw [hcolStart]; simp [hsize])
          fun j hj => by rw [start, hcolStart, getD_toArray, getD_starts hcount (by omega)]
        size_place := hmoved.size_place
        place_eq := hmoved.place_eq }

/-! ## 4. Labels beyond the matrix -/

/-- **Relabelling reads the labels of the rows and columns of the matrix alone.** -/
theorem Shaped.relabel_extract (hA : A.Shaped) (hsquare : A.rows = A.cols) :
    A.relabel (label.extract 0 A.cols) = A.relabel label := by
  have hcount : ∀ counts, Checked.foldRange 0 A.cols
      (A.countRelabelled (label.extract 0 A.cols)) counts =
        Checked.foldRange 0 A.cols (A.countRelabelled label) counts := by
    intro counts
    refine Checked.foldRange_congr (fun j _ hj counts => ?_) counts
    unfold countRelabelled
    rw [hA.columnRows_eq hj, Checked.ok_bind, List.foldlM_map, Checked.ok_bind, List.foldlM_map]
    refine Checked.foldlM_congr (fun p hp counts => ?_) counts
    rw [hA.relabelledEntry_extract hsquare hj hp]
  have hmove : ∀ f, Checked.foldRange 0 A.cols (fun f col =>
      A.foldColumn col (A.moveRelabelled (label.extract 0 A.cols) col) f) f =
        Checked.foldRange 0 A.cols (fun f col =>
          A.foldColumn col (A.moveRelabelled label col) f) f := by
    intro f
    refine Checked.foldRange_congr (fun j _ hj f => ?_) f
    rw [hA.foldColumn_eq _ _ hj, hA.foldColumn_eq _ _ hj]
    refine Checked.foldlM_congr (fun p hp f => ?_) f
    unfold moveRelabelled
    rw [hA.relabelledEntry_extract hsquare hj hp]
  unfold relabel
  simp only [hcount, hmove]

/-- **Relabelling answers only if every column that stores an entry has a label among the
    columns.** -/
theorem Shaped.label_lt_of_relabel (hA : A.Shaped)
    (hfull : ∀ j < A.cols, A.start j ≠ A.start (j + 1)) {R : Relabelled α}
    (h : A.relabel label = .ok R) : ∀ j < A.cols, j < label.size ∧ label.getD j 0 < A.cols := by
  obtain ⟨stored, -, h⟩ := Checked.bind_eq_ok.1 h
  obtain ⟨counts, hcounts, -⟩ := Checked.bind_eq_ok.1 h
  refine (Checked.foldRange_induct
    (fun k (counts : Array Nat) => counts.size = A.cols ∧
      ∀ j < k, j < label.size ∧ label.getD j 0 < A.cols)
    (Nat.zero_le _) hcounts ⟨by simp, fun j hj => absurd hj (Nat.not_lt_zero j)⟩ ?_).2
  intro j counts counts' _ hj hinv hrun
  obtain ⟨hsize, hbelow⟩ := hinv
  -- the first entry of the column is counted at the larger of two labels, one of them the column's
  have hle := hA.start_le_succ j hj
  have hne := hfull j hj
  have hcons : A.positions j =
      A.start j :: List.range' (A.start j + 1) (A.start (j + 1) - A.start j - 1) := by
    rw [positions, show A.start (j + 1) - A.start j = A.start (j + 1) - A.start j - 1 + 1 by omega,
      List.range'_succ]
    rfl
  unfold countRelabelled at hrun
  rw [hA.columnRows_eq hj, Checked.ok_bind, List.foldlM_map, hcons, List.foldlM_cons] at hrun
  obtain ⟨mid, hmid, hrest⟩ := Checked.bind_eq_ok.1 hrun
  obtain ⟨target, hentry, hadjust⟩ := Checked.bind_eq_ok.1 hmid
  obtain ⟨r, -, hentry⟩ := Checked.bind_eq_ok.1 hentry
  obtain ⟨c, hc, hentry⟩ := Checked.bind_eq_ok.1 hentry
  cases hentry
  obtain ⟨hlabel, rfl⟩ := Checked.entry_eq_ok 0 hc
  have hlt := Checked.lt_of_adjust hadjust
  refine ⟨?_, fun i hi => ?_⟩
  · refine Checked.foldlM_keeps (fun counts => counts.size = A.cols) hrest
      ((Checked.size_of_adjust hadjust).trans hsize) fun counts p counts' hcounts hstep => ?_
    obtain ⟨target, -, hadjust⟩ := Checked.bind_eq_ok.1 hstep
    exact (Checked.size_of_adjust hadjust).trans hcounts
  · rcases Nat.lt_succ_iff_lt_or_eq.1 hi with hi | rfl
    · exact hbelow i hi
    · exact ⟨hlabel, by omega⟩

/-! ## 5. The relabelled matrix -/

namespace RelabelOf

variable {R : Relabelled α} (h : RelabelOf A label R)

include h

theorem size_rowIndex : R.matrix.rowIndex.size = A.rowIndex.size := by
  rw [h.layout.size_rowIndex, length_triplets]

theorem size_value : R.matrix.value.size = A.rowIndex.size := by
  rw [h.layout.size_value, length_triplets]

theorem row_place {p : Nat} (hp : p < A.rowIndex.size) :
    R.matrix.row (R.place.getD p 0) = A.newRow label p := by
  have hrow := h.layout.row_placeIn p (by rwa [length_triplets])
  rwa [map_col_triplets, ← h.place_eq p hp, getElem_triplets] at hrow

theorem val_place {p : Nat} (hp : p < A.rowIndex.size) :
    R.matrix.val (R.place.getD p 0) = A.val p := by
  have hval := h.layout.val_placeIn p (by rwa [length_triplets])
  rwa [map_col_triplets, ← h.place_eq p hp, getElem_triplets] at hval

theorem colOf_place {p : Nat} (hp : p < A.rowIndex.size) :
    R.matrix.colOf (R.place.getD p 0) = A.newCol label p := by
  have hcol := h.layout.colOf_placeIn (t := p) (by rwa [length_triplets])
  rwa [map_col_triplets, ← h.place_eq p hp, getElem_triplets] at hcol

theorem place_lt {p : Nat} (hp : p < A.rowIndex.size) : R.place.getD p 0 < A.rowIndex.size := by
  have : placeIn (A.newCols label) p < (A.newCols label).length :=
    placeIn_lt (by rw [length_newCols]; exact hp)
  rwa [h.place_eq p hp, ← length_newCols A label]

theorem place_inj {p q : Nat} (hp : p < A.rowIndex.size) (hq : q < A.rowIndex.size)
    (hpq : R.place.getD p 0 = R.place.getD q 0) : p = q := by
  rw [h.place_eq p hp, h.place_eq q hq] at hpq
  exact placeIn_inj (by rw [length_newCols]; exact hp) (by rw [length_newCols]; exact hq) hpq

/-- Every place is taken. -/
theorem exists_place {q : Nat} (hq : q < A.rowIndex.size) :
    ∃ p < A.rowIndex.size, R.place.getD p 0 = q := by
  have hlt : q < (A.triplets label).length := by rwa [length_triplets]
  obtain ⟨p, hp, hpq⟩ := LayoutOf.exists_placeIn hlt
  rw [length_triplets] at hp
  exact ⟨p, hp, by rw [h.place_eq p hp, ← map_col_triplets, hpq]⟩

theorem triangle : R.matrix.Triangle where
  toShaped := h.layout.shaped
  square := by rw [h.layout.rows_eq, h.layout.cols_eq]
  upper := h.layout.upper fun t ht => by
    obtain ⟨p, -, rfl⟩ := List.mem_map.1 ht
    exact Nat.le_trans (Nat.min_le_left _ _) (Nat.le_max_left _ _)

/-- Entries at the same new position are one entry. -/
theorem distinct (hA : A.Shaped) (hl : Labels A label) (hupper : A.Upper) (hdistinct : A.Distinct) :
    R.matrix.Distinct := by
  refine h.layout.distinct ?_
  unfold triplets
  rw [List.map_map, List.nodup_map_iff_inj_on List.nodup_range]
  intro p hp q hq hpq
  have hp := List.mem_range.1 hp
  have hq := List.mem_range.1 hq
  obtain ⟨hrow, hcol⟩ := Prod.mk.inj hpq
  have hsame := hl.eq_of_new hA hupper hp hq hrow hcol
  exact hA.eq_of_row_eq hdistinct hp hq hsame.1 hsame.2

/-- **Relabelling has one result.** -/
theorem unique {R' : Relabelled α} (h' : RelabelOf A label R') : R = R' := by
  have hmatrix := h.layout.unique h'.layout
  have hplace : R.place = R'.place := by
    refine ext_getD 0 (h.size_place.trans h'.size_place.symm) fun p hp => ?_
    rw [h.size_place] at hp
    rw [h.place_eq p hp, h'.place_eq p hp]
  obtain ⟨_, _⟩ := R
  obtain ⟨_, _⟩ := R'
  simp_all

/-- **A change of a value follows its entry.** -/
theorem setValue {p : Nat} (hp : p < A.rowIndex.size) (v : α)
    (hpv : p < A.value.size) (hqv : R.place.getD p 0 < R.matrix.value.size) :
    RelabelOf { A with value := A.value.set p v } label
      { R with matrix := { R.matrix with value := R.matrix.value.set (R.place.getD p 0) v } } where
  layout := by
    refine h.layout.revalue ?_ ?_ fun q hq => ?_
    · simp only [triplets, List.map_map]
      rfl
    · rw [Array.size_set, h.size_value, length_triplets]
    · rw [length_triplets] at hq
      have hq : q < A.rowIndex.size := hq
      rw [map_col_triplets, getElem_triplets]
      show (R.matrix.value.set (R.place.getD p 0) v hqv).getD (placeIn (A.newCols label) q) 0 =
        (A.value.set p v hpv).getD q 0
      rw [← h.place_eq q hq, getD_set, getD_set]
      by_cases hqp : q = p
      · rw [if_pos hqp, hqp, if_pos rfl]
      · rw [if_neg hqp, if_neg fun hplace => hqp (h.place_inj hq hp hplace)]
        exact h.val_place hq
  size_place := h.size_place
  place_eq := h.place_eq

end RelabelOf

/-! ## 6. Exact arithmetic -/

section Exact

open scoped Scalar

variable {K : Type} [Field K] [LinearOrder K] [SquareRoot K] {A : Sparse K} {label : Array Nat}
  {R : Relabelled K}

/-- An entry of the relabelled matrix as a sum over the entries of the matrix. -/
theorem RelabelOf.dense_eq_sum (h : RelabelOf A label R) {i j : Nat} (hj : j < A.cols) :
    R.matrix.dense i j = ∑ p ∈ Finset.range A.rowIndex.size,
      if A.newRow label p = i ∧ A.newCol label p = j then A.val p else 0 := by
  rw [h.layout.shaped.dense_eq_sum (h.layout.cols_eq ▸ hj), h.size_rowIndex]
  symm
  refine Finset.sum_bij (fun p _ => R.place.getD p 0)
    (fun p hp => Finset.mem_range.2 (h.place_lt (Finset.mem_range.1 hp)))
    (fun p hp q hq => h.place_inj (Finset.mem_range.1 hp) (Finset.mem_range.1 hq)) ?_ ?_
  · intro q hq
    obtain ⟨p, hp, hpq⟩ := h.exists_place (Finset.mem_range.1 hq)
    exact ⟨p, Finset.mem_range.2 hp, hpq⟩
  · intro p hp
    have hp := Finset.mem_range.1 hp
    rw [h.row_place hp, h.val_place hp, h.colOf_place hp]

/-- **Relabelling renumbers the rows and columns of the symmetric matrix.** -/
theorem RelabelOf.symmetric_eq (h : RelabelOf A label R) (hA : A.Shaped) (hl : Labels A label)
    (hupper : A.Upper) {i j : Nat} (hi : i < A.cols) (hj : j < A.cols) :
    R.matrix.symmetric (label.getD i 0) (label.getD j 0) = A.symmetric i j := by
  have hli := hl.lt i hi
  have hlj := hl.lt j hj
  rw [symmetric, symmetric, h.dense_eq_sum (Nat.max_lt.2 ⟨hli, hlj⟩),
    hA.dense_eq_sum (Nat.max_lt.2 ⟨hi, hj⟩)]
  refine Finset.sum_congr rfl fun p hp => if_congr ?_ rfl rfl
  exact hl.new_eq_iff hA hupper hi hj (Finset.mem_range.1 hp)

end Exact

end Sparse

end Quasidefinite
