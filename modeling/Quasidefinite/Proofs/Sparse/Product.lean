import Quasidefinite.Proofs.Sparse.Symmetric
import Quasidefinite.Proofs.Vec

/-!
# What the products compute

A product that answers keeps the length of the vector it is written over, whatever the matrix. On a
shaped matrix and vectors of fitting lengths the products answer in every arithmetic
(`Shaped.exists_gemv`, `Shaped.exists_gemvT`). In exact arithmetic they write `a * M * x + b * y`,
where `M` is the matrix, its transpose, or the symmetric matrix whose upper triangle is stored
(`Shaped.exists_vector_gemv` and its like); the scalings that need no multiplication make no
difference.
-/

namespace Quasidefinite

namespace Sparse

/-! ## 1. Lengths -/

section Lengths

variable {α : Type} [Scalar α] {A : Sparse α} {x y z : Array α} {a b : α}

theorem size_addColumn {j : Nat} {c : α} (h : A.addColumn j c y = .ok z) : z.size = y.size := by
  unfold addColumn foldColumn at h
  obtain ⟨first, -, h⟩ := Checked.bind_eq_ok.1 h
  obtain ⟨last, -, h⟩ := Checked.bind_eq_ok.1 h
  refine Checked.foldRange_keeps (fun z => z.size = y.size) h rfl fun z p u hz hu => ?_
  obtain ⟨row, -, hu⟩ := Checked.bind_eq_ok.1 hu
  obtain ⟨yr, -, hu⟩ := Checked.bind_eq_ok.1 hu
  obtain ⟨v, -, hu⟩ := Checked.bind_eq_ok.1 hu
  exact (Checked.size_of_store hu).trans hz

/-- A product that answers keeps the length of the vector it is written over. -/
theorem size_gemv (h : A.gemv y x a b = .ok z) : z.size = y.size := by
  unfold gemv at h
  obtain ⟨-, -, h⟩ := Checked.bind_eq_ok.1 h
  obtain ⟨-, -, h⟩ := Checked.bind_eq_ok.1 h
  split at h
  · cases h
    exact size_scaled y b
  · refine Checked.foldRange_keeps (fun z => z.size = y.size) h (size_scaled y b)
      fun z j u hz hu => ?_
    obtain ⟨xj, -, hu⟩ := Checked.bind_eq_ok.1 hu
    exact (size_addColumn hu).trans hz

theorem size_gemvT (h : A.gemvT y x a b = .ok z) : z.size = y.size := by
  unfold gemvT at h
  obtain ⟨-, -, h⟩ := Checked.bind_eq_ok.1 h
  obtain ⟨-, -, h⟩ := Checked.bind_eq_ok.1 h
  split at h
  · cases h
    exact size_scaled y b
  · refine Checked.foldRange_keeps (fun z => z.size = y.size) h (size_scaled y b)
      fun z j u hz hu => ?_
    obtain ⟨s, -, hu⟩ := Checked.bind_eq_ok.1 hu
    exact (Checked.size_of_adjust hu).trans hz

theorem size_addSymmetric {col : Nat} {xcol : α} {e : Nat × α}
    (h : addSymmetric a x col xcol y e = .ok z) : z.size = y.size := by
  unfold addSymmetric at h
  obtain ⟨u, hu, h⟩ := Checked.bind_eq_ok.1 h
  split at h
  · cases h
    exact Checked.size_of_adjust hu
  · obtain ⟨xrow, -, h⟩ := Checked.bind_eq_ok.1 h
    exact (Checked.size_of_adjust h).trans (Checked.size_of_adjust hu)

theorem size_symv (h : A.symv y x a b = .ok z) : z.size = y.size := by
  unfold symv at h
  obtain ⟨upper, -, h⟩ := Checked.bind_eq_ok.1 h
  obtain ⟨-, -, h⟩ := Checked.bind_eq_ok.1 h
  obtain ⟨-, -, h⟩ := Checked.bind_eq_ok.1 h
  obtain ⟨-, -, h⟩ := Checked.bind_eq_ok.1 h
  obtain ⟨-, -, h⟩ := Checked.bind_eq_ok.1 h
  refine Checked.foldRange_keeps (fun z => z.size = y.size) h (size_scaled y b)
    fun z col u hz hu => ?_
  obtain ⟨xcol, -, hu⟩ := Checked.bind_eq_ok.1 hu
  obtain ⟨entries, -, hu⟩ := Checked.bind_eq_ok.1 hu
  exact Checked.foldlM_keeps (fun z => z.size = y.size) hu hz
    fun v e w hv hw => (size_addSymmetric hw).trans hv

end Lengths

/-! ## 2. The products as functions -/

section Functions

variable {α : Type} [Scalar α]

/-- Adds a list of entries, times `c`, to a vector. -/
def addEntries (c : α) (entries : List (Nat × α)) (y : Nat → α) : Nat → α :=
  entries.foldl (fun y e => Function.update y e.1 (y e.1 + e.2 * c)) y

/-- The inner product of a list of entries with a vector, summed from the first entry on. -/
def dotEntries (entries : List (Nat × α)) (x : Nat → α) : α :=
  entries.foldl (fun sum e => sum + e.2 * x e.1) 0

/-- What the first `n` columns add to `y`. -/
def gemvSweep (A : Sparse α) (a : α) (x : Nat → α) (n : Nat) (y : Nat → α) : Nat → α :=
  (List.range n).foldl (fun y j => addEntries (a * x j) (A.entries j) y) y

namespace Shaped

variable {A : Sparse α} (hA : A.Shaped)

include hA

theorem fst_lt_of_mem_entries {j : Nat} (hj : j < A.cols) : ∀ e ∈ A.entries j, e.1 < A.rows := by
  intro e he
  obtain ⟨p, hp, rfl⟩ := List.mem_map.1 he
  exact hA.row_lt p (hA.lt_size_of_mem hj hp)

theorem columnDot_eq {j : Nat} (hj : j < A.cols) {x : Array α} (hx : x.size = A.rows) :
    A.columnDot j x = .ok (dotEntries (A.entries j) fun i => x.getD i 0) := by
  unfold columnDot
  rw [hA.column_eq hj, Checked.ok_bind]
  refine (Checked.foldlM_eq_ok (fun _ => True) _
    (fun sum (e : Nat × α) => sum + e.2 * x.getD e.1 0) (A.entries j) 0 trivial
    fun s e he _ => ⟨?_, trivial⟩).1
  show (do
    let xr ← Checked.entry x e.1
    pure (s + e.2 * xr)) = _
  rw [Checked.entry_eq _ _ 0 (hx ▸ hA.fst_lt_of_mem_entries hj e he)]
  rfl

theorem exists_addColumn {j : Nat} (hj : j < A.cols) (c : α) {y : Array α} (hy : y.size = A.rows) :
    ∃ z, A.addColumn j c y = .ok z ∧ z.size = A.rows ∧
      (fun i => z.getD i 0) = addEntries c (A.entries j) fun i => y.getD i 0 := by
  unfold addColumn
  rw [hA.foldColumn_eq _ _ hj]
  obtain ⟨z, hz, hsize, heq⟩ := Checked.exists_foldlM
    (fun (done : List Nat) (z : Array α) => z.size = A.rows ∧ (fun i => z.getD i 0) =
      addEntries c (done.map fun p => (A.row p, A.val p)) fun i => y.getD i 0)
    (fun (y : Array α) p => do
      let yr ← Checked.entry y (A.row p)
      let v ← Checked.entry A.value p
      Checked.store y (A.row p) (yr + v * c))
    (A.positions j) y ⟨hy, rfl⟩ (by
      rintro done p todo z hsplit ⟨hsize, heq⟩
      have hp : p < A.rowIndex.size := hA.lt_size_of_mem hj (by rw [hsplit]; simp)
      have hrow : A.row p < z.size := hsize ▸ hA.row_lt p hp
      refine ⟨z.set (A.row p) (z.getD (A.row p) 0 + A.val p * c) hrow, ?_, ?_, ?_⟩
      · rw [Checked.entry_eq _ _ 0 hrow, Checked.ok_bind, hA.entry_value hp, Checked.ok_bind,
          Checked.store_of_lt _ _ _ hrow]
      · rw [Array.size_set, hsize]
      · rw [getD_set_eq_update, List.map_append, addEntries, List.foldl_append]
        exact congrArg (fun f : Nat → α => Function.update f (A.row p)
          (f (A.row p) + A.val p * c)) heq)
  exact ⟨z, hz, hsize, heq⟩

/-- **The product answers** in every arithmetic. -/
theorem exists_gemv {x y : Array α} (hx : x.size = A.cols) (hy : y.size = A.rows) (a b : α) :
    ∃ z, A.gemv y x a b = .ok z ∧ z.size = A.rows ∧ (fun i => z.getD i 0) =
      if a == 0 then fun i => (scaled y b).getD i 0
      else A.gemvSweep a (fun i => x.getD i 0) A.cols fun i => (scaled y b).getD i 0 := by
  unfold gemv
  rw [Checked.require_of _ _ hx, Checked.ok_bind, Checked.require_of _ _ hy, Checked.ok_bind, hx]
  cases a == 0 with
  | true => exact ⟨_, rfl, (size_scaled y b).trans hy, rfl⟩
  | false =>
  rw [if_neg Bool.false_ne_true, if_neg Bool.false_ne_true]
  refine Checked.exists_foldRange
    (fun k (z : Array α) => z.size = A.rows ∧ (fun i => z.getD i 0) =
      A.gemvSweep a (fun i => x.getD i 0) k fun i => (scaled y b).getD i 0)
    _ 0 A.cols (scaled y b) (Nat.zero_le _) ⟨(size_scaled y b).trans hy, rfl⟩ ?_
  rintro j z - hj ⟨hsize, heq⟩
  obtain ⟨u, hu, husize, hueq⟩ := hA.exists_addColumn hj (a * x.getD j 0) hsize
  refine ⟨u, ?_, husize, ?_⟩
  · rw [Checked.entry_eq _ _ 0 (hx ▸ hj), Checked.ok_bind, hu]
  · rw [hueq, gemvSweep, List.range_succ, List.foldl_append, List.foldl_cons, List.foldl_nil, heq]
    rfl

/-- **The transposed product answers** in every arithmetic. -/
theorem exists_gemvT {x y : Array α} (hx : x.size = A.rows) (hy : y.size = A.cols) (a b : α) :
    ∃ z, A.gemvT y x a b = .ok z ∧ z.size = A.cols ∧ ∀ j < A.cols, z.getD j 0 =
      if a == 0 then (scaled y b).getD j 0
      else (scaled y b).getD j 0 + a * dotEntries (A.entries j) fun i => x.getD i 0 := by
  unfold gemvT
  rw [Checked.require_of _ _ hx, Checked.ok_bind, Checked.require_of _ _ hy, Checked.ok_bind, hy]
  cases a == 0 with
  | true => exact ⟨_, rfl, (size_scaled y b).trans hy, fun _ _ => rfl⟩
  | false =>
  simp only [if_neg Bool.false_ne_true]
  obtain ⟨z, hz, hsize, heq⟩ := Checked.exists_foldRange
    (fun k (z : Array α) => z.size = A.cols ∧ ∀ j, z.getD j 0 =
      if j < k then (scaled y b).getD j 0 + a * dotEntries (A.entries j) fun i => x.getD i 0
      else (scaled y b).getD j 0)
    (fun (y : Array α) j => do
      let s ← A.columnDot j x
      Checked.adjust y j (· + a * s))
    0 A.cols (scaled y b) (Nat.zero_le _) ⟨(size_scaled y b).trans hy, fun j => by simp⟩ (by
      rintro j z - hj ⟨hsize, heq⟩
      have hjz : j < z.size := hsize ▸ hj
      refine ⟨z.set j (z.getD j 0 + a * dotEntries (A.entries j) fun i => x.getD i 0) hjz,
        ?_, by rw [Array.size_set, hsize], fun i => ?_⟩
      · rw [hA.columnDot_eq hj hx, Checked.ok_bind, Checked.adjust_eq _ _ _ 0 hjz]
      · rw [getD_set]
        by_cases hi : i = j
        · rw [if_pos hi, hi, if_pos (Nat.lt_succ_self j), heq, if_neg (Nat.lt_irrefl j)]
        · rw [if_neg hi, heq]
          exact if_congr (by omega) rfl rfl)
  exact ⟨z, hz, hsize, fun j hj => (heq j).trans (if_pos hj)⟩

/-- The diagonal of a square matrix is found. -/
theorem exists_diagonal (hsquare : A.rows = A.cols) {diag : Array α} (hdiag : diag.size = A.cols) :
    ∃ z, A.diagonal diag = .ok z ∧ z.size = A.cols := by
  unfold diagonal
  rw [Checked.require_of _ _ hsquare, Checked.ok_bind, Checked.require_of _ _ hdiag,
    Checked.ok_bind]
  refine hA.exists_foldColumns (fun _ (z : Array α) => z.size = A.cols) _ (Vec.fill diag 0)
    ((Vec.size_fill _ _).trans hdiag) fun col p z hcol hp hsize => ?_
  by_cases hrow : A.row p = col
  · rw [if_pos hrow, hA.entry_value (hA.lt_size_of_mem hcol hp), Checked.ok_bind,
      Checked.adjust_eq _ _ _ 0 (hsize.symm ▸ hcol)]
    exact ⟨_, rfl, (Array.size_set _).trans hsize⟩
  · rw [if_neg hrow]
    exact ⟨z, rfl, hsize⟩

theorem exists_weightedSquares {w : Array α} (hw : w.size = A.rows) {j : Nat} (hj : j < A.cols) :
    ∃ s, A.weightedSquares w j = .ok s := by
  unfold weightedSquares
  rw [hA.column_eq hj, Checked.ok_bind]
  obtain ⟨s, hs, -⟩ := Checked.exists_foldlM (fun _ (_ : α) => True)
    (fun sum (e : Nat × α) => do
      let wr ← Checked.entry w e.1
      pure (sum + wr * e.2 * e.2)) (A.entries j) 0 trivial (by
      rintro done e todo s hsplit -
      have he := hA.fst_lt_of_mem_entries hj e (by rw [hsplit]; simp)
      rw [Checked.entry_eq _ _ 0 (hw.symm ▸ he)]
      exact ⟨_, rfl, trivial⟩)
  exact ⟨s, hs⟩

/-- The weighted sums of squares of the columns are found. -/
theorem exists_columnWeightedSquares {out w : Array α} (hout : out.size = A.cols)
    (hw : w.size = A.rows) :
    ∃ z, A.columnWeightedSquares out w = .ok z ∧ z.size = A.cols := by
  unfold columnWeightedSquares
  rw [Checked.require_of _ _ hout, Checked.ok_bind, Checked.require_of _ _ hw, Checked.ok_bind]
  refine Checked.exists_foldRange (fun _ (z : Array α) => z.size = A.cols) _ 0 A.cols out
    (Nat.zero_le _) hout fun j z _ hj hsize => ?_
  obtain ⟨s, hs⟩ := hA.exists_weightedSquares hw hj
  rw [hs, Checked.ok_bind, Checked.store_of_lt _ _ _ (hsize.symm ▸ hj)]
  exact ⟨_, rfl, (Array.size_set _).trans hsize⟩

end Shaped

end Functions

/-! ## 3. Exact arithmetic -/

section Exact

open scoped Scalar Matrix

variable {K : Type} [Field K] [LinearOrder K] [SquareRoot K]

theorem dotEntries_eq (entries : List (Nat × K)) (x : Nat → K) :
    dotEntries entries x = (entries.map fun e => e.2 * x e.1).sum := by
  suffices h : ∀ s : K, entries.foldl (fun sum e => sum + e.2 * x e.1) s =
      s + (entries.map fun e => e.2 * x e.1).sum from (h 0).trans (zero_add _)
  induction entries with
  | nil => intro s; simp
  | cons e es ih =>
    intro s
    rw [List.foldl_cons, ih, List.map_cons, List.sum_cons, add_assoc]

/-- The scalings that need no multiplication make no difference. -/
theorem scaled_eq (y : Array K) (b : K) : scaled y b = y.map fun yi => b * yi := by
  unfold scaled Vec.fill Vec.negate Vec.scale
  simp only [beq_iff_eq]
  split_ifs with hzero hone hneg
  · simp [hzero]
  · simp [hone]
  · simp [hneg]
  · simp only [mul_comm b]

theorem getD_scaled (y : Array K) (b : K) (i : Nat) : (scaled y b).getD i 0 = b * y.getD i 0 := by
  rw [scaled_eq]
  by_cases hi : i < y.size <;> simp [Array.getD, hi]

theorem addEntries_apply (c : K) (entries : List (Nat × K)) (y : Nat → K) (i : Nat) :
    addEntries c entries y i = y i + coeff entries i * c := by
  induction entries generalizing y with
  | nil => simp [addEntries]
  | cons e es ih =>
    have h := ih (Function.update y e.1 (y e.1 + e.2 * c))
    unfold addEntries at h ⊢
    rw [List.foldl_cons, h, coeff_cons, Function.update_apply]
    by_cases he : i = e.1
    · rw [if_pos he, if_pos he.symm, he]
      ring
    · rw [if_neg he, if_neg (Ne.symm he), zero_add]

theorem gemvSweep_apply (A : Sparse K) (a : K) (x y : Nat → K) (n i : Nat) :
    A.gemvSweep a x n y i = y i + a * ∑ j ∈ Finset.range n, A.dense i j * x j := by
  induction n with
  | zero => simp [gemvSweep]
  | succ n ih =>
    have hstep : A.gemvSweep a x (n + 1) y =
        addEntries (a * x n) (A.entries n) (A.gemvSweep a x n y) := by
      unfold gemvSweep
      rw [List.range_succ, List.foldl_append]
      rfl
    rw [hstep, addEntries_apply, ih, Finset.sum_range_succ, dense]
    ring

variable {A : Sparse K} {x y : Array K}

/-- **The product is that with the matrix.** -/
theorem Shaped.exists_vector_gemv (hA : A.Shaped) (hx : x.size = A.cols) (hy : y.size = A.rows)
    (a b : K) : ∃ z, A.gemv y x a b = .ok z ∧ z.size = A.rows ∧ vector A.rows z =
      a • A.matrix A.rows A.cols *ᵥ vector A.cols x + b • vector A.rows y := by
  obtain ⟨z, hz, hsize, heq⟩ := hA.exists_gemv hx hy a b
  refine ⟨z, hz, hsize, ?_⟩
  have hsweep : (fun i => z.getD i 0) = fun i =>
      a * (∑ j ∈ Finset.range A.cols, A.dense i j * x.getD j 0) + b * y.getD i 0 := by
    rw [heq]
    simp only [beq_iff_eq, getD_scaled]
    split_ifs with ha
    · simp [ha]
    · funext i
      rw [gemvSweep_apply, add_comm]
  funext i
  refine (congrFun hsweep i).trans ?_
  rw [Finset.sum_range]
  rfl

/-- **The transposed product is that with the transposed matrix.** -/
theorem Shaped.exists_vector_gemvT (hA : A.Shaped) (hx : x.size = A.rows) (hy : y.size = A.cols)
    (a b : K) : ∃ z, A.gemvT y x a b = .ok z ∧ z.size = A.cols ∧ vector A.cols z =
      a • (A.matrix A.rows A.cols)ᵀ *ᵥ vector A.rows x + b • vector A.cols y := by
  obtain ⟨z, hz, hsize, heq⟩ := hA.exists_gemvT hx hy a b
  refine ⟨z, hz, hsize, ?_⟩
  have hentry : ∀ j < A.cols, z.getD j 0 =
      a * (∑ i ∈ Finset.range A.rows, A.dense i j * x.getD i 0) + b * y.getD j 0 := by
    intro j hj
    rw [heq j hj, dotEntries_eq, hA.sum_column hj fun i => x.getD i 0]
    simp only [beq_iff_eq, getD_scaled]
    split_ifs with ha
    · simp [ha]
    · rw [add_comm]
  funext j
  refine (hentry j j.isLt).trans ?_
  rw [Finset.sum_range]
  rfl

/-- **The symmetric product is that with the symmetric matrix.** -/
theorem Triangle.exists_vector_symv (hA : A.Triangle) (hx : x.size = A.cols)
    (hy : y.size = A.cols) (a b : K) : ∃ z, A.symv y x a b = .ok z ∧ z.size = A.cols ∧
      vector A.cols z =
        a • A.symmetricMatrix A.cols *ᵥ vector A.cols x + b • vector A.cols y := by
  obtain ⟨z, hz, hsize, heq⟩ := hA.exists_symv hx hy a b
  refine ⟨z, hz, hsize, funext fun i => (congrFun heq i).trans ?_⟩
  rw [hA.symvSweep_eq _ _ _ i.isLt, getD_scaled, add_comm, Finset.sum_range]
  rfl

end Exact

end Sparse

end Quasidefinite
