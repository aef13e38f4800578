import Quasidefinite.Sparse.Product
import Quasidefinite.Proofs.Sparse.Dense

/-!
# What the symmetric product computes

The product with the symmetric matrix whose upper triangle is stored answers in every arithmetic
(`Triangle.exists_symv`). In exact arithmetic it is that product (`Triangle.symvSweep_eq`).
-/

namespace Quasidefinite

namespace Sparse

/-! ## 1. The product as a function -/

section Functions

variable {α : Type} [Scalar α]

/-- What the stored entry `e` of column `col` adds. -/
def symmetricStep (a : α) (x : Nat → α) (col : Nat) (y : Nat → α) (e : Nat × α) : Nat → α :=
  let z := Function.update y e.1 (y e.1 + a * e.2 * x col)
  if e.1 = col then z else Function.update z col (z col + a * e.2 * x e.1)

/-- What the first `n` columns add to `y`. -/
def symvSweep (A : Sparse α) (a : α) (x : Nat → α) (n : Nat) (y : Nat → α) : Nat → α :=
  (List.range n).foldl (fun y col => (A.entries col).foldl (symmetricStep a x col) y) y

theorem symvSweep_succ (A : Sparse α) (a : α) (x : Nat → α) (n : Nat) (y : Nat → α) :
    A.symvSweep a x (n + 1) y =
      (A.entries n).foldl (symmetricStep a x n) (A.symvSweep a x n y) := by
  unfold symvSweep
  rw [List.range_succ, List.foldl_append]
  rfl

@[simp] theorem size_scaled (y : Array α) (b : α) : (scaled y b).size = y.size := by
  unfold scaled
  repeat' split
  all_goals simp [Vec.negate, Vec.scale]

theorem exists_addSymmetric {n : Nat} (a : α) {x y : Array α} {col : Nat} (hx : x.size = n)
    (hy : y.size = n) (hcol : col < n) {e : Nat × α} (he : e.1 < n) :
    ∃ z, addSymmetric a x col (x.getD col 0) y e = .ok z ∧ z.size = n ∧
      (fun i => z.getD i 0) =
        symmetricStep a (fun i => x.getD i 0) col (fun i => y.getD i 0) e := by
  obtain ⟨row, v⟩ := e
  rw [addSymmetric, Checked.adjust_eq _ _ _ 0 (hy ▸ he), Checked.ok_bind, symmetricStep]
  by_cases hdiag : row = col
  · rw [if_pos hdiag, if_pos hdiag]
    exact ⟨_, rfl, by rw [Array.size_set, hy], getD_set_eq_update _ _ _ _ _⟩
  · rw [if_neg hdiag, if_neg hdiag, Checked.entry_eq _ _ 0 (hx ▸ he), Checked.ok_bind,
      Checked.adjust_eq _ _ _ 0 (by rw [Array.size_set, hy]; exact hcol)]
    refine ⟨_, rfl, by rw [Array.size_set, Array.size_set, hy], ?_⟩
    rw [getD_set_eq_update, getD_set_eq_update]
    congr 1
    rw [getD_set, Function.update_apply]

/-- **The symmetric product answers** in every arithmetic. -/
theorem Triangle.exists_symv {A : Sparse α} (hA : A.Triangle) {x y : Array α}
    (hx : x.size = A.cols) (hy : y.size = A.cols) (a b : α) :
    ∃ z, A.symv y x a b = .ok z ∧ z.size = A.cols ∧ (fun i => z.getD i 0) =
      A.symvSweep a (fun i => x.getD i 0) A.cols fun i => (scaled y b).getD i 0 := by
  unfold symv
  rw [hA.toShaped.isUpper_of_upper hA.upper, Checked.ok_bind, Checked.require_of _ _ rfl,
    Checked.ok_bind, Checked.require_of _ _ hx, Checked.ok_bind, Checked.require_of _ _ hy,
    Checked.ok_bind, Checked.require_of _ _ hA.square.symm, Checked.ok_bind, hx]
  refine Checked.exists_foldRange
    (fun k (z : Array α) => z.size = A.cols ∧ (fun i => z.getD i 0) =
      A.symvSweep a (fun i => x.getD i 0) k fun i => (scaled y b).getD i 0)
    _ 0 A.cols (scaled y b) (Nat.zero_le _) ⟨by rw [size_scaled, hy], rfl⟩ ?_
  rintro col z - hcol ⟨hsize, heq⟩
  obtain ⟨w, hrun, hsize', heq'⟩ := Checked.exists_foldlM
    (fun (done : List (Nat × α)) (w : Array α) => w.size = A.cols ∧ (fun i => w.getD i 0) =
      done.foldl (symmetricStep a (fun i => x.getD i 0) col) fun i => z.getD i 0)
    (addSymmetric a x col (x.getD col 0)) (A.entries col) z ⟨hsize, rfl⟩
    (by
      rintro done e todo w hsplit ⟨hsize, heq⟩
      have he : e ∈ A.entries col := by
        rw [hsplit]
        simp
      obtain ⟨p, hp, rfl⟩ := List.mem_map.1 he
      have hrow : A.row p < A.cols := hA.square ▸ hA.row_lt p (hA.lt_size_of_mem hcol hp)
      obtain ⟨u, hu, husize, hueq⟩ :=
        exists_addSymmetric a hx hsize hcol (e := (A.row p, A.val p)) hrow
      refine ⟨u, hu, husize, ?_⟩
      rw [hueq, List.foldl_append, List.foldl_cons, List.foldl_nil, heq])
  refine ⟨w, ?_, hsize', ?_⟩
  · rw [Checked.entry_eq _ _ 0 (hx ▸ hcol), Checked.ok_bind, hA.toShaped.column_eq hcol,
      Checked.ok_bind]
    exact hrun
  · rw [heq', symvSweep_succ, heq]

/-- A symmetric product that answers is one of fitting vectors. -/
theorem sizes_of_symv {A : Sparse α} {x y z : Array α} {a b : α}
    (h : A.symv y x a b = .ok z) : x.size = A.cols ∧ y.size = A.cols := by
  obtain ⟨_, -, h⟩ := Checked.bind_eq_ok.1 h
  obtain ⟨⟨⟩, -, h⟩ := Checked.bind_eq_ok.1 h
  obtain ⟨⟨⟩, hx, h⟩ := Checked.bind_eq_ok.1 h
  obtain ⟨⟨⟩, hy, h⟩ := Checked.bind_eq_ok.1 h
  exact ⟨Checked.require_eq_ok.1 hx, Checked.require_eq_ok.1 hy⟩

end Functions

/-! ## 2. Exact arithmetic -/

section Exact

open scoped Scalar

variable {K : Type} [Field K] [LinearOrder K] [SquareRoot K] {A : Sparse K}

/-- What a stored entry contributes to component `i` of the product. -/
def contribution (x : Nat → K) (i col : Nat) (e : Nat × K) : K :=
  if e.1 = i then e.2 * x col else if col = i then e.2 * x e.1 else 0

theorem symmetricStep_apply (a : K) (x : Nat → K) (col : Nat) (y : Nat → K) (e : Nat × K)
    (i : Nat) : symmetricStep a x col y e i = y i + a * contribution x i col e := by
  unfold symmetricStep contribution
  by_cases hdiag : e.1 = col
  · rw [if_pos hdiag, Function.update_apply]
    by_cases hi : i = e.1
    · rw [if_pos hi, if_pos hi.symm, hi, mul_assoc]
    · rw [if_neg hi, if_neg (Ne.symm hi), if_neg fun h => hi (h.symm.trans hdiag.symm), mul_zero,
        add_zero]
  · rw [if_neg hdiag, Function.update_apply, Function.update_apply, Function.update_apply]
    by_cases hcol : i = col
    · have hne : e.1 ≠ i := fun h => hdiag (h.trans hcol)
      rw [if_pos hcol, if_neg (Ne.symm hdiag), if_neg hne, if_pos hcol.symm, hcol, mul_assoc]
    · rw [if_neg hcol]
      by_cases hi : i = e.1
      · rw [if_pos hi, if_pos hi.symm, hi, mul_assoc]
      · rw [if_neg hi, if_neg (Ne.symm hi), if_neg (Ne.symm hcol), mul_zero, add_zero]

theorem foldl_symmetricStep_apply (a : K) (x : Nat → K) (col : Nat) (es : List (Nat × K))
    (y : Nat → K) (i : Nat) : es.foldl (symmetricStep a x col) y i =
      y i + a * (es.map (contribution x i col)).sum := by
  induction es generalizing y with
  | nil => simp
  | cons e es ih =>
    rw [List.foldl_cons, ih, symmetricStep_apply, List.map_cons, List.sum_cons]
    ring

/-- What column `col` contributes: its entry in row `i`, or in column `i` all of them. -/
theorem sum_contribution (hA : A.Shaped) {col : Nat} (hcol : col < A.cols) (x : Nat → K) (i : Nat) :
    ((A.entries col).map (contribution x i col)).sum =
      if col = i then ∑ r ∈ Finset.range A.rows, A.dense r i * x r else A.dense i col * x col := by
  by_cases hi : col = i
  · rw [if_pos hi, ← hi, ← hA.sum_column hcol]
    refine congrArg List.sum (List.map_congr_left fun e _ => ?_)
    unfold contribution
    by_cases he : e.1 = col
    · rw [if_pos he, he]
    · rw [if_neg he, if_pos rfl]
  · rw [if_neg hi, dense, coeff, ← List.sum_map_mul_right]
    refine congrArg List.sum (List.map_congr_left fun e _ => ?_)
    unfold contribution
    by_cases he : e.1 = i
    · rw [if_pos he, if_pos he]
    · rw [if_neg he, if_neg hi, if_neg he, zero_mul]

/-- **The symmetric product is the product with the symmetric matrix.** -/
theorem Triangle.symvSweep_eq (hA : A.Triangle) (a : K) (x y : Nat → K) {i : Nat}
    (hi : i < A.cols) : A.symvSweep a x A.cols y i =
      y i + a * ∑ j ∈ Finset.range A.cols, A.symmetric i j * x j := by
  have hsum : ∀ n ≤ A.cols, A.symvSweep a x n y i = y i + a * ∑ col ∈ Finset.range n,
      if col = i then ∑ r ∈ Finset.range A.rows, A.dense r i * x r
      else A.dense i col * x col := by
    intro n hn
    induction n with
    | zero => simp [symvSweep]
    | succ n ih =>
      rw [symvSweep_succ, foldl_symmetricStep_apply, ih (Nat.le_of_succ_le hn),
        Finset.sum_range_succ, sum_contribution hA.toShaped hn]
      ring
  rw [hsum A.cols (Nat.le_refl _)]
  congr 2
  -- row `i` right of the diagonal, and column `i` down to it
  have hsplit : ∀ j ∈ Finset.range A.cols, A.symmetric i j * x j =
      (if j = i then 0 else A.dense i j * x j) + A.dense j i * x j := by
    intro j hj
    have hj := Finset.mem_range.1 hj
    rcases Nat.lt_trichotomy j i with hlt | heq | hlt
    · rw [if_neg (Nat.ne_of_lt hlt), hA.upper.dense_eq_zero hj hlt, symmetric_comm,
        symmetric_of_le _ (Nat.le_of_lt hlt)]
      ring
    · rw [if_pos heq, heq, symmetric_of_le _ (Nat.le_refl i), zero_add]
    · rw [if_neg (Nat.ne_of_gt hlt), hA.upper.dense_eq_zero hi hlt,
        symmetric_of_le _ (Nat.le_of_lt hlt)]
      ring
  have hcolumn : ∀ j ∈ Finset.range A.cols,
      (if j = i then ∑ r ∈ Finset.range A.rows, A.dense r i * x r else A.dense i j * x j) =
        (if j = i then 0 else A.dense i j * x j) +
          if j = i then ∑ r ∈ Finset.range A.rows, A.dense r i * x r else 0 := by
    intro j _
    by_cases hj : j = i
    · rw [if_pos hj, if_pos hj, if_pos hj, zero_add]
    · rw [if_neg hj, if_neg hj, if_neg hj, add_zero]
  rw [Finset.sum_congr rfl hsplit, Finset.sum_congr rfl hcolumn, Finset.sum_add_distrib,
    Finset.sum_add_distrib, Finset.sum_ite_eq' (Finset.range A.cols) i fun _ => _,
    if_pos (Finset.mem_range.2 hi), hA.square]

end Exact

end Sparse

end Quasidefinite
