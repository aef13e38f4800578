import Mathlib.Algebra.BigOperators.Fin
import Mathlib.Data.Matrix.Mul
import Quasidefinite.Proofs.Summation

/-!
# What the operations on vectors compute

The operations that combine vectors answer exactly if the lengths agree (`Vec.axpby_eq_ok` and its
like). In exact arithmetic they are those of linear algebra on the vectors as functions (`vector`),
and the balanced sum is the sum of all terms (`Vec.treeSum_eq`).
-/

namespace Quasidefinite

/-! ## 1. Arrays of values -/

namespace Vec

section Arrays

variable {α : Type}

theorem copy_eq_ok {x src y : Array α} : copy x src = .ok y ↔ x.size = src.size ∧ src = y := by
  unfold copy
  simp [Checked.bind_eq_ok, Checked.require_eq_ok]

variable [Scalar α]

theorem axpby_eq_ok {x v y : Array α} {a b : α} : axpby x a v b = .ok y ↔
    x.size = v.size ∧ Array.zipWith (fun xi vi => a * vi + b * xi) x v = y := by
  unfold axpby
  simp [Checked.bind_eq_ok, Checked.require_eq_ok]

theorem waxpby_eq_ok {x v w y : Array α} {a b : α} : waxpby x a v b w = .ok y ↔
    x.size = v.size ∧ x.size = w.size ∧
      Array.zipWith (fun vi wi => a * vi + b * wi) v w = y := by
  unfold waxpby
  simp [Checked.bind_eq_ok, Checked.require_eq_ok]

theorem dot_eq_ok {x y : Array α} {s : α} : dot x y = .ok s ↔
    x.size = y.size ∧ treeSum (Array.zipWith (· * ·) x y) = s := by
  unfold dot
  simp [Checked.bind_eq_ok, Checked.require_eq_ok]

/-- The sum of the squares is the inner product of the vector with itself. -/
theorem dot_self (x : Array α) : dot x x = .ok (sumSquares x) := by
  rw [dot_eq_ok, Array.zipWith_self]
  exact ⟨rfl, rfl⟩

theorem size_axpby {x v y : Array α} {a b : α} (h : axpby x a v b = .ok y) : y.size = x.size := by
  obtain ⟨hsize, rfl⟩ := axpby_eq_ok.1 h
  simp [hsize]

theorem size_waxpby {x v w y : Array α} {a b : α} (h : waxpby x a v b w = .ok y) :
    y.size = x.size := by
  obtain ⟨hv, hw, rfl⟩ := waxpby_eq_ok.1 h
  simp [← hv, ← hw]

@[simp] theorem size_zeros (n : Nat) : (zeros n : Array α).size = n := by
  simp [zeros]

@[simp] theorem size_hadamard (x y : Array α) : (hadamard x y).size = x.size := by
  simp [hadamard]

@[simp] theorem size_recip (x : Array α) : (recip x).size = x.size := by
  simp [recip]

theorem isFinite_append (x y : Array α) : isFinite (x ++ y) = (isFinite x && isFinite y) := by
  simp [isFinite]

end Arrays

end Vec

/-! ## 2. Exact arithmetic -/

open scoped Scalar Matrix

variable {K : Type} [Field K] [LinearOrder K] [SquareRoot K]

/-- A vector as a function on its first `n` positions. -/
def vector (n : Nat) (b : Array K) (i : Fin n) : K := b.getD i 0

/-- The entries of an array that are positive and finite are positive. -/
theorem vector_pos {dual : Array K} {m : Nat} (hsize : dual.size = m)
    (hall : dual.all Scalar.isPositiveFinite = true) (i : Fin m) : 0 < vector m dual i := by
  have hi : (i : Nat) < dual.size := i.isLt.trans_eq hsize.symm
  rw [Array.all_eq_true_iff_forall_mem] at hall
  unfold vector
  rw [getD_of_lt _ _ _ hi]
  simpa using hall _ (Array.getElem_mem hi)

namespace Vec

section Entries

variable {n : Nat} {x v w y : Array K} {a b : K}

omit [LinearOrder K] [SquareRoot K] in
theorem vector_zipWith (f : K → K → K) (hx : x.size = n) (hv : v.size = n) :
    vector n (Array.zipWith f x v) = fun i => f (vector n x i) (vector n v i) := by
  funext i
  exact getD_zipWith f 0 0 0 (i.isLt.trans_eq hx.symm) (i.isLt.trans_eq hv.symm)

theorem vector_axpby (h : axpby x a v b = .ok y) (hx : x.size = n) :
    vector n y = a • vector n v + b • vector n x := by
  obtain ⟨hsize, rfl⟩ := axpby_eq_ok.1 h
  exact vector_zipWith _ hx (hsize.symm.trans hx)

theorem vector_waxpby (h : waxpby x a v b w = .ok y) (hx : x.size = n) :
    vector n y = a • vector n v + b • vector n w := by
  obtain ⟨hv, hw, rfl⟩ := waxpby_eq_ok.1 h
  exact vector_zipWith _ (hv.symm.trans hx) (hw.symm.trans hx)

omit [LinearOrder K] [SquareRoot K] in
theorem vector_mapOver (f : K → K) (hx : x.size = n) (hv : v.size = n) :
    vector n (mapOver f x v) = fun i => f (vector n v i) := by
  funext i
  have hi := i.isLt
  unfold vector
  rw [getD_of_lt _ _ _ (by rw [size_mapOver, hx]; exact hi),
    getD_of_lt _ _ _ (hi.trans_eq hv.symm)]
  simp [mapOver, overlay, hi.trans_eq hv.symm]

theorem vector_hadamard (hx : x.size = n) (hv : v.size = n) :
    vector n (hadamard x v) = vector n x * vector n v := by
  funext i
  have hi := i.isLt
  rw [Pi.mul_apply]
  unfold vector
  rw [getD_of_lt _ _ _ (by rw [size_hadamard, hx]; exact hi),
    getD_of_lt _ _ _ (hi.trans_eq hx.symm), getD_of_lt _ _ _ (hi.trans_eq hv.symm)]
  simp [hadamard, overlay, hi.trans_eq hv.symm]

omit [LinearOrder K] [SquareRoot K] in
theorem vector_map (f : K → K) (hx : x.size = n) :
    vector n (x.map f) = fun i => f (vector n x i) := by
  funext i
  exact getD_map f x 0 0 (i.isLt.trans_eq hx.symm)

theorem vector_recip (hx : x.size = n) : vector n (recip x) = (vector n x)⁻¹ := by
  rw [recip, vector_map _ hx]
  funext i
  rw [Scalar.exact_recip, Pi.inv_apply]

end Entries

/-! ## 3. Sums -/

omit [LinearOrder K] [SquareRoot K] in
theorem sequentialSum_range (term : Nat → K) (n : Nat) :
    sequentialSum term (List.range n) = ∑ i ∈ Finset.range n, term i := by
  unfold sequentialSum
  rw [← List.foldl_map, ← List.sum_eq_foldl, ← List.sum_toFinset _ List.nodup_range,
    List.toFinset_range]

/-- **The balanced sum is the sum of all terms.** -/
theorem treeSum_eq {terms : Array K} {n : Nat} (h : terms.size = n) :
    treeSum terms = ∑ i, vector n terms i := by
  rw [treeSum_eq_sequentialSum add_assoc add_zero, h, sequentialSum_range, Finset.sum_range]
  rfl

theorem dot_eq {x y : Array K} {n : Nat} (hx : x.size = n) (hy : y.size = n) :
    dot x y = .ok (vector n x ⬝ᵥ vector n y) := by
  rw [dot_eq_ok]
  refine ⟨hx.trans hy.symm, ?_⟩
  rw [treeSum_eq (n := n) (by simp [hx, hy]), vector_zipWith _ hx hy]
  rfl

theorem sumSquares_eq {x : Array K} {n : Nat} (hx : x.size = n) :
    sumSquares x = vector n x ⬝ᵥ vector n x :=
  Except.ok.inj ((dot_self x).symm.trans (dot_eq hx hx))

end Vec

end Quasidefinite
