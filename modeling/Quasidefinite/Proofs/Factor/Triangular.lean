import Mathlib.Tactic.Ring
import Quasidefinite.Factor.Triangular
import Quasidefinite.Proofs.Sparse.Product

/-!
# What the triangular solves compute

On a shaped triangular factor the solves answer in every arithmetic, and what they answer is a
plain recursion on the vector as a function (`lowerSweep`, `upperSweep`, `factorSweep`). In exact
arithmetic, and for a factor whose entries lie below the diagonal, they undo `I + L`, its
transpose, and `(I + L) diag(d) (I + L)ᵀ` (`factorSweep_eq`).
-/

namespace Quasidefinite

namespace Sparse

/-! ## 1. The solves as functions -/

section Functions

variable {α : Type} [Scalar α]

/-- The first `n` steps of the solution with `I + L`. -/
def lowerSweep (L : Sparse α) (n : Nat) (x : Nat → α) : Nat → α :=
  (List.range n).foldl (fun x i => subtractEntries (x i) (L.entries i) x) x

/-- The solution with the transpose of `I + L`, from row `n` down. -/
def upperSweep (L : Sparse α) : Nat → (Nat → α) → Nat → α
  | 0, x => x
  | n + 1, x => upperSweep L n (Function.update x n (x n - dotEntries (L.entries n) x))

/-- The solution with both factors and the reciprocals of the pivots. -/
def factorSweep (L : Sparse α) (n : Nat) (inverse x : Nat → α) : Nat → α :=
  L.upperSweep n fun i => if i < n then L.lowerSweep n x i * inverse i else 0

theorem getD_hadamard {n : Nat} {x y : Array α} (hx : x.size = n) (hy : y.size = n) :
    (fun i => (Vec.hadamard x y).getD i 0) =
      fun i => if i < n then x.getD i 0 * y.getD i 0 else 0 := by
  funext i
  by_cases hi : i < n
  · have hix : i < x.size := hx ▸ hi
    have hiy : i < y.size := hy ▸ hi
    rw [if_pos hi, getD_of_lt _ _ _ hix, getD_of_lt _ _ _ hiy,
      getD_of_lt _ _ _ (by simpa [Vec.hadamard] using hix)]
    simp [Vec.hadamard, Vec.overlay, hiy]
  · rw [if_neg hi, getD_of_le]
    simp [Vec.hadamard, hx, Nat.le_of_not_lt hi]

variable {L : Sparse α} (hL : L.Shaped) (hsquare : L.rows = L.cols)

include hL hsquare

theorem Shaped.exists_lowerSolve {b : Array α} (hb : b.size = L.cols) :
    ∃ x, L.lowerSolve b = .ok x ∧ x.size = L.cols ∧
      (fun i => x.getD i 0) = L.lowerSweep L.cols fun i => b.getD i 0 := by
  unfold lowerSolve
  rw [hb]
  refine Checked.exists_foldRange
    (fun k (x : Array α) => x.size = L.cols ∧
      (fun i => x.getD i 0) = L.lowerSweep k fun i => b.getD i 0)
    _ 0 L.cols b (Nat.zero_le _) ⟨hb, rfl⟩ ?_
  rintro i x - hi ⟨hsize, heq⟩
  have hrows : ∀ e ∈ L.entries i, e.1 < x.size := fun e he => by
    rw [hsize]
    exact hsquare ▸ hL.fst_lt_of_mem_entries hi e he
  obtain ⟨y, hrun, hsize', heq'⟩ := exists_subtractEntries (x.getD i 0) (L.entries i) x hrows
  refine ⟨y, ?_, hsize'.trans hsize, ?_⟩
  · unfold eliminateEntry
    rw [Checked.entry_eq _ _ 0 (hsize ▸ hi), Checked.ok_bind, hL.column_eq hi, Checked.ok_bind]
    exact hrun
  · rw [heq', lowerSweep, List.range_succ, List.foldl_append, List.foldl_cons, List.foldl_nil]
    have hi := congrFun heq i
    rw [heq]
    exact congrArg (fun y => subtractEntries y _ _) hi

theorem Shaped.exists_upperSolve {b : Array α} (hb : b.size = L.cols) :
    ∃ x, L.upperSolve b = .ok x ∧ x.size = L.cols ∧
      (fun i => x.getD i 0) = L.upperSweep L.cols fun i => b.getD i 0 := by
  unfold upperSolve
  rw [hb]
  refine Checked.exists_foldDown
    (fun k (x : Array α) => x.size = L.cols ∧
      L.upperSweep k (fun i => x.getD i 0) = L.upperSweep L.cols fun i => b.getD i 0)
    _ L.cols b ⟨hb, rfl⟩ ?_
  rintro i x hi ⟨hsize, heq⟩
  have hix : i < x.size := hsize ▸ hi
  refine ⟨x.set i (x.getD i 0 - dotEntries (L.entries i) fun i => x.getD i 0) hix, ?_, ?_, ?_⟩
  · unfold substituteEntry
    rw [hL.columnDot_eq hi (hsize.trans hsquare.symm), Checked.ok_bind,
      Checked.adjust_eq _ _ _ 0 hix]
  · rw [Array.size_set, hsize]
  · rw [getD_set_eq_update]
    exact heq

/-- **The solve with all factors answers** in every arithmetic. -/
theorem Shaped.exists_factorSolve {inverse b : Array α} (hinverse : inverse.size = L.cols)
    (hb : b.size = L.cols) :
    ∃ x, L.factorSolve inverse b = .ok x ∧ x.size = L.cols ∧
      (fun i => x.getD i 0) =
        L.factorSweep L.cols (fun i => inverse.getD i 0) fun i => b.getD i 0 := by
  obtain ⟨y, hy, hsize, heq⟩ := hL.exists_lowerSolve hsquare hb
  obtain ⟨x, hx, hsize', heq'⟩ := hL.exists_upperSolve hsquare
    (b := Vec.hadamard y inverse) (by simpa [Vec.hadamard] using hsize)
  refine ⟨x, by rw [factorSolve, hy, Checked.ok_bind, hx], hsize', ?_⟩
  rw [heq', getD_hadamard hsize hinverse, factorSweep, ← heq]

end Functions

/-! ## 2. Exact arithmetic -/

section Exact

open scoped Scalar

variable {K : Type} [Field K] [LinearOrder K] [SquareRoot K] {L : Sparse K}

theorem lowerSweep_eq (hL : L.StrictLower) {n : Nat} (hn : n ≤ L.cols) (b : Nat → K) (r : Nat) :
    L.lowerSweep n b r = b r - ∑ c ∈ Finset.range n, L.dense r c * L.lowerSweep n b c := by
  induction n generalizing r with
  | zero => simp [lowerSweep]
  | succ n ih =>
    have hstep : ∀ r, L.lowerSweep (n + 1) b r =
        L.lowerSweep n b r - L.dense r n * L.lowerSweep n b n := by
      intro r
      unfold lowerSweep
      rw [List.range_succ, List.foldl_append]
      exact subtractEntries_eq _ _ _ _
    -- the entries solved for before are final
    have hfinal : ∀ c ≤ n, L.lowerSweep (n + 1) b c = L.lowerSweep n b c := by
      intro c hc
      rw [hstep, hL.dense_eq_zero hn hc, zero_mul, sub_zero]
    have hsum : ∑ c ∈ Finset.range n, L.dense r c * L.lowerSweep (n + 1) b c =
        ∑ c ∈ Finset.range n, L.dense r c * L.lowerSweep n b c :=
      Finset.sum_congr rfl fun c hc => by
        rw [hfinal c (Nat.le_of_lt (Finset.mem_range.1 hc))]
    rw [Finset.sum_range_succ, hsum, hfinal n (Nat.le_refl n), hstep r,
      ih (Nat.le_of_succ_le hn) r]
    ring

theorem upperSweep_of_le {n r : Nat} (hr : n ≤ r) (x : Nat → K) : L.upperSweep n x r = x r := by
  induction n generalizing x with
  | zero => rfl
  | succ n ih =>
    rw [upperSweep, ih (Nat.le_of_succ_le hr), Function.update_of_ne (Nat.ne_of_gt hr)]

/-- The solution with the transpose of `I + L`. -/
theorem upperSweep_eq (hshaped : L.Shaped) (hL : L.StrictLower) {n : Nat} (hn : n ≤ L.cols)
    (x : Nat → K) {c : Nat} (hc : c < n) :
    L.upperSweep n x c =
      x c - ∑ r ∈ Finset.range L.rows, L.dense r c * L.upperSweep n x r := by
  induction n generalizing x with
  | zero => omega
  | succ n ih =>
    rw [upperSweep]
    rcases Nat.lt_or_eq_of_le (Nat.lt_succ_iff.1 hc) with hlt | rfl
    · rw [ih (Nat.le_of_succ_le hn) _ hlt, Function.update_of_ne (Nat.ne_of_lt hlt)]
    · rw [upperSweep_of_le (Nat.le_refl c), Function.update_self, dotEntries_eq,
        hshaped.sum_column hn]
      congr 1
      refine Finset.sum_congr rfl fun r _ => ?_
      rcases Nat.lt_or_ge c r with hcr | hcr
      · rw [upperSweep_of_le (Nat.le_of_lt hcr), Function.update_of_ne (Nat.ne_of_gt hcr)]
      · rw [hL.dense_eq_zero hn hcr, zero_mul, zero_mul]

/-- Entry `(i, c)` of a triangular factor with its unit diagonal. -/
def unitLower (L : Sparse K) (i c : Nat) : K := (if i = c then 1 else 0) + L.dense i c

theorem sum_unitLower_mul {n i : Nat} (hi : i < n) (x : Nat → K) :
    ∑ c ∈ Finset.range n, L.unitLower i c * x c =
      x i + ∑ c ∈ Finset.range n, L.dense i c * x c := by
  simp [unitLower, add_mul, Finset.sum_add_distrib, hi]

theorem sum_mul_unitLower {n c : Nat} (hc : c < n) (x : Nat → K) :
    ∑ i ∈ Finset.range n, L.unitLower i c * x i =
      x c + ∑ i ∈ Finset.range n, L.dense i c * x i := by
  simp [unitLower, add_mul, Finset.sum_add_distrib, hc]

/-- **The solve with all factors undoes their product.** -/
theorem factorSweep_eq (hshaped : L.Shaped) (hsquare : L.rows = L.cols) (hL : L.StrictLower)
    (d inverse : Nat → K) (hd : ∀ c < L.cols, d c * inverse c = 1) (b : Nat → K) {r : Nat}
    (hr : r < L.cols) :
    ∑ c ∈ Finset.range L.cols, L.unitLower r c * (d c *
      ∑ j ∈ Finset.range L.cols, L.unitLower j c * L.factorSweep L.cols inverse b j) = b r := by
  have hupper : ∀ c < L.cols, d c * ∑ j ∈ Finset.range L.cols,
      L.unitLower j c * L.factorSweep L.cols inverse b j = L.lowerSweep L.cols b c := by
    intro c hc
    have hsolve := upperSweep_eq hshaped hL (Nat.le_refl _)
      (fun i => if i < L.cols then L.lowerSweep L.cols b i * inverse i else 0) hc
    rw [hsquare] at hsolve
    rw [sum_mul_unitLower hc, factorSweep, hsolve, sub_add_cancel, if_pos hc, mul_left_comm,
      hd c hc, mul_one]
  rw [Finset.sum_congr rfl fun c hc => by rw [hupper c (Finset.mem_range.1 hc)],
    sum_unitLower_mul hr, lowerSweep_eq hL (Nat.le_refl _) b r, sub_add_cancel]

end Exact

end Sparse

end Quasidefinite
