import Mathlib.Tactic.FieldSimp
import Mathlib.Tactic.Ring
import Quasidefinite.Proofs.Factor.Sweep
import Quasidefinite.Proofs.Sparse.Dense

/-!
# What the factorization computes in exact arithmetic

The sweep solves, for every `k`, the equations

    M i k = ∑ c, (1 + L) i c * d c * (1 + L) k c        (i ≤ k)

for row `k` of `L` and for `d k`, and regularizes `d k` after that: what this adds to the pivot is
added to the diagonal of the matrix, and nothing else changes (`FactorPlan.shifted_entry_eq`, and
`FactorPlan.entry_eq` without regularization). Each equation needs the pivots before `k` only, so it
holds as far as the sweep has come, whatever the pivots after that.

The proof follows the elimination of row `k` through the columns of its reach. Once column `c` has
been taken out, the equation of a column still to come has lost the term of `c`, and the equation
of a column taken out before never had one: an entry of `L` in row `i` of column `c` makes `i` an
ancestor of `c`, and ancestors are eliminated later.
-/

namespace Quasidefinite

open scoped Scalar

variable {K : Type} [Field K] [LinearOrder K] [SquareRoot K]

/-! ## 1. Entries of the triangular factor -/

namespace FactorPlan

/-- Entry `(i, c)` of the triangular factor, without its unit diagonal. -/
def lowerAt (plan : FactorPlan K) (i c : Nat) : K :=
  coeff ((Sweep.View.after plan (i + 1)).column c) i

/-- Entry `(i, c)` of the triangular factor. -/
def unitLowerAt (plan : FactorPlan K) (i c : Nat) : K := (if i = c then 1 else 0) + plan.lowerAt i c

/-- What regularization adds to pivot `k`. -/
def shiftAt (plan : FactorPlan K) (k : Nat) : K := plan.pivotAt k - plan.rawAt k

variable {plan : FactorPlan K}

theorem shiftAt_of_none (h : plan.regularizer = none) (k : Nat) : plan.shiftAt k = 0 := by
  rw [shiftAt, pivotAt_of_none h, sub_self]

theorem coeff_column_step (hplan : plan.Proper) {i k : Nat} (hik : i ≠ k) (v : Sweep.View K)
    (c : Nat) : coeff ((v.step plan k).column c) i = coeff (v.column c) i := by
  unfold Sweep.View.step
  rw [Sweep.View.column_regularize]
  by_cases hc : c ∈ plan.reach k
  · obtain ⟨e, he⟩ :=
      Sweep.View.column_foldl_eliminate_of_mem k _ (hplan.nodup_reach k) hc (v.scattered plan k)
    rw [he, Sweep.View.scattered, Sweep.View.column_foldl_scatter]
    simp [Ne.symm hik]
  · rw [Sweep.View.column_foldl_eliminate_of_not_mem k _ hc, Sweep.View.scattered,
      Sweep.View.column_foldl_scatter]

/-- The entries of a row stay once they are found. -/
theorem coeff_column_after (hplan : plan.Proper) {i k : Nat} (hik : i < k) (c : Nat) :
    coeff ((Sweep.View.after plan k).column c) i = plan.lowerAt i c := by
  induction k with
  | zero => omega
  | succ k ih =>
    rcases Nat.lt_or_eq_of_le (Nat.lt_succ_iff.1 hik) with hlt | rfl
    · rw [Sweep.View.after, coeff_column_step hplan (Nat.ne_of_lt hlt), ih hlt]
    · rfl

/-- Rows not yet found are empty. -/
theorem coeff_column_after_of_le (hplan : plan.Proper) {i k : Nat} (hk : k ≤ plan.matrix.cols)
    (hki : k ≤ i) (c : Nat) : coeff ((Sweep.View.after plan k).column c) i = 0 := by
  refine coeff_of_not_mem fun hi => ?_
  obtain ⟨e, he, rfl⟩ := List.mem_map.1 hi
  have := (Sweep.View.sound_after hplan hk).lt_of_mem he
  omega

/-- An entry other than zero lies in the reach of its row. -/
theorem mem_reach_of_lowerAt_ne (hplan : plan.Proper) {i c : Nat} (hi : i < plan.matrix.cols)
    (h : plan.lowerAt i c ≠ 0) : c ∈ plan.reach i := by
  by_contra hc
  refine h (coeff_of_not_mem ?_)
  rw [(Sweep.View.sound_after hplan hi).rows_eq c, List.mem_filter]
  simp [hc]

theorem lowerAt_of_le (hplan : plan.Proper) {i c : Nat} (hi : i < plan.matrix.cols) (hic : i ≤ c) :
    plan.lowerAt i c = 0 := by
  by_contra h
  have := Forest.lt_of_mem_reach (mem_reach_of_lowerAt_ne hplan hi h)
  omega

/-! ## 2. The matrix, scattered -/

theorem row_foldl_scatter (M : Sparse K) {i k : Nat} (hik : i ≠ k) (ps : List Nat)
    (hnodup : (ps.map M.row).Nodup) (v : Sweep.View K) (hv : v.row i = 0) :
    (ps.foldl (Sweep.View.scatter M k) v).row i =
      coeff (ps.map fun p => (M.row p, M.val p)) i := by
  induction ps generalizing v with
  | nil => exact hv
  | cons p ps ih =>
    rw [List.map_cons, List.nodup_cons] at hnodup
    rw [List.foldl_cons, List.map_cons, coeff_cons]
    by_cases hp : M.row p = i
    · have hi : i ∉ ps.map M.row := hp ▸ hnodup.1
      rw [Sweep.View.row_foldl_scatter_of_not_mem M k ps hi, if_pos hp, coeff_of_not_mem (by
        simpa [Function.comp_def] using hi), Sweep.View.scatter, if_neg (by omega)]
      simp [hp]
    · rw [if_neg hp, zero_add]
      refine ih hnodup.2 _ ?_
      unfold Sweep.View.scatter
      split
      · exact hv
      · exact (Function.update_of_ne (Ne.symm hp) _ _).trans hv

theorem pivot_foldl_scatter (M : Sparse K) {k : Nat} (ps : List Nat)
    (hnodup : (ps.map M.row).Nodup) (v : Sweep.View K) (hv : v.pivot k = 0) :
    (ps.foldl (Sweep.View.scatter M k) v).pivot k =
      coeff (ps.map fun p => (M.row p, M.val p)) k := by
  induction ps generalizing v with
  | nil => exact hv
  | cons p ps ih =>
    rw [List.map_cons, List.nodup_cons] at hnodup
    rw [List.foldl_cons, List.map_cons, coeff_cons]
    by_cases hp : M.row p = k
    · have hk : k ∉ ps.map M.row := hp ▸ hnodup.1
      rw [Sweep.View.pivot_foldl_scatter_of_not_mem M ps hk, if_pos hp, coeff_of_not_mem (by
        simpa [Function.comp_def] using hk), Sweep.View.scatter, if_pos hp]
      simp
    · rw [if_neg hp, zero_add]
      refine ih hnodup.2 _ ?_
      unfold Sweep.View.scatter
      rw [if_neg hp]
      exact hv

/-! ## 3. The equations of a row -/

/-- The equations of row `k` after the columns `done` have been eliminated from them. -/
structure Eliminated (plan : FactorPlan K) (k : Nat) (done : List Nat) (w : Sweep.View K) :
    Prop where
  column_eq : ∀ c ∉ done, w.column c = (Sweep.View.after plan k).column c
  pivot_lt : ∀ c < k, w.pivot c = plan.pivotAt c
  row_eq : ∀ i < k, (if i ∈ done then plan.pivotAt i * coeff (w.column i) k else w.row i) =
    plan.matrix.dense i k -
      (done.map fun c => plan.lowerAt i c * (plan.pivotAt c * coeff (w.column c) k)).sum
  pivot_eq : w.pivot k = plan.matrix.dense k k -
    (done.map fun c => coeff (w.column c) k * (plan.pivotAt c * coeff (w.column c) k)).sum

theorem eliminated_scattered (hplan : plan.Proper)
    (hrows : ∀ j < plan.matrix.cols, (plan.matrix.rowsOf j).Nodup) {k : Nat}
    (hk : k < plan.matrix.cols) :
    Eliminated plan k [] ((Sweep.View.after plan k).scattered plan k) := by
  have hsound := Sweep.View.sound_after hplan (Nat.le_of_lt hk)
  exact
    { column_eq := fun c _ => by rw [Sweep.View.scattered, Sweep.View.column_foldl_scatter]
      pivot_lt := fun c hc => by
        unfold Sweep.View.scattered
        rw [Sweep.View.pivot_foldl_scatter_of_ne _ (Nat.ne_of_lt hc),
          Sweep.View.pivot_after_of_lt plan hc]
        rfl
      row_eq := fun i hi => by
        rw [if_neg List.not_mem_nil, List.map_nil, List.sum_nil, sub_zero]
        exact row_foldl_scatter _ (Nat.ne_of_lt hi) _ (hrows k hk) _ (hsound.row_eq i)
      pivot_eq := by
        rw [List.map_nil, List.sum_nil, sub_zero]
        exact pivot_foldl_scatter _ _ (hrows k hk) _ (hsound.pivot_eq k (Nat.le_refl k)) }

section Step

variable {k : Nat} {done todo : List Nat} {c : Nat} {w : Sweep.View K}

/-- Eliminating a column leaves the columns eliminated before as they are. -/
theorem column_eliminate_of_mem (hc : c ∉ done) {d : Nat} (hd : d ∈ done) :
    (w.eliminate k c).column d = w.column d := by
  rw [Sweep.View.column_eliminate, if_neg]
  rintro rfl
  exact hc hd

/-- A column eliminated before `c` is no ancestor of `c`, so it has no term for `c`. -/
theorem lowerAt_of_mem_done (hplan : plan.Proper) (hk : k < plan.matrix.cols)
    (hsplit : plan.reach k = done ++ c :: todo) {i : Nat} (hi : i ∈ done) :
    plan.lowerAt i c = 0 := by
  have hik : i < k := lt_of_mem_reach (by
    rw [hsplit]
    exact List.mem_append_left _ hi)
  have hin : i < plan.matrix.cols := Nat.lt_trans hik hk
  have hnodup := hplan.nodup_reach k
  rw [hsplit, List.nodup_append] at hnodup
  have hic : i ≠ c := hnodup.2.2 i hi c List.mem_cons_self
  by_contra hne
  have hmem := mem_reach_of_lowerAt_ne hplan hin hne
  have htodo := hplan.mem_todo hsplit (hplan.tree.above_of_mem_reach hin hmem) (Ne.symm hic) hik
  exact hnodup.2.2 i hi i (List.mem_cons_of_mem c htodo) rfl

namespace Eliminated

variable (h : Eliminated plan k done w)

include h

/-- The entry that eliminating `c` finds for row `k`. -/
theorem coeff_eliminate (hplan : plan.Proper) (hk : k < plan.matrix.cols) (hc : c ∉ done) :
    coeff ((w.eliminate k c).column c) k = w.row c * Scalar.recip (w.pivot c) := by
  rw [Sweep.View.column_eliminate, if_pos rfl, coeff_append, h.column_eq c hc,
    coeff_column_after_of_le hplan (Nat.le_of_lt hk) (Nat.le_refl k)]
  simp

/-- The new entry, times the pivot of its column, is what the row held. -/
theorem pivot_mul_coeff (hplan : plan.Proper) (hk : k < plan.matrix.cols) (hc : c ∉ done)
    (hck : c < k) (hpivot : plan.pivotAt c ≠ 0) :
    plan.pivotAt c * coeff ((w.eliminate k c).column c) k = w.row c := by
  rw [h.coeff_eliminate hplan hk hc, h.pivot_lt c hck, Scalar.exact_recip]
  field_simp

/-- With one more column eliminated the sums have one more term. -/
theorem sum_concat (hplan : plan.Proper) (hk : k < plan.matrix.cols) (hc : c ∉ done)
    (hck : c < k) (hpivot : plan.pivotAt c ≠ 0) (f : Nat → K) :
    ((done ++ [c]).map fun d =>
        f d * (plan.pivotAt d * coeff ((w.eliminate k c).column d) k)).sum =
      (done.map fun d => f d * (plan.pivotAt d * coeff (w.column d) k)).sum + f c * w.row c := by
  rw [List.map_append, List.sum_append, List.map_singleton, List.sum_singleton,
    h.pivot_mul_coeff hplan hk hc hck hpivot]
  congr 2
  exact List.map_congr_left fun d hd => by rw [column_eliminate_of_mem hc hd]

/-- Eliminating one more column keeps the equations. -/
theorem step (hplan : plan.Proper) (hk : k < plan.matrix.cols)
    (hsplit : plan.reach k = done ++ c :: todo) (hpivot : plan.pivotAt c ≠ 0) :
    Eliminated plan k (done ++ [c]) (w.eliminate k c) := by
  have hck : c < k := lt_of_mem_reach (by
    rw [hsplit]
    simp)
  have hdone : c ∉ done := Sweep.not_mem_done hplan hsplit
  have hsum := h.sum_concat hplan hk hdone hck hpivot
  refine { column_eq := ?_, pivot_lt := ?_, row_eq := ?_, pivot_eq := ?_ }
  · intro d hd
    rw [List.mem_append, List.mem_singleton, not_or] at hd
    rw [Sweep.View.column_eliminate, if_neg hd.2, h.column_eq d hd.1]
  · intro d hd
    exact (Function.update_of_ne (Nat.ne_of_lt hd) _ _).trans (h.pivot_lt d hd)
  · intro i hi
    have hrow := h.row_eq i hi
    rw [hsum]
    by_cases hic : i = c
    · -- the column just eliminated
      subst hic
      rw [if_neg hdone] at hrow
      rw [if_pos (by simp), h.pivot_mul_coeff hplan hk hdone hck hpivot,
        lowerAt_of_le hplan (Nat.lt_trans hi hk) (Nat.le_refl i), hrow]
      ring
    · by_cases hid : i ∈ done
      · -- a column eliminated before
        rw [if_pos hid] at hrow
        rw [if_pos (List.mem_append_left [c] hid), column_eliminate_of_mem hdone hid, hrow,
          lowerAt_of_mem_done hplan hk hsplit hid]
        ring
      · -- a column still to come loses the term of `c`
        rw [if_neg hid] at hrow
        rw [if_neg (by simp [hid, hic]), Sweep.View.eliminate]
        dsimp only
        rw [Function.update_of_ne hic, subtractEntries_eq, hrow, h.column_eq c hdone,
          coeff_column_after hplan hi]
        ring
  · have hlast : (w.eliminate k c).pivot k =
        w.pivot k - w.row c * coeff ((w.eliminate k c).column c) k := by
      rw [h.coeff_eliminate hplan hk hdone]
      exact Function.update_self _ _ _
    have hterms : (done.map fun d => coeff ((w.eliminate k c).column d) k *
        (plan.pivotAt d * coeff (w.column d) k)) =
        done.map fun d => coeff (w.column d) k * (plan.pivotAt d * coeff (w.column d) k) :=
      List.map_congr_left fun d hd => by rw [column_eliminate_of_mem hdone hd]
    rw [hlast, h.pivot_eq, hsum, hterms]
    ring

end Eliminated

end Step

/-- **The equations of row `k`**, when all columns in its reach have been eliminated. -/
theorem eliminated_reach (hplan : plan.Proper)
    (hrows : ∀ j < plan.matrix.cols, (plan.matrix.rowsOf j).Nodup) {k : Nat}
    (hk : k < plan.matrix.cols) (hpivots : ∀ c < k, plan.pivotAt c ≠ 0) :
    Eliminated plan k (plan.reach k)
      ((plan.reach k).foldl (Sweep.View.eliminate k)
        ((Sweep.View.after plan k).scattered plan k)) := by
  suffices h : ∀ done todo, plan.reach k = done ++ todo → Eliminated plan k done
      (done.foldl (Sweep.View.eliminate k) ((Sweep.View.after plan k).scattered plan k)) from
    h _ [] (List.append_nil _).symm
  intro done
  induction done using List.reverseRecOn with
  | nil => exact fun _ _ => eliminated_scattered hplan hrows hk
  | append_singleton done c ih =>
    intro todo hsplit
    rw [List.append_assoc, List.singleton_append] at hsplit
    have hck : c < k := lt_of_mem_reach (by
      rw [hsplit]
      simp)
    rw [List.foldl_append]
    exact (ih (c :: todo) hsplit).step hplan hk hsplit (hpivots c hck)

/-! ## 4. The equations of the factorization -/

/-- A sum over the reach of row `k` is a sum over all columns. -/
theorem sum_reach (hplan : plan.Proper) {k : Nat} (hk : k < plan.matrix.cols) (f : Nat → K) :
    ((plan.reach k).map fun c => f c * (plan.pivotAt c * plan.lowerAt k c)).sum =
      ∑ c ∈ Finset.range plan.matrix.cols, f c * (plan.pivotAt c * plan.lowerAt k c) := by
  rw [← List.sum_toFinset _ (hplan.nodup_reach k)]
  refine Finset.sum_subset ?_ ?_
  · intro c hc
    have := lt_of_mem_reach (List.mem_toFinset.1 hc)
    exact Finset.mem_range.2 (by omega)
  · intro c _ hc
    have hzero : plan.lowerAt k c = 0 := by
      by_contra hne
      exact hc (List.mem_toFinset.2 (mem_reach_of_lowerAt_ne hplan hk hne))
    rw [hzero, mul_zero, mul_zero]

/-- The entries of row `k`, before they are weighed with the pivots. -/
theorem equations (hplan : plan.Proper)
    (hrows : ∀ j < plan.matrix.cols, (plan.matrix.rowsOf j).Nodup) {k : Nat}
    (hk : k < plan.matrix.cols) (hpivots : ∀ c < k, plan.pivotAt c ≠ 0) :
    (∀ i < k, plan.pivotAt i * plan.lowerAt k i = plan.matrix.dense i k -
      ∑ c ∈ Finset.range plan.matrix.cols,
        plan.lowerAt i c * (plan.pivotAt c * plan.lowerAt k c)) ∧
    plan.rawAt k = plan.matrix.dense k k -
      ∑ c ∈ Finset.range plan.matrix.cols,
        plan.lowerAt k c * (plan.pivotAt c * plan.lowerAt k c) := by
  have h := eliminated_reach hplan hrows hk hpivots
  -- regularization changes the pivot alone
  have hcolumns : ((plan.reach k).foldl (Sweep.View.eliminate k)
      ((Sweep.View.after plan k).scattered plan k)).column =
        (Sweep.View.after plan (k + 1)).column := (Sweep.View.column_regularize plan k _).symm
  have hrest : ((plan.reach k).foldl (Sweep.View.eliminate k)
      ((Sweep.View.after plan k).scattered plan k)).row = (Sweep.View.after plan (k + 1)).row :=
    (Sweep.View.row_regularize plan k _).symm
  have hsound := Sweep.View.sound_after hplan hk
  constructor
  · intro i hi
    have hrow := h.row_eq i hi
    rw [hcolumns, hrest] at hrow
    rw [show ((plan.reach k).map fun c => plan.lowerAt i c *
      (plan.pivotAt c * coeff ((Sweep.View.after plan (k + 1)).column c) k)).sum = _ from
        sum_reach hplan hk fun c => plan.lowerAt i c] at hrow
    rw [← hrow]
    split
    · rfl
    · rename_i hni
      rw [hsound.row_eq i, lowerAt, coeff_of_not_mem, mul_zero]
      rw [hsound.rows_eq i, List.mem_filter]
      simp [hni]
  · rw [← sum_reach hplan hk fun c => plan.lowerAt k c]
    have hpivot := h.pivot_eq
    rw [hcolumns] at hpivot
    exact hpivot

/-- **The equations of the factorization**: entry `(i, k)` of the matrix, with what regularization
    adds to the pivot on the diagonal, as far as the pivots before `k` do not vanish. -/
theorem shifted_entry_eq (hplan : plan.Proper)
    (hrows : ∀ j < plan.matrix.cols, (plan.matrix.rowsOf j).Nodup) {i k : Nat} (hik : i ≤ k)
    (hk : k < plan.matrix.cols) (hpivots : ∀ c < k, plan.pivotAt c ≠ 0) :
    ∑ c ∈ Finset.range plan.matrix.cols,
      plan.unitLowerAt i c * plan.pivotAt c * plan.unitLowerAt k c =
        plan.matrix.dense i k + if i = k then plan.shiftAt k else 0 := by
  have hin : i < plan.matrix.cols := by omega
  have hexpand : ∀ c, plan.unitLowerAt i c * plan.pivotAt c * plan.unitLowerAt k c =
      plan.lowerAt i c * (plan.pivotAt c * plan.lowerAt k c) +
        (if i = c then plan.pivotAt c * plan.lowerAt k c else 0) +
        (if k = c then plan.pivotAt c * plan.lowerAt i c else 0) +
        (if k = c then (if i = c then plan.pivotAt c else 0) else 0) := by
    intro c
    rw [unitLowerAt, unitLowerAt]
    split_ifs <;> ring
  obtain ⟨hrow, hdiag⟩ := equations hplan hrows hk hpivots
  rw [Finset.sum_congr rfl fun c _ => hexpand c]
  simp only [Finset.sum_add_distrib, Finset.sum_ite_eq, Finset.mem_range, hk, hin, if_true]
  rw [lowerAt_of_le hplan hin hik]
  rcases Nat.lt_or_eq_of_le hik with hlt | rfl
  · rw [if_neg (Nat.ne_of_lt hlt), if_neg (Nat.ne_of_lt hlt), hrow i hlt]
    ring
  · rw [if_pos rfl, if_pos rfl, lowerAt_of_le hplan hk (Nat.le_refl i), shiftAt, hdiag]
    ring

/-- The equations of the factorization without regularization. -/
theorem entry_eq (hplan : plan.Proper) (hreg : plan.regularizer = none)
    (hrows : ∀ j < plan.matrix.cols, (plan.matrix.rowsOf j).Nodup) {i k : Nat} (hik : i ≤ k)
    (hk : k < plan.matrix.cols) (hpivots : ∀ c < k, plan.pivotAt c ≠ 0) :
    ∑ c ∈ Finset.range plan.matrix.cols,
      plan.unitLowerAt i c * plan.pivotAt c * plan.unitLowerAt k c = plan.matrix.dense i k := by
  rw [shifted_entry_eq hplan hrows hik hk hpivots, shiftAt_of_none hreg, ite_self, add_zero]

end FactorPlan

end Quasidefinite
