import Mathlib.Data.Nat.Count
import Quasidefinite.Factor.Numeric
import Quasidefinite.Proofs.Factor.Tree
import Quasidefinite.Proofs.Sparse.Slots

/-!
# The factorization without its buffers

A sweep keeps what it has found in buffers: the entries of a column of the triangular factor lie in
the slots before the next free one, and what the other slots hold is left over from earlier
sweeps. `Sweep.View` is what a sweep has found, the buffers apart, and `View.after plan k` is the
view after `k` columns, as a plain recursion on `k`: it depends on the plan alone.

`View.sound_after` says for every arithmetic what the view looks like between two columns: column
`c` of the factor has an entry in exactly those rows in whose reach `c` lies, in ascending order;
each of these rows is an ancestor of `c`; and the row being solved for is zero again. The last
point is where the order of the reach counts: what the elimination of a column changes belongs to
ancestors, which are still to come.
-/

namespace Quasidefinite

variable {α : Type} [Scalar α]

/-- The columns of the factor that have an entry in row `k`, in the order of elimination. -/
def FactorPlan.reach (plan : FactorPlan α) (k : Nat) : List Nat :=
  Forest.reach plan.tree.par k (plan.matrix.rowsOf k)

omit [Scalar α] in
theorem FactorPlan.lt_of_mem_reach {plan : FactorPlan α} {k c : Nat} (h : c ∈ plan.reach k) :
    c < k := Forest.lt_of_mem_reach h

namespace Sweep

/-- What a sweep has found. -/
structure View (α : Type) where
  /-- The entries of each column of the triangular factor. -/
  column : Nat → List (Nat × α)
  /-- The pivots. -/
  pivot : Nat → α
  /-- The row being solved for. -/
  row : Nat → α

namespace View

/-! ## 1. The steps -/

/-- Scatters the entry at position `p` of column `k`. -/
def scatter (M : Sparse α) (k : Nat) (v : View α) (p : Nat) : View α :=
  if M.row p = k then { v with pivot := Function.update v.pivot k (M.val p) }
  else { v with row := Function.update v.row (M.row p) (M.val p) }

/-- Finds the entry of row `k` in column `c`. -/
def eliminate (k : Nat) (v : View α) (c : Nat) : View α :=
  let y := v.row c
  let e := y * Scalar.recip (v.pivot c)
  { column := Function.update v.column c (v.column c ++ [(k, e)])
    pivot := Function.update v.pivot k (v.pivot k - y * e)
    row := Function.update (subtractEntries y (v.column c) v.row) c 0 }

/-- Regularizes pivot `k`. -/
def regularize (plan : FactorPlan α) (k : Nat) (v : View α) : View α :=
  match plan.regularizer with
  | none => v
  | some r =>
    { v with
      pivot := Function.update v.pivot k (regularized r (plan.signs.getD k 0) (v.pivot k)) }

/-- The view with column `k` of the matrix scattered. -/
def scattered (plan : FactorPlan α) (k : Nat) (v : View α) : View α :=
  (plan.matrix.positions k).foldl (scatter plan.matrix k) v

/-- Completes row `k` and its pivot. -/
def step (plan : FactorPlan α) (k : Nat) (v : View α) : View α :=
  ((plan.reach k).foldl (eliminate k) (v.scattered plan k)).regularize plan k

/-- Nothing has been found. -/
def blank : View α where
  column _ := []
  pivot _ := 0
  row _ := 0

/-- The view after `k` columns. -/
def after (plan : FactorPlan α) : Nat → View α
  | 0 => blank
  | k + 1 => (after plan k).step plan k

/-! ## 2. What a step leaves alone -/

theorem column_scatter (M : Sparse α) (k : Nat) (v : View α) (p : Nat) :
    (v.scatter M k p).column = v.column := by
  unfold scatter
  split <;> rfl

theorem column_foldl_scatter (M : Sparse α) (k : Nat) (ps : List Nat) (v : View α) :
    (ps.foldl (scatter M k) v).column = v.column := by
  induction ps generalizing v with
  | nil => rfl
  | cons p ps ih => rw [List.foldl_cons, ih, column_scatter]

theorem pivot_foldl_scatter_of_ne (M : Sparse α) {k i : Nat} (hi : i ≠ k) (ps : List Nat)
    (v : View α) : (ps.foldl (scatter M k) v).pivot i = v.pivot i := by
  induction ps generalizing v with
  | nil => rfl
  | cons p ps ih =>
    rw [List.foldl_cons, ih, scatter]
    split
    · exact Function.update_of_ne hi _ _
    · rfl

theorem pivot_foldl_scatter_of_not_mem (M : Sparse α) {k : Nat} (ps : List Nat)
    (hk : k ∉ ps.map M.row) (v : View α) : (ps.foldl (scatter M k) v).pivot = v.pivot := by
  induction ps generalizing v with
  | nil => rfl
  | cons p ps ih =>
    rw [List.map_cons, List.mem_cons, not_or] at hk
    rw [List.foldl_cons, ih hk.2, scatter, if_neg (Ne.symm hk.1)]

theorem row_foldl_scatter_of_not_mem (M : Sparse α) (k : Nat) {i : Nat} (ps : List Nat)
    (hi : i ∉ ps.map M.row) (v : View α) : (ps.foldl (scatter M k) v).row i = v.row i := by
  induction ps generalizing v with
  | nil => rfl
  | cons p ps ih =>
    rw [List.map_cons, List.mem_cons, not_or] at hi
    rw [List.foldl_cons, ih hi.2, scatter]
    split
    · rfl
    · exact Function.update_of_ne hi.1 _ _

theorem column_eliminate (k : Nat) (v : View α) (c d : Nat) : (v.eliminate k c).column d =
    if d = c then v.column c ++ [(k, v.row c * Scalar.recip (v.pivot c))] else v.column d :=
  Function.update_apply _ _ _ _

theorem length_column_eliminate (k : Nat) (v : View α) (c d : Nat) :
    ((v.eliminate k c).column d).length =
      if d = c then (v.column c).length + 1 else (v.column d).length := by
  rw [column_eliminate]
  split
  · rw [List.length_append, List.length_singleton]
  · rfl

theorem pivot_foldl_eliminate_of_ne {k i : Nat} (hi : i ≠ k) (cs : List Nat) (v : View α) :
    (cs.foldl (eliminate k) v).pivot i = v.pivot i := by
  induction cs generalizing v with
  | nil => rfl
  | cons c cs ih =>
    rw [List.foldl_cons, ih]
    exact Function.update_of_ne hi _ _

theorem column_foldl_eliminate_of_not_mem (k : Nat) {c : Nat} (cs : List Nat) (hc : c ∉ cs)
    (v : View α) : (cs.foldl (eliminate k) v).column c = v.column c := by
  induction cs generalizing v with
  | nil => rfl
  | cons d cs ih =>
    rw [List.mem_cons, not_or] at hc
    rw [List.foldl_cons, ih hc.2]
    exact Function.update_of_ne hc.1 _ _

/-- Elimination adds one entry, in row `k`, to each column it visits. -/
theorem column_foldl_eliminate_of_mem (k : Nat) {c : Nat} (cs : List Nat) (hnodup : cs.Nodup)
    (hc : c ∈ cs) (v : View α) :
    ∃ e, (cs.foldl (eliminate k) v).column c = v.column c ++ [(k, e)] := by
  induction cs generalizing v with
  | nil => cases hc
  | cons d cs ih =>
    obtain ⟨hd, hnodup⟩ := List.nodup_cons.1 hnodup
    rw [List.foldl_cons]
    rcases List.mem_cons.1 hc with rfl | hcs
    · refine ⟨v.row c * Scalar.recip (v.pivot c), ?_⟩
      rw [column_foldl_eliminate_of_not_mem k cs hd]
      exact Function.update_self _ _ _
    · obtain ⟨e, he⟩ := ih hnodup hcs (v.eliminate k d)
      have hcd : c ≠ d := by
        rintro rfl
        exact hd hcs
      refine ⟨e, ?_⟩
      rw [he, column_eliminate, if_neg hcd]

@[simp] theorem column_regularize (plan : FactorPlan α) (k : Nat) (v : View α) :
    (v.regularize plan k).column = v.column := by
  unfold regularize
  split <;> rfl

@[simp] theorem row_regularize (plan : FactorPlan α) (k : Nat) (v : View α) :
    (v.regularize plan k).row = v.row := by
  unfold regularize
  split <;> rfl

theorem pivot_regularize_of_ne (plan : FactorPlan α) {k i : Nat} (hi : i ≠ k) (v : View α) :
    (v.regularize plan k).pivot i = v.pivot i := by
  unfold regularize
  split
  · rfl
  · exact Function.update_of_ne hi _ _

theorem pivot_step_of_ne (plan : FactorPlan α) {k i : Nat} (hi : i ≠ k) (v : View α) :
    (v.step plan k).pivot i = v.pivot i := by
  unfold step
  rw [pivot_regularize_of_ne plan hi, pivot_foldl_eliminate_of_ne hi, scattered,
    pivot_foldl_scatter_of_ne _ hi]

/-- **Pivots stay once they are found.** -/
theorem pivot_after_of_lt (plan : FactorPlan α) {i k : Nat} (hi : i < k) :
    (after plan k).pivot i = (after plan (i + 1)).pivot i := by
  induction k with
  | zero => omega
  | succ k ih =>
    rcases Nat.lt_or_eq_of_le (Nat.lt_succ_iff.1 hi) with hlt | rfl
    · rw [after, pivot_step_of_ne plan (Nat.ne_of_lt hlt), ih hlt]
    · rfl

end View

end Sweep

/-! ## 3. Plans in good form -/

/-- The plan of a shaped upper triangle with its tree. -/
structure FactorPlan.Proper (plan : FactorPlan α) : Prop where
  shaped : plan.matrix.Shaped
  upper : plan.matrix.Upper
  tree : EliminationTree.TreeOf plan.matrix plan.tree
  size_signs : plan.signs.size = plan.matrix.cols

namespace FactorPlan.Proper

variable {plan : FactorPlan α} (h : plan.Proper)

include h

omit [Scalar α]

theorem nodup_reach (k : Nat) : (plan.reach k).Nodup := Forest.nodup_reach h.tree.increasing _

theorem length_reach_le {k : Nat} (hk : k ≤ plan.matrix.cols) :
    (plan.reach k).length ≤ plan.matrix.cols :=
  Nat.le_trans (Forest.length_reach_le h.tree.increasing _) hk

/-- An ancestor, before `k`, of a column in the reach is eliminated after it. -/
theorem mem_todo {k : Nat} {done todo : List Nat} {c i : Nat}
    (hsplit : plan.reach k = done ++ c :: todo) (hci : Forest.Above plan.tree.par c i)
    (hne : c ≠ i) (hik : i < k) : i ∈ todo := by
  have hpair := Forest.pairwise_reach (k := k) h.tree.increasing (plan.matrix.rowsOf k)
  have hmem : i ∈ plan.reach k := by
    refine Forest.mem_reach_of_above h.tree.increasing (x := c) ?_ hci hik
    show c ∈ plan.reach k
    rw [hsplit]
    simp
  rw [show Forest.reach plan.tree.par k (plan.matrix.rowsOf k) = done ++ c :: todo from hsplit,
    List.pairwise_append] at hpair
  rw [hsplit, List.mem_append, List.mem_cons] at hmem
  rcases hmem with hdone | rfl | htodo
  · exact absurd hci (hpair.2.2 i hdone c List.mem_cons_self)
  · exact absurd rfl hne
  · exact htodo

end FactorPlan.Proper

/-! ## 4. The view between two columns -/

namespace Sweep.View

/-- What is known of the view after `k` columns in every arithmetic. -/
structure Sound (plan : FactorPlan α) (k : Nat) (v : View α) : Prop where
  rows_eq : ∀ c, (v.column c).map Prod.fst = (List.range k).filter fun i => c ∈ plan.reach i
  above : ∀ c, ∀ e ∈ v.column c, c < e.1 ∧ Forest.Above plan.tree.par c e.1
  row_eq : ∀ i, v.row i = 0
  pivot_eq : ∀ i, k ≤ i → v.pivot i = 0

theorem Sound.lt_of_mem {plan : FactorPlan α} {k : Nat} {v : View α} (h : Sound plan k v) {c : Nat}
    {e : Nat × α} (he : e ∈ v.column c) : e.1 < k := by
  have : e.1 ∈ (v.column c).map Prod.fst := List.mem_map_of_mem he
  rw [h.rows_eq c, List.mem_filter, List.mem_range] at this
  exact this.1

theorem Sound.length_column {plan : FactorPlan α} {k : Nat} {v : View α} (h : Sound plan k v)
    (c : Nat) : (v.column c).length = Nat.count (fun i => c ∈ plan.reach i) k := by
  rw [← List.length_map Prod.fst, h.rows_eq c, Nat.count_eq_card_filter_range]
  rfl

/-- Nothing outside the reach is scattered. -/
theorem Sound.row_scattered {plan : FactorPlan α} (hplan : plan.Proper) {k : Nat}
    (hk : k < plan.matrix.cols) {v : View α} (h : Sound plan k v) {i : Nat}
    (hi : i ∉ plan.reach k) (hik : i ≠ k) : (v.scattered plan k).row i = 0 := by
  unfold scattered
  rw [row_foldl_scatter_of_not_mem, h.row_eq i]
  intro hmem
  have hle := hplan.upper.le_of_mem_rowsOf hk hmem
  exact hi (Forest.mem_reach_of_mem hplan.tree.increasing hmem (by omega))

/-- The row in row `k` is never written by its own scatter. -/
theorem row_scattered_self (plan : FactorPlan α) (k : Nat) (v : View α) :
    (v.scattered plan k).row k = v.row k := by
  unfold scattered
  generalize plan.matrix.positions k = ps
  induction ps generalizing v with
  | nil => rfl
  | cons p ps ih =>
    rw [List.foldl_cons, ih, scatter]
    split
    · rfl
    · rename_i hne
      exact Function.update_of_ne (Ne.symm hne) _ _

/-- **While row `k` is eliminated, only the columns still to come hold anything.** -/
theorem Sound.row_foldl_eliminate {plan : FactorPlan α} (hplan : plan.Proper) {k : Nat}
    (hk : k < plan.matrix.cols) {v : View α} (h : Sound plan k v) (done todo : List Nat)
    (hsplit : plan.reach k = done ++ todo) {i : Nat} (hi : i ∉ todo) :
    (done.foldl (eliminate k) (v.scattered plan k)).row i = 0 := by
  induction done using List.reverseRecOn generalizing todo i with
  | nil =>
    by_cases hik : i = k
    · rw [hik]
      exact (row_scattered_self plan k v).trans (h.row_eq k)
    · refine h.row_scattered hplan hk ?_ hik
      rwa [hsplit, List.nil_append]
  | append_singleton done c ih =>
    have hsplit' : plan.reach k = done ++ c :: todo := by
      rw [hsplit, List.append_assoc, List.singleton_append]
    have hc : c ∉ done := by
      have := hplan.nodup_reach k
      rw [hsplit', List.nodup_append] at this
      exact fun hmem => this.2.2 c hmem c List.mem_cons_self rfl
    rw [List.foldl_append, List.foldl_cons, List.foldl_nil, eliminate]
    dsimp only
    by_cases hic : i = c
    · rw [hic, Function.update_self]
    · rw [Function.update_of_ne hic]
      have hzero := ih (c :: todo) hsplit' (i := i) (by simp [hic, hi])
      rw [subtractEntries_of_not_mem, hzero]
      intro e he
      rw [column_foldl_eliminate_of_not_mem k done hc, scattered, column_foldl_scatter] at he
      rintro rfl
      obtain ⟨hlt, habove⟩ := h.above c e he
      exact hi (hplan.mem_todo hsplit' habove (Nat.ne_of_lt hlt) (h.lt_of_mem he))

theorem Sound.step {plan : FactorPlan α} (hplan : plan.Proper) {k : Nat}
    (hk : k < plan.matrix.cols) {v : View α} (h : Sound plan k v) :
    Sound plan (k + 1) (v.step plan k) := by
  have hnodup := hplan.nodup_reach k
  refine { rows_eq := ?_, above := ?_, row_eq := ?_, pivot_eq := ?_ }
  · intro c
    unfold View.step
    rw [column_regularize, List.range_succ, List.filter_append, ← h.rows_eq c]
    by_cases hc : c ∈ plan.reach k
    · obtain ⟨e, he⟩ := column_foldl_eliminate_of_mem k _ hnodup hc (v.scattered plan k)
      rw [he, scattered, column_foldl_scatter]
      simp [hc]
    · rw [column_foldl_eliminate_of_not_mem k _ hc, scattered, column_foldl_scatter]
      simp [hc]
  · intro c e he
    unfold View.step at he
    rw [column_regularize] at he
    by_cases hc : c ∈ plan.reach k
    · obtain ⟨x, hx⟩ := column_foldl_eliminate_of_mem k _ hnodup hc (v.scattered plan k)
      rw [hx, scattered, column_foldl_scatter, List.mem_append] at he
      rcases he with he | he
      · exact h.above c e he
      · obtain rfl := List.mem_singleton.1 he
        exact ⟨Forest.lt_of_mem_reach hc, hplan.tree.above_of_mem_reach hk hc⟩
    · rw [column_foldl_eliminate_of_not_mem k _ hc, scattered, column_foldl_scatter] at he
      exact h.above c e he
  · intro i
    unfold View.step
    rw [row_regularize]
    exact h.row_foldl_eliminate hplan hk _ [] (by rw [List.append_nil]) List.not_mem_nil
  · intro i hi
    rw [pivot_step_of_ne plan (by omega)]
    exact h.pivot_eq i (by omega)

/-- **Between two columns the view is sound.** -/
theorem sound_after {plan : FactorPlan α} (hplan : plan.Proper) {k : Nat}
    (hk : k ≤ plan.matrix.cols) : Sound plan k (after plan k) := by
  induction k with
  | zero =>
    exact
      { rows_eq := fun c => rfl
        above := fun c e he => by cases he
        row_eq := fun i => rfl
        pivot_eq := fun i _ => rfl }
  | succ k ih => exact (ih (by omega)).step hplan hk

end Sweep.View

end Quasidefinite
