import Quasidefinite.Proofs.Factor.View
import Quasidefinite.Proofs.Sparse.Columns

/-!
# The factorization with its buffers

The sweep computes `View.after`, whatever its buffers held before. `Sweep.Shows` says how a state
of the sweep shows a view: the entries of a column stand in the first slots of the room the column
has in the triangular factor, the pivots and the row stand in their vectors, and the marks are set
exactly on a given list of columns. Each part of a step keeps that relation, so

* the factorization answers over any factors that fit (`FactorPlan.exists_factor`);
* the first column without a usable pivot depends on the plan alone (`FactorPlan.firstBad`);
* if there is none, the factors depend on the plan alone (`FactorPlan.FactorsOf.unique`).
-/

namespace Quasidefinite

variable {α : Type}

/-! ## 1. Factors that fit a plan -/

namespace FactorPlan

/-- Where the columns of the triangular factor begin. -/
def colStarts (plan : FactorPlan α) : Array Nat :=
  (Sparse.startsOfLengths 0 plan.tree.count.toList).toArray

/-- The factors have the room the plan asks for. -/
structure Fits (plan : FactorPlan α) (F : Factors α) : Prop where
  shaped : F.lower.Shaped
  rows_eq : F.lower.rows = plan.matrix.cols
  cols_eq : F.lower.cols = plan.matrix.cols
  colStart_eq : F.lower.colStart = plan.colStarts
  size_pivot : F.pivot.size = plan.matrix.cols
  size_pivotInv : F.pivotInv.size = plan.matrix.cols

/-- A column of the factor has room for as many entries as the tree counts. -/
theorem Fits.start_succ {plan : FactorPlan α} {F : Factors α} (h : plan.Fits F)
    (hplan : plan.Proper) {c : Nat} (hc : c < plan.matrix.cols) :
    F.lower.start (c + 1) = F.lower.start c + plan.tree.count.getD c 0 := by
  have hsize : plan.tree.count.toList.length = plan.matrix.cols := by simp [hplan.tree.size_count]
  have hlt : c < plan.tree.count.toList.length := by omega
  have hget : plan.tree.count.toList[c] = plan.tree.count.getD c 0 := by
    rw [getD_of_lt _ _ _ (by rw [hplan.tree.size_count]; exact hc), Array.getElem_toList]
  rw [Sparse.start, Sparse.start, h.colStart_eq, colStarts, Sparse.getD_toArray,
    Sparse.getD_toArray, Sparse.getD_startsOfLengths _ _ (by omega),
    Sparse.getD_startsOfLengths _ _ (by omega), List.take_succ_eq_append_getElem (by omega),
    List.sum_append, hget]
  simp

/-- Columns have their room apart from each other. -/
theorem Fits.ne_of_mem {plan : FactorPlan α} {F : Factors α} (h : plan.Fits F)
    (hplan : plan.Proper) {c d : Nat} (hd : d < plan.matrix.cols) (hc : c < plan.matrix.cols)
    (hdc : d ≠ c) {count i p : Nat} (hcount : count ≤ plan.tree.count.getD d 0)
    (hp : p ∈ List.range' (F.lower.start d) count) (hi : i < plan.tree.count.getD c 0) :
    p ≠ F.lower.start c + i := by
  rw [List.mem_range'_1] at hp
  have hcend := h.start_succ hplan hc
  have hdend := h.start_succ hplan hd
  rcases Nat.lt_or_gt_of_ne hdc with hlt | hlt
  · have := h.shaped.start_mono (i := d + 1) (j := c) hlt (by rw [h.cols_eq]; omega)
    omega
  · have := h.shaped.start_mono (i := c + 1) (j := d) hlt (by rw [h.cols_eq]; omega)
    omega

variable [Scalar α]

/-- There is room in the blank factors. -/
theorem fits_blank {plan : FactorPlan α} (hplan : plan.Proper) : plan.Fits plan.blank := by
  have hsize : plan.tree.count.size = plan.matrix.cols := hplan.tree.size_count
  have hshaped : plan.blank.lower.Shaped :=
    { size_colStart := by simp [blank, Sparse.allocate, hsize]
      size_value := by simp [blank, Sparse.allocate]
      start_zero := by
        unfold Sparse.start blank
        rw [Sparse.getD_toArray, Sparse.getD_startsOfLengths _ _ (by omega)]
        simp
      start_le_succ := by
        intro j hj
        have hj : j < plan.matrix.cols := hj
        rw [Sparse.start, Sparse.start, blank, Sparse.getD_toArray, Sparse.getD_toArray,
          Sparse.getD_startsOfLengths _ _ (by simp; omega),
          Sparse.getD_startsOfLengths _ _ (by simp; omega),
          List.take_succ_eq_append_getElem (by simp; omega), List.sum_append]
        omega
      start_cols := by simp [Sparse.start, blank, Sparse.allocate]
      row_lt := by
        intro p hp
        have hrow : plan.blank.lower.row p = 0 := getD_replicate _ _ _
        rw [hrow]
        show 0 < plan.matrix.cols
        -- without columns there is no entry either
        by_contra hzero
        have hnil : plan.tree.count.toList = [] := by
          rw [← List.length_eq_zero_iff, Array.length_toList]
          omega
        have hcols : plan.matrix.cols = 0 := by omega
        simp [blank, Sparse.allocate, hnil, hcols, Sparse.startsOfLengths] at hp }
  exact
    { shaped := hshaped
      rows_eq := rfl
      cols_eq := rfl
      colStart_eq := rfl
      size_pivot := by simp [blank, Vec.zeros]
      size_pivotInv := by simp [blank, Vec.zeros] }

/-- Pivot `i` of the factorization. -/
def pivotAt (plan : FactorPlan α) (i : Nat) : α := (Sweep.View.after plan (i + 1)).pivot i

/-- Pivot `i` before it is regularized. -/
def rawAt (plan : FactorPlan α) (i : Nat) : α :=
  ((plan.reach i).foldl (Sweep.View.eliminate i)
    ((Sweep.View.after plan i).scattered plan i)).pivot i

theorem pivotAt_of_none {plan : FactorPlan α} (h : plan.regularizer = none) (i : Nat) :
    plan.pivotAt i = plan.rawAt i := by
  rw [pivotAt, Sweep.View.after, Sweep.View.step, Sweep.View.regularize, h]
  rfl

theorem pivotAt_of_some {plan : FactorPlan α} {r : Regularizer α} (h : plan.regularizer = some r)
    (i : Nat) : plan.pivotAt i = Sweep.regularized r (plan.signs.getD i 0) (plan.rawAt i) := by
  rw [pivotAt, Sweep.View.after, Sweep.View.step, Sweep.View.regularize, h]
  exact Function.update_self _ _ _

/-- Pivot `i` does not vanish and is finite. -/
def usable (plan : FactorPlan α) (i : Nat) : Bool :=
  !(plan.pivotAt i == 0 || !Scalar.isFinite (plan.pivotAt i))

/-- The first column without a usable pivot. -/
def firstBad (plan : FactorPlan α) : Option Nat :=
  (List.range plan.matrix.cols).find? fun i => !plan.usable i

end FactorPlan

/-! ## 2. States that show a view -/

namespace Sweep

variable [Scalar α]

/-- The state `s` shows the view `v`: `k` pivots have been accepted, and the columns `pending` are
    marked. -/
structure Shows (plan : FactorPlan α) (k : Nat) (pending : List Nat) (v : View α) (s : Sweep α) :
    Prop extends plan.Fits s.toFactors where
  size_next : s.next.size = plan.matrix.cols
  size_row : s.row.size = plan.matrix.cols
  size_marked : s.marked.size = plan.matrix.cols
  next_eq : ∀ c < plan.matrix.cols, s.next.getD c 0 = s.lower.start c + (v.column c).length
  length_le : ∀ c < plan.matrix.cols, (v.column c).length ≤ plan.tree.count.getD c 0
  slots_eq : ∀ c < plan.matrix.cols,
    slots s.lower.rowIndex s.lower.value (s.lower.start c) (v.column c).length = v.column c
  pivot_eq : (fun i => s.pivot.getD i 0) = v.pivot
  row_eq : (fun i => s.row.getD i 0) = v.row
  marked_iff : ∀ i, s.marked.getD i false = true ↔ i ∈ pending
  pivotInv_eq : ∀ i < k, s.pivotInv.getD i 0 = Scalar.recip (plan.pivotAt i)
  positive_eq : s.positive = Nat.count (fun i => 0 < plan.pivotAt i) k

/-! ### The pattern of a row -/

omit [Scalar α] in
/-- Climbing marks the path up to the first marked column, and puts it on its stack. There is room
    for it: the columns of a path ascend, so column `i` has at most `i` of them below it. -/
theorem exists_climb {A : Sparse α} {T : EliminationTree} (hT : T.TreeOf A) {k : Nat}
    (hk : k ≤ A.cols) (steps : Nat) {i : Nat} (hpos : 0 < steps) (hsteps : k < i + steps)
    {seen below : List Nat} (hbelow : below.length ≤ i) {marked : Array Bool}
    (hsize : marked.size = A.cols) (hmarked : ∀ x, marked.getD x false = true ↔ x ∈ seen) :
    ∃ marked', climb T k A.cols steps (some i) below marked =
        .ok ((Forest.path T.par k seen k i).reverse ++ below, marked') ∧
      marked'.size = A.cols ∧
      ∀ x, marked'.getD x false = true ↔ x ∈ Forest.path T.par k seen k i ++ seen := by
  induction steps generalizing i seen below marked with
  | zero => omega
  | succ steps ih =>
    rw [climb]
    by_cases hik : i < k
    · have him : i < marked.size := by omega
      have hip : i < T.parent.size := by rw [hT.size_parent]; omega
      rw [if_pos hik, Checked.entry_eq _ _ false him, Checked.ok_bind]
      by_cases hseen : i ∈ seen
      · rw [if_pos ((hmarked i).2 hseen), Forest.path_of_mem k hseen]
        exact ⟨marked, rfl, hsize, hmarked⟩
      · rw [if_neg (by rw [hmarked i]; exact hseen), Forest.path_cons hT.increasing hik hseen,
          Checked.store_of_lt _ _ _ him, Checked.ok_bind, Checked.push_of_lt i (by omega),
          Checked.ok_bind, Checked.entry_eq _ _ none hip, Checked.ok_bind, List.reverse_cons,
          List.append_assoc, List.singleton_append]
        have hset : ∀ x, (marked.set i true him).getD x false = true ↔ x ∈ i :: seen := by
          intro x
          rw [getD_set, List.mem_cons]
          by_cases hx : x = i
          · simp [hx]
          · rw [if_neg hx, hmarked x, or_iff_right hx]
        cases hpar : T.par i with
        | none =>
          rw [show T.parent.getD i none = none from hpar, climb]
          exact ⟨_, rfl, by simpa using hsize, by simpa using hset⟩
        | some q =>
          have hiq := hT.increasing i q hpar
          obtain ⟨marked', hrun, hsize', hmarked'⟩ :=
            ih (i := q) (by omega) (by omega)
              (show (i :: below).length ≤ q by rw [List.length_cons]; omega) (by simpa using hsize)
              hset
          rw [Forest.path_cons_seen hT.increasing seen k hiq] at hrun hmarked'
          rw [show T.parent.getD i none = some q from hpar, hrun]
          refine ⟨marked', rfl, hsize', fun x => ?_⟩
          rw [hmarked' x]
          simp [or_left_comm]
    · rw [if_neg hik, Forest.path_of_le seen k (Nat.le_of_not_lt hik)]
      exact ⟨marked, rfl, hsize, hmarked⟩

variable {plan : FactorPlan α} {k : Nat} {v : View α} {s : Sweep α}

/-- Scattering an entry shows in the view, and puts the new columns of its path in front, if there
    is room for them. -/
theorem Shows.exists_scatterEntry (hplan : plan.Proper) (hk : k < plan.matrix.cols)
    {seen : List Nat} (h : Shows plan k seen v s) {p : Nat} (hp : p ∈ plan.matrix.positions k)
    (hroom : (Forest.path plan.tree.par k seen k (plan.matrix.row p) ++ seen).length ≤
      plan.matrix.cols) :
    ∃ t, scatterEntry plan k (s, seen) p (plan.matrix.row p) =
        .ok (t, Forest.path plan.tree.par k seen k (plan.matrix.row p) ++ seen) ∧
      Shows plan k (Forest.path plan.tree.par k seen k (plan.matrix.row p) ++ seen)
        (v.scatter plan.matrix k p) t := by
  have hle := hplan.upper k hk p hp
  have hkp : k < s.pivot.size := h.size_pivot ▸ hk
  rw [scatterEntry, hplan.shaped.entry_value (hplan.shaped.lt_size_of_mem hk hp), Checked.ok_bind,
    View.scatter]
  by_cases hrow : plan.matrix.row p = k
  · rw [if_pos hrow, if_pos hrow, Checked.store_of_lt _ _ _ hkp,
      Forest.path_of_le seen k (Nat.le_of_eq hrow.symm)]
    refine ⟨_, rfl, ?_⟩
    exact { h with
      size_pivot := by simpa using h.size_pivot
      pivot_eq := by rw [getD_set_eq_update, h.pivot_eq] }
  · have hrs : plan.matrix.row p < s.row.size := by rw [h.size_row]; omega
    have hempty : ([] : List Nat).length ≤ plan.matrix.row p := Nat.zero_le _
    obtain ⟨marked', hrun, hsize, hmarked⟩ :=
      exists_climb hplan.tree (Nat.le_of_lt hk) (plan.matrix.cols + 1) (Nat.succ_pos _)
        (by omega) hempty h.size_marked h.marked_iff
    rw [List.append_nil] at hrun
    rw [List.length_append] at hroom
    rw [if_neg hrow, if_neg hrow, Checked.store_of_lt _ _ _ hrs, Checked.ok_bind, hrun,
      Checked.ok_bind]
    dsimp only
    rw [Checked.foldlM_push _ seen (by rwa [List.length_reverse]), List.reverse_reverse,
      Checked.ok_bind]
    refine ⟨_, rfl, ?_⟩
    exact { h with
      size_row := by simpa using h.size_row
      size_marked := hsize
      row_eq := by rw [getD_set_eq_update, h.row_eq]
      marked_iff := hmarked }

/-- Scattering column `k` finds the columns of row `k` in the order of elimination. -/
theorem Shows.exists_scattered (hplan : plan.Proper) (hk : k < plan.matrix.cols)
    (h : Shows plan k [] v s) :
    ∃ t, plan.matrix.foldColumn k (scatterEntry plan k) (s, []) = .ok (t, plan.reach k) ∧
      Shows plan k (plan.reach k) (v.scattered plan k) t := by
  rw [hplan.shaped.foldColumn_eq _ _ hk]
  obtain ⟨⟨t, seen⟩, hrun, hseen, hshows⟩ := Checked.exists_foldlM
    (fun done (t : Sweep α × List Nat) =>
      t.2 = Forest.reach plan.tree.par k (done.map plan.matrix.row) ∧
        Shows plan k t.2 (done.foldl (View.scatter plan.matrix k) v) t.1)
    (fun s p => scatterEntry plan k s p (plan.matrix.row p)) (plan.matrix.positions k) (s, [])
    ⟨rfl, h⟩
    (by
      rintro done p todo ⟨t, seen⟩ hsplit ⟨hseen, hshows⟩
      have hp : p ∈ plan.matrix.positions k := by rw [hsplit]; simp
      have hreach : Forest.reach plan.tree.par k ((done ++ [p]).map plan.matrix.row) =
          Forest.path plan.tree.par k seen k (plan.matrix.row p) ++ seen := by
        rw [List.map_append, List.map_singleton, Forest.reach_concat, ← hseen]
      have hlength := Forest.length_reach_le (k := k) hplan.tree.increasing
        ((done ++ [p]).map plan.matrix.row)
      obtain ⟨t', hrun, hshows'⟩ := hshows.exists_scatterEntry hplan hk hp
        (hreach ▸ Nat.le_trans hlength (Nat.le_of_lt hk))
      refine ⟨_, hrun, hreach.symm, ?_⟩
      rw [List.foldl_append]
      exact hshows')
  obtain rfl : seen = plan.reach k := hseen
  exact ⟨t, hrun, hshows⟩

/-! ### The values of a row -/

/-- The first `count` entries of column `c`, times `y`, are subtracted from a row. -/
theorem exists_subtract {L : Sparse α} (hL : L.Shaped) {c count : Nat}
    (hcount : L.start c + count ≤ L.rowIndex.size) (y : α) {row : Array α}
    (hsize : row.size = L.rows) :
    ∃ row', Checked.foldRange (L.start c) (L.start c + count)
        (fun row p => do
          let i ← Checked.entry L.rowIndex p
          let x ← Checked.entry L.value p
          Checked.adjust row i (· - x * y)) row = .ok row' ∧
      row'.size = L.rows ∧
      (fun i => row'.getD i 0) =
        subtractEntries y (slots L.rowIndex L.value (L.start c) count) fun i => row.getD i 0 := by
  have hlt : ∀ p ∈ List.range' (L.start c) count, p < L.rowIndex.size := fun p hp => by
    rw [List.mem_range'_1] at hp
    omega
  obtain ⟨row', hrun, hsize', heq⟩ := exists_subtractEntries y
    (slots L.rowIndex L.value (L.start c) count) row fun e he => by
      obtain ⟨p, hp, rfl⟩ := List.mem_map.1 he
      rw [hsize]
      exact hL.row_lt p (hlt p hp)
  refine ⟨row', ?_, hsize'.trans hsize, heq⟩
  rw [Checked.foldRange_eq_foldlM, Nat.add_sub_cancel_left, ← hrun, slots, List.foldlM_map]
  refine Checked.foldlM_congr (fun p hp row => ?_) row
  rw [Sparse.entry_rowIndex (hlt p hp), Checked.ok_bind, hL.entry_value (hlt p hp),
    Checked.ok_bind]
  rfl

/-- The slot of the next entry of a column lies in the room the column has. -/
theorem Shows.place_lt (hplan : plan.Proper) {pending : List Nat} (h : Shows plan k pending v s)
    {c : Nat} (hc : c < plan.matrix.cols)
    (hroom : (v.column c).length < plan.tree.count.getD c 0) :
    s.lower.start c + (v.column c).length < s.lower.rowIndex.size ∧
      s.lower.start c + (v.column c).length < s.lower.value.size := by
  have hend := h.start_succ hplan hc
  have hsize := h.shaped.start_le_size (j := c + 1) (by rw [h.cols_eq]; omega)
  have hrows : s.lower.start c + (v.column c).length < s.lower.rowIndex.size := by omega
  exact ⟨hrows, h.shaped.size_value ▸ hrows⟩

/-- An entry stored there appends to the column, and is not seen in any other one. -/
theorem Shows.slots_store (hplan : plan.Proper) {pending : List Nat}
    (h : Shows plan k pending v s) {c : Nat} (hc : c < plan.matrix.cols)
    (hroom : (v.column c).length < plan.tree.count.getD c 0)
    (hi : s.lower.start c + (v.column c).length < s.lower.rowIndex.size)
    (hv : s.lower.start c + (v.column c).length < s.lower.value.size) (x : α) {d : Nat}
    (hd : d < plan.matrix.cols) :
    slots (s.lower.rowIndex.set _ k hi) (s.lower.value.set _ x hv) (s.lower.start d)
        (if d = c then v.column c ++ [(k, x)] else v.column d).length =
      if d = c then v.column c ++ [(k, x)] else v.column d := by
  by_cases hdc : d = c
  · rw [if_pos hdc, hdc, List.length_append, List.length_singleton, slots_set_self hi hv,
      h.slots_eq c hc]
  · rw [if_neg hdc, slots_set_of_ne hi hv fun p hp => ?_, h.slots_eq d hd]
    exact h.toFits.ne_of_mem hplan hd hc hdc (h.length_le d hd) hp hroom

/-- Eliminating a column shows in the view. -/
theorem Shows.exists_eliminate (hplan : plan.Proper) (hk : k < plan.matrix.cols) {c : Nat}
    {todo : List Nat} (h : Shows plan k (c :: todo) v s) (hck : c < k) (hc : c ∉ todo)
    (hroom : (v.column c).length < plan.tree.count.getD c 0)
    (hpivot : v.pivot c = plan.pivotAt c) :
    ∃ t, eliminate k s c = .ok t ∧ Shows plan k todo (v.eliminate k c) t := by
  have hcn : c < plan.matrix.cols := Nat.lt_trans hck hk
  have hcr : c < s.row.size := h.size_row ▸ hcn
  have hcx : c < s.next.size := h.size_next ▸ hcn
  have hcp : c < s.pivotInv.size := h.size_pivotInv ▸ hcn
  have hcm : c < s.marked.size := h.size_marked ▸ hcn
  have hkp : k < s.pivot.size := h.size_pivot ▸ hk
  obtain ⟨hi, hv⟩ := h.place_lt hplan hcn hroom
  have hy : s.row.getD c 0 = v.row c := congrFun h.row_eq c
  obtain ⟨row', hrow', hsize', heq'⟩ := exists_subtract h.shaped (Nat.le_of_lt hi) (v.row c)
    (h.size_row.trans h.rows_eq.symm)
  rw [h.rows_eq] at hsize'
  rw [h.slots_eq c hcn, h.row_eq] at heq'
  have hcr' : c < row'.size := hsize' ▸ hcn
  unfold eliminate
  rw [Checked.entry_eq _ _ 0 hcr, Checked.ok_bind, hy, Checked.entry_eq _ _ 0 hcx, Checked.ok_bind,
    h.next_eq c hcn, h.shaped.entry_colStart (by rw [h.cols_eq]; omega), Checked.ok_bind, hrow',
    Checked.ok_bind, Checked.entry_eq _ _ 0 hcp, Checked.ok_bind, h.pivotInv_eq c hck,
    Checked.store_of_lt _ _ _ hi, Checked.ok_bind, Checked.store_of_lt _ _ _ hv, Checked.ok_bind,
    Checked.adjust_eq _ _ _ 0 hkp, Checked.ok_bind, Checked.store_of_lt _ _ _ hcx, Checked.ok_bind,
    Checked.store_of_lt _ _ _ hcr', Checked.ok_bind, Checked.store_of_lt _ _ _ hcm, Checked.ok_bind,
    Checked.pure_eq_ok]
  refine ⟨_, rfl, ?_⟩
  exact
    { shaped := h.shaped.store hi hv (h.rows_eq ▸ hk) _
      rows_eq := h.rows_eq
      cols_eq := h.cols_eq
      colStart_eq := h.colStart_eq
      size_pivot := by simpa using h.size_pivot
      size_pivotInv := h.size_pivotInv
      size_next := by simpa using h.size_next
      size_row := by simpa using hsize'
      size_marked := by simpa using h.size_marked
      next_eq := by
        intro d hd
        rw [getD_set, View.length_column_eliminate]
        split
        · rename_i hdc
          rw [hdc]
          rfl
        · exact h.next_eq d hd
      length_le := by
        intro d hd
        rw [View.length_column_eliminate]
        split
        · rename_i hdc
          rw [hdc]
          exact hroom
        · exact h.length_le d hd
      slots_eq := by
        intro d hd
        rw [View.column_eliminate, hpivot]
        exact h.slots_store hplan hcn hroom hi hv _ hd
      pivot_eq := by
        rw [getD_set_eq_update, h.pivot_eq, congrFun h.pivot_eq k, View.eliminate, hpivot]
      row_eq := by
        rw [getD_set_eq_update, heq', View.eliminate]
      marked_iff := by
        intro i
        rw [getD_set]
        split
        · rename_i hic
          rw [hic]
          simpa using hc
        · rename_i hic
          rw [h.marked_iff i, List.mem_cons, or_iff_right hic]
      pivotInv_eq := h.pivotInv_eq
      positive_eq := h.positive_eq }

section Next

variable {done todo : List Nat} {c : Nat}

omit [Scalar α] in
theorem not_mem_done (hplan : plan.Proper) (hsplit : plan.reach k = done ++ c :: todo) :
    c ∉ done := by
  have hnodup := hplan.nodup_reach k
  rw [hsplit, List.nodup_append] at hnodup
  exact fun hc => hnodup.2.2 c hc c List.mem_cons_self rfl

/-- A column about to be eliminated has room for one more entry. -/
theorem length_lt_count (hplan : plan.Proper) (hk : k < plan.matrix.cols)
    (hsplit : plan.reach k = done ++ c :: todo) :
    ((done.foldl (View.eliminate k) ((View.after plan k).scattered plan k)).column c).length <
      plan.tree.count.getD c 0 := by
  have hmem : c ∈ plan.reach k := by rw [hsplit]; simp
  have hck : c < k := Forest.lt_of_mem_reach hmem
  rw [View.column_foldl_eliminate_of_not_mem k done (not_mem_done hplan hsplit), View.scattered,
    View.column_foldl_scatter, (View.sound_after hplan (Nat.le_of_lt hk)).length_column c,
    hplan.tree.count_eq c (Nat.lt_trans hck hk)]
  exact Nat.count_strict_mono hmem hk

/-- Eliminating the next column in the reach of row `k` shows in the view. -/
theorem Shows.exists_eliminate_next (hplan : plan.Proper) (hk : k < plan.matrix.cols)
    (hsplit : plan.reach k = done ++ c :: todo)
    (h : Shows plan k (c :: todo)
      (done.foldl (View.eliminate k) ((View.after plan k).scattered plan k)) s) :
    ∃ t, eliminate k s c = .ok t ∧ Shows plan k todo
      ((done ++ [c]).foldl (View.eliminate k) ((View.after plan k).scattered plan k)) t := by
  have hmem : c ∈ plan.reach k := by rw [hsplit]; simp
  have hck : c < k := Forest.lt_of_mem_reach hmem
  have hnodup := hplan.nodup_reach k
  rw [hsplit, List.nodup_append, List.nodup_cons] at hnodup
  have hpivot : (done.foldl (View.eliminate k)
      ((View.after plan k).scattered plan k)).pivot c = plan.pivotAt c := by
    rw [View.pivot_foldl_eliminate_of_ne (Nat.ne_of_lt hck), View.scattered,
      View.pivot_foldl_scatter_of_ne _ (Nat.ne_of_lt hck), View.pivot_after_of_lt plan hck]
    rfl
  rw [List.foldl_append]
  exact h.exists_eliminate hplan hk hck hnodup.2.1.1 (length_lt_count hplan hk hsplit) hpivot

end Next

/-- Eliminating all columns in the reach of row `k` shows in the view. -/
theorem Shows.exists_foldlM_eliminate (hplan : plan.Proper) (hk : k < plan.matrix.cols)
    (h : Shows plan k (plan.reach k) ((View.after plan k).scattered plan k) s) :
    ∃ t, (plan.reach k).foldlM (eliminate k) s = .ok t ∧
      Shows plan k [] ((plan.reach k).foldl (View.eliminate k)
        ((View.after plan k).scattered plan k)) t := by
  obtain ⟨t, hrun, hshows⟩ := Checked.exists_foldlM
    (fun done t => ∀ todo, plan.reach k = done ++ todo →
      Shows plan k todo (done.foldl (View.eliminate k) ((View.after plan k).scattered plan k)) t)
    (eliminate k) (plan.reach k) s
    (by
      intro todo htodo
      rw [List.nil_append] at htodo
      exact htodo ▸ h)
    (by
      intro done c todo s hsplit hs
      obtain ⟨t, ht, hshows⟩ := (hs (c :: todo) hsplit).exists_eliminate_next hplan hk hsplit
      refine ⟨t, ht, fun todo' htodo' => ?_⟩
      have hsame : todo' = todo := by
        rw [hsplit, List.append_assoc, List.singleton_append] at htodo'
        exact (List.cons.inj (List.append_cancel_left htodo')).2.symm
      exact hsame ▸ hshows)
  exact ⟨t, hrun, hshows [] (List.append_nil _).symm⟩

/-- Regularizing a pivot shows in the view. -/
theorem Shows.exists_regularize (hplan : plan.Proper) (hk : k < plan.matrix.cols)
    (h : Shows plan k [] v s) :
    ∃ t, s.regularize plan k = .ok t ∧ Shows plan k [] (v.regularize plan k) t := by
  unfold regularize View.regularize
  cases plan.regularizer with
  | none => exact ⟨s, rfl, h⟩
  | some r =>
    have hks : k < plan.signs.size := by rw [hplan.size_signs]; exact hk
    have hkp : k < s.pivot.size := h.size_pivot ▸ hk
    dsimp only
    rw [Checked.entry_eq _ _ 0 hks, Checked.ok_bind, Checked.adjust_eq _ _ _ 0 hkp]
    refine ⟨_, rfl, ?_⟩
    exact { h with
      size_pivot := by simpa using h.size_pivot
      pivot_eq := by rw [getD_set_eq_update, congrFun h.pivot_eq k, h.pivot_eq] }

/-- **Completing a row shows in the view**, and leaves the marks clean. -/
theorem Shows.exists_column (hplan : plan.Proper) (hk : k < plan.matrix.cols)
    (h : Shows plan k [] (View.after plan k) s) :
    ∃ t, s.column plan k = .ok t ∧ Shows plan k [] (View.after plan (k + 1)) t := by
  obtain ⟨s₁, h₁, hshows₁⟩ := h.exists_scattered hplan hk
  obtain ⟨s₂, h₂, hshows₂⟩ := hshows₁.exists_foldlM_eliminate hplan hk
  obtain ⟨s₃, h₃, hshows₃⟩ := hshows₂.exists_regularize hplan hk
  refine ⟨s₃, ?_, hshows₃⟩
  unfold column
  rw [h₁, Checked.ok_bind]
  dsimp only
  rw [h₂, Checked.ok_bind, h₃]

/-! ### All rows -/

/-- A usable pivot is accepted, any other one is not. -/
theorem Shows.accept?_eq (hk : k < plan.matrix.cols)
    (h : Shows plan k [] (View.after plan (k + 1)) s) :
    if plan.usable k then
      ∃ t, s.accept? k = .ok (some t) ∧ Shows plan (k + 1) [] (View.after plan (k + 1)) t
    else s.accept? k = .ok none := by
  have hkp : k < s.pivot.size := h.size_pivot ▸ hk
  have hki : k < s.pivotInv.size := h.size_pivotInv ▸ hk
  have hd : s.pivot.getD k 0 = plan.pivotAt k := congrFun h.pivot_eq k
  unfold accept?
  rw [Checked.entry_eq _ _ 0 hkp, Checked.ok_bind, hd]
  unfold FactorPlan.usable
  split
  · rename_i husable
    rw [Bool.not_eq_true'] at husable
    rw [husable, if_neg Bool.false_ne_true, Checked.store_of_lt _ _ _ hki, Checked.ok_bind,
      Checked.pure_eq_ok]
    refine ⟨_, rfl, ?_⟩
    exact { h with
      size_pivotInv := by simpa using h.size_pivotInv
      pivotInv_eq := by
        intro i hi
        rw [getD_set]
        split
        · rename_i hik
          rw [hik]
        · exact h.pivotInv_eq i (by omega)
      positive_eq := by
        rw [Nat.count_succ, ← h.positive_eq]
        split
        · rfl
        · rfl }
  · rename_i husable
    rw [Bool.not_eq_true, Bool.not_eq_false'] at husable
    rw [husable, if_pos rfl, Checked.pure_eq_ok]

/-- The sweep ends at the first column without a usable pivot. -/
theorem Shows.exists_run (hplan : plan.Proper) (count : Nat) (hcount : k + count = plan.matrix.cols)
    (h : Shows plan k [] (View.after plan k) s) :
    ∃ t, run plan count k s =
        .ok (t, (List.range' k count).find? fun i => !plan.usable i) ∧
      plan.Fits t.toFactors ∧
      ((∀ i ∈ List.range' k count, plan.usable i = true) →
        Shows plan plan.matrix.cols [] (View.after plan plan.matrix.cols) t) := by
  induction count generalizing k s with
  | zero =>
    refine ⟨s, rfl, h.toFits, fun _ => ?_⟩
    rw [← hcount]
    exact h
  | succ count ih =>
    have hk : k < plan.matrix.cols := by omega
    obtain ⟨t, ht, hshows⟩ := h.exists_column hplan hk
    have haccept := hshows.accept?_eq hk
    rw [run, ht, Checked.ok_bind, List.range'_succ]
    cases husable : plan.usable k with
    | true =>
      rw [if_pos husable] at haccept
      obtain ⟨u, hu, hshows'⟩ := haccept
      obtain ⟨w, hw, hfits, hall⟩ := ih (by omega) hshows'
      refine ⟨w, ?_, hfits, fun hmem => hall fun i hi => hmem i (List.mem_cons_of_mem k hi)⟩
      rw [hu, Checked.ok_bind, List.find?_cons_of_neg (by simp [husable])]
      exact hw
    | false =>
      rw [husable, if_neg Bool.false_ne_true] at haccept
      refine ⟨t, ?_, hshows.toFits, fun hmem => ?_⟩
      · rw [haccept, Checked.ok_bind, List.find?_cons_of_pos (by simp [husable])]
        rfl
      · have := hmem k List.mem_cons_self
        rw [husable] at this
        cases this

end Sweep

/-! ## 3. The factorization -/

namespace FactorPlan

variable [Scalar α]

/-- `F` holds what the factorization of the plan finds. -/
structure FactorsOf (plan : FactorPlan α) (F : Factors α) : Prop extends plan.Fits F where
  entries_eq : ∀ c < plan.matrix.cols,
    F.lower.entries c = (Sweep.View.after plan plan.matrix.cols).column c
  pivot_eq : ∀ i < plan.matrix.cols, F.pivot.getD i 0 = plan.pivotAt i
  pivotInv_eq : ∀ i < plan.matrix.cols, F.pivotInv.getD i 0 = Scalar.recip (plan.pivotAt i)
  positive_eq : F.positive = Nat.count (fun i => 0 < plan.pivotAt i) plan.matrix.cols

/-- **The factors depend on the plan alone.** -/
theorem FactorsOf.unique {plan : FactorPlan α} {F G : Factors α} (hF : plan.FactorsOf F)
    (hG : plan.FactorsOf G) : F = G := by
  have hlower : F.lower = G.lower := by
    refine hF.shaped.ext_entries hG.shaped (hF.rows_eq.trans hG.rows_eq.symm)
      (hF.cols_eq.trans hG.cols_eq.symm) fun c hc => ?_
    rw [hF.cols_eq] at hc
    rw [hF.entries_eq c hc, hG.entries_eq c hc]
  have hpivot : F.pivot = G.pivot := by
    refine ext_getD 0 (hF.size_pivot.trans hG.size_pivot.symm) fun i hi => ?_
    rw [hF.size_pivot] at hi
    rw [hF.pivot_eq i hi, hG.pivot_eq i hi]
  have hpivotInv : F.pivotInv = G.pivotInv := by
    refine ext_getD 0 (hF.size_pivotInv.trans hG.size_pivotInv.symm) fun i hi => ?_
    rw [hF.size_pivotInv] at hi
    rw [hF.pivotInv_eq i hi, hG.pivotInv_eq i hi]
  have hpositive : F.positive = G.positive := hF.positive_eq.trans hG.positive_eq.symm
  cases F
  cases G
  simp_all

/-- A complete sweep leaves the factors of the plan. -/
theorem factorsOf_of_shows {plan : FactorPlan α} (hplan : plan.Proper) {s : Sweep α}
    (h : Sweep.Shows plan plan.matrix.cols []
      (Sweep.View.after plan plan.matrix.cols) s) : plan.FactorsOf s.toFactors := by
  refine { h.toFits with
    entries_eq := ?_
    pivot_eq := ?_
    pivotInv_eq := h.pivotInv_eq
    positive_eq := h.positive_eq }
  · intro c hc
    have hlength := ((Sweep.View.sound_after hplan (Nat.le_refl _)).length_column c).trans
      (hplan.tree.count_eq c hc).symm
    rw [← h.slots_eq c hc, Sparse.entries, Sparse.positions, h.start_succ hplan hc, hlength,
      Nat.add_sub_cancel_left]
    rfl
  · intro i hi
    exact (congrFun h.pivot_eq i).trans (Sweep.View.pivot_after_of_lt plan hi)

/-- The state before the first column, over the given factors. -/
def start (plan : FactorPlan α) (old : Factors α) : Sweep α :=
  { old with
    pivot := Vec.fill old.pivot 0
    positive := 0
    next := old.lower.colStart.extract 0 plan.matrix.cols
    row := Vec.zeros plan.matrix.cols
    marked := Array.replicate plan.matrix.cols false }

/-- A factorization is a run from that state. -/
theorem factor_eq_ok {plan : FactorPlan α} {old F : Factors α} {failed : Option Nat} :
    plan.factor old = .ok (F, failed) ↔ plan.matrix.cols ≤ old.lower.colStart.size ∧
      ∃ s, Sweep.run plan plan.matrix.cols 0 (plan.start old) = .ok (s, failed) ∧
        s.toFactors = F := by
  constructor
  · intro h
    obtain ⟨next, hnext, h⟩ := Checked.bind_eq_ok.1 h
    obtain ⟨⟨-, hsize⟩, rfl⟩ := Checked.slice_eq_ok.1 hnext
    obtain ⟨⟨s, failed'⟩, hrun, h⟩ := Checked.bind_eq_ok.1 h
    cases h
    exact ⟨hsize, s, hrun, rfl⟩
  · rintro ⟨hsize, s, hrun, rfl⟩
    refine Checked.bind_eq_ok.2 ⟨_, Checked.slice_eq _ (Nat.zero_le _) hsize, ?_⟩
    exact Checked.bind_eq_ok.2 ⟨_, hrun, rfl⟩

/-- The state before the first column shows the blank view, whatever the factors held. -/
theorem shows_start {plan : FactorPlan α} {old : Factors α} (hold : plan.Fits old) :
    Sweep.Shows plan 0 [] (Sweep.View.after plan 0) (plan.start old) := by
  have hsize : old.lower.colStart.size = plan.matrix.cols + 1 := by
    rw [hold.shaped.size_colStart, hold.cols_eq]
  exact { hold with
    size_pivot := by simpa [start] using hold.size_pivot
    size_next := by simp [start, hsize]
    size_row := by simp [start, Vec.zeros]
    size_marked := by simp [start]
    next_eq := by
      intro c hc
      unfold start
      rw [getD_extract _ _ hc]
      rfl
    length_le := fun c hc => Nat.zero_le _
    slots_eq := fun c hc => rfl
    pivot_eq := by
      funext i
      unfold start Vec.fill
      rw [Array.getD_eq_getD_getElem?, Array.getElem?_map]
      cases old.pivot[i]? with
      | none => rfl
      | some x => rfl
    row_eq := by
      funext i
      exact getD_replicate _ _ _
    marked_iff := by
      intro i
      unfold start
      rw [getD_replicate]
      simp
    pivotInv_eq := fun i hi => absurd hi (Nat.not_lt_zero i)
    positive_eq := rfl }

/-- **The factorization answers over any factors that fit**, tells the first column without a
    usable pivot, and leaves the factors of the plan if there is none. -/
theorem exists_factor {plan : FactorPlan α} (hplan : plan.Proper) {old : Factors α}
    (hold : plan.Fits old) :
    ∃ F, plan.factor old = .ok (F, plan.firstBad) ∧ plan.Fits F ∧
      (plan.firstBad = none → plan.FactorsOf F) := by
  obtain ⟨t, ht, hfits, hall⟩ :=
    (shows_start hold).exists_run hplan plan.matrix.cols (Nat.zero_add _)
  rw [← List.range_eq_range'] at ht hall
  have hsize : plan.matrix.cols ≤ old.lower.colStart.size := by
    rw [hold.shaped.size_colStart, hold.cols_eq]
    omega
  refine ⟨t.toFactors, factor_eq_ok.2 ⟨hsize, t, ht, rfl⟩, hfits, fun hnone => ?_⟩
  refine factorsOf_of_shows hplan (hall fun i hi => ?_)
  have := List.find?_eq_none.1 hnone i hi
  simpa using this

end FactorPlan

end Quasidefinite
