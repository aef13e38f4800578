import Mathlib.Combinatorics.SimpleGraph.Paths
import Mathlib.Data.Set.Card
import Quasidefinite.Proofs.Factor.Sweep

/-!
# The elimination tree and the filled graph

A symmetric matrix is a graph: two columns are joined if the matrix stores an entry for them
(`Sparse.graph`). Eliminating a column joins its later neighbours to each other, so column `i` of
the triangular factor can have an entry in those later rows to which a path leads from `i` whose
inner vertices come before `i` (`Sparse.fill`).

The tree knows nothing of paths: it is found by climbing, one stored entry after the other, in a
tree that is still growing. The two meet in `EliminationTree.TreeOf.mem_fill_iff`: row `j` is
filled in column `i` if and only if `i` lies in the reach of row `j`. One direction turns the way
up the tree into a walk through smaller vertices, by induction on the ancestor
(`TreeOf.exists_walk`); in the other, the descendants of `i` are closed under the edges between
vertices up to `i` (`TreeOf.above_of_adj`), so that a path cannot leave them before it arrives at
`j`. That parents are the least filled rows and counts their numbers follows from there.
-/

namespace Quasidefinite

variable {α : Type}

/-! ## 1. The filled graph -/

namespace Sparse

/-- The graph of the symmetric matrix whose upper triangle is `A`: different columns are joined if
    `A` stores an entry for them. -/
def graph (A : Sparse α) : SimpleGraph Nat :=
  SimpleGraph.fromRel fun i j => j < A.cols ∧ i ∈ A.rowsOf j

/-- The columns after `i` to which a path leads from `i` all of whose inner vertices come
    before `i`. -/
def fill (A : Sparse α) (i : Nat) : Set Nat :=
  {j | i < j ∧ ∃ p : A.graph.Walk i j, p.IsPath ∧ ∀ v ∈ p.support, v ≠ i → v ≠ j → v < i}

theorem graph_adj_of_mem {A : Sparse α} {i j : Nat} (hj : j < A.cols) (hi : i ∈ A.rowsOf j)
    (hne : i ≠ j) : A.graph.Adj i j :=
  (SimpleGraph.fromRel_adj _ _ _).2 ⟨hne, .inl ⟨hj, hi⟩⟩

/-- The later of two joined columns stores the entry. -/
theorem Upper.mem_of_adj {A : Sparse α} (h : A.Upper) {i j : Nat} (hadj : A.graph.Adj i j)
    (hij : i < j) : j < A.cols ∧ i ∈ A.rowsOf j := by
  obtain ⟨-, hmem | ⟨hi, hmem⟩⟩ := (SimpleGraph.fromRel_adj _ _ _).1 hadj
  · exact hmem
  · have := h.le_of_mem_rowsOf hi hmem
    omega

/-- A walk through vertices up to `i` and one more edge hold a path that shows fill. -/
theorem mem_fill_of_walk {A : Sparse α} {i r j : Nat} (hij : i < j) (w : A.graph.Walk i r)
    (hw : ∀ v ∈ w.support, v ≤ i) (hadj : A.graph.Adj r j) : j ∈ A.fill i := by
  refine ⟨hij, (w.concat hadj).bypass, (w.concat hadj).bypass_isPath, fun v hv hvi hvj => ?_⟩
  have hmem := (w.concat hadj).support_bypass_subset_support hv
  rw [SimpleGraph.Walk.support_concat, List.mem_append, List.mem_singleton] at hmem
  exact Nat.lt_of_le_of_ne (hw v (hmem.resolve_right hvj)) hvi

end Sparse

/-! ## 2. Climbing and filling -/

namespace EliminationTree

namespace TreeOf

open Forest

variable {A : Sparse α} {T : EliminationTree} (h : TreeOf A T) (hupper : A.Upper)

include h

/-- **The way up the tree is a walk through smaller vertices.** -/
theorem exists_walk {r a : Nat} (hra : Above T.par r a) :
    ∃ w : A.graph.Walk r a, ∀ v ∈ w.support, v ≤ a := by
  induction a using Nat.strongRecOn generalizing r with
  | ind a ih =>
    rcases Relation.ReflTransGen.cases_tail hra with rfl | ⟨b, hrb, hba⟩
    · exact ⟨.nil, by simp⟩
    · have hlt := h.increasing b a hba
      obtain ⟨ha, hmem⟩ := h.parent_mem b a hba
      -- from `b` the walk goes down again, to the row in which column `a` stores an entry
      obtain ⟨s, hs, hsb⟩ := Forest.above_of_mem_reach hmem
      have hsa : s < a := Nat.lt_of_le_of_lt (hsb.le h.increasing) hlt
      obtain ⟨up, hup⟩ := ih b hlt hrb
      obtain ⟨down, hdown⟩ := ih b hlt hsb
      refine ⟨(up.append down.reverse).concat (Sparse.graph_adj_of_mem ha hs (Nat.ne_of_lt hsa)),
        fun v hv => ?_⟩
      rw [SimpleGraph.Walk.support_concat, List.mem_append, List.mem_singleton,
        SimpleGraph.Walk.mem_support_append_iff, SimpleGraph.Walk.support_reverse,
        List.mem_reverse] at hv
      rcases hv with (hv | hv) | rfl
      · exact Nat.le_of_lt (Nat.lt_of_le_of_lt (hup v hv) hlt)
      · exact Nat.le_of_lt (Nat.lt_of_le_of_lt (hdown v hv) hlt)
      · exact Nat.le_refl v

include hupper

/-- **The descendants of `i` are closed under the edges between vertices up to `i`.** -/
theorem above_of_adj {x y i : Nat} (hx : Above T.par x i) (hadj : A.graph.Adj x y) (hy : y ≤ i) :
    Above T.par y i := by
  rcases Nat.lt_or_gt_of_ne hadj.ne with hlt | hlt
  · obtain ⟨hycols, hmem⟩ := hupper.mem_of_adj hadj hlt
    exact (h.above y hycols x hmem hlt).of_le h.increasing hx hy
  · obtain ⟨hxcols, hmem⟩ := hupper.mem_of_adj hadj.symm hlt
    exact Relation.ReflTransGen.trans (h.above x hxcols y hmem hlt) hx

/-- A walk from a descendant of `i` to a vertex after `i` takes its first step beyond `i` from a
    descendant of `i`. -/
theorem exists_adj_of_walk {x i j : Nat} (w : A.graph.Walk x j) (hij : i < j)
    (hx : Above T.par x i) (hw : ∀ v ∈ w.support, v ≠ j → v ≤ i) :
    ∃ r, Above T.par r i ∧ A.graph.Adj r j := by
  induction w with
  | nil =>
    have := hx.le h.increasing
    omega
  | @cons x y j hadj w ih =>
    by_cases hy : y = j
    · exact ⟨x, hx, hy ▸ hadj⟩
    · have hyi := hw y (List.mem_cons_of_mem x w.start_mem_support) hy
      exact ih hij (h.above_of_adj hupper hx hadj hyi) fun v hv =>
        hw v (List.mem_cons_of_mem x hv)

/-- **Row `j` is filled in column `i` if and only if `i` lies in the reach of row `j`.** -/
theorem mem_fill_iff {i j : Nat} :
    j ∈ A.fill i ↔ j < A.cols ∧ i ∈ reach T.par j (A.rowsOf j) := by
  constructor
  · rintro ⟨hij, p, -, hp⟩
    have hle : ∀ v ∈ p.support, v ≠ j → v ≤ i := by
      intro v hv hvj
      by_contra hlt
      have := hp v hv (by omega) hvj
      omega
    obtain ⟨r, hri, hadj⟩ := h.exists_adj_of_walk hupper p hij Relation.ReflTransGen.refl hle
    have hrj : r < j := Nat.lt_of_le_of_lt (hri.le h.increasing) hij
    obtain ⟨hj, hmem⟩ := hupper.mem_of_adj hadj hrj
    exact ⟨hj, mem_reach_of_above h.increasing (mem_reach_of_mem h.increasing hmem hrj) hri hij⟩
  · rintro ⟨hj, hmem⟩
    have hij : i < j := lt_of_mem_reach hmem
    obtain ⟨r, hr, hri⟩ := Forest.above_of_mem_reach hmem
    have hrj : r < j := Nat.lt_of_le_of_lt (hri.le h.increasing) hij
    obtain ⟨w, hw⟩ := h.exists_walk hri
    refine Sparse.mem_fill_of_walk hij w.reverse (fun v hv => ?_)
      (Sparse.graph_adj_of_mem hj hr (Nat.ne_of_lt hrj))
    rw [SimpleGraph.Walk.support_reverse, List.mem_reverse] at hv
    exact hw v hv

/-- A filled row of a column is one of its ancestors. -/
theorem above_of_mem_fill {i j : Nat} (hj : j ∈ A.fill i) : Above T.par i j := by
  obtain ⟨hjcols, hmem⟩ := (h.mem_fill_iff hupper).1 hj
  exact h.above_of_mem_reach hjcols hmem

/-- **A parent is the least filled row.** -/
theorem isLeast_of_par {i q : Nat} (hq : T.par i = some q) : IsLeast (A.fill i) q := by
  refine ⟨(h.mem_fill_iff hupper).2 (h.parent_mem i q hq), fun j hj => ?_⟩
  rcases Relation.ReflTransGen.cases_head (h.above_of_mem_fill hupper hj) with rfl | ⟨c, hc, hcj⟩
  · exact absurd hj.1 (Nat.lt_irrefl _)
  · rw [← Option.some.inj (hc.symm.trans hq)]
    exact Above.le h.increasing hcj

theorem par_eq_some_iff {i j : Nat} : T.par i = some j ↔ IsLeast (A.fill i) j := by
  refine ⟨h.isLeast_of_par hupper, fun hj => ?_⟩
  rcases Relation.ReflTransGen.cases_head (h.above_of_mem_fill hupper hj.1) with rfl | ⟨q, hq, -⟩
  · exact absurd hj.1.1 (Nat.lt_irrefl _)
  · rw [(h.isLeast_of_par hupper hq).unique hj] at hq
    exact hq

theorem par_eq_none_iff {i : Nat} : T.par i = none ↔ A.fill i = ∅ := by
  constructor
  · intro hnone
    refine Set.eq_empty_of_forall_notMem fun j hj => ?_
    rcases Relation.ReflTransGen.cases_head (h.above_of_mem_fill hupper hj) with rfl | ⟨q, hq, -⟩
    · exact absurd hj.1 (Nat.lt_irrefl _)
    · cases hnone.symm.trans hq
  · intro hempty
    cases hq : T.par i with
    | none => rfl
    | some q =>
      have := (h.isLeast_of_par hupper hq).1
      rw [hempty] at this
      cases this

/-- The filled rows of a column, as a finite set. -/
theorem fill_eq (i : Nat) : A.fill i =
    ↑((Finset.range A.cols).filter fun j => i ∈ reach T.par j (A.rowsOf j)) := by
  ext j
  rw [h.mem_fill_iff hupper, Finset.coe_filter, Set.mem_ofPred_eq, Finset.mem_range]

/-- **The entries of a column of the triangular factor are its filled rows.** -/
theorem count_eq_ncard {i : Nat} (hi : i < A.cols) : T.count.getD i 0 = (A.fill i).ncard := by
  rw [h.count_eq i hi, Nat.count_eq_card_filter_range, h.fill_eq hupper, Set.ncard_coe_finset]

end TreeOf

/-! ## 3. The tree of the filled graph -/

/-- `T` is the tree of the filled graph of `A`: the parent of a column is its least filled row, if
    it has one, and its count is the number of them. -/
structure Filled (A : Sparse α) (T : EliminationTree) : Prop where
  size_parent : T.parent.size = A.cols
  size_count : T.count.size = A.cols
  finite : ∀ i, (A.fill i).Finite
  parent_eq_some : ∀ i < A.cols, ∀ j, T.parent[i]? = some (some j) ↔ IsLeast (A.fill i) j
  parent_eq_none : ∀ i < A.cols, T.parent[i]? = some none ↔ A.fill i = ∅
  parent_gt : ∀ i j : Nat, T.parent[i]? = some (some j) → i < j
  count_eq : ∀ i < A.cols, T.count[i]? = some (A.fill i).ncard
  sum_count : T.count.sum = ∑ i ∈ Finset.range A.cols, (A.fill i).ncard

theorem TreeOf.filled {A : Sparse α} {T : EliminationTree} (h : TreeOf A T) (hupper : A.Upper) :
    Filled A T := by
  have hparent : ∀ i < A.cols, T.parent[i]? = some (T.par i) := fun i hi =>
    getElem?_eq_getD _ none (h.size_parent ▸ hi)
  refine
    { size_parent := h.size_parent
      size_count := h.size_count
      finite := ?_
      parent_eq_some := ?_
      parent_eq_none := ?_
      parent_gt := ?_
      count_eq := ?_
      sum_count := ?_ }
  · intro i
    rw [h.fill_eq hupper]
    exact Finset.finite_toSet _
  · intro i hi j
    rw [hparent i hi, Option.some.injEq]
    exact h.par_eq_some_iff hupper
  · intro i hi
    rw [hparent i hi, Option.some.injEq]
    exact h.par_eq_none_iff hupper
  · intro i j hij
    have hi : i < A.cols := by
      obtain ⟨hi, -⟩ := Array.getElem?_eq_some_iff.1 hij
      rwa [h.size_parent] at hi
    rw [hparent i hi, Option.some.injEq] at hij
    exact h.increasing i j hij
  · intro i hi
    rw [getElem?_eq_getD _ 0 (h.size_count ▸ hi), h.count_eq_ncard hupper hi]
  · rw [← Array.sum_toList, toList_eq_map _ 0, h.size_count]
    show ∑ i ∈ Finset.range A.cols, T.count.getD i 0 = _
    exact Finset.sum_congr rfl fun i hi => h.count_eq_ncard hupper (Finset.mem_range.1 hi)

/-- **The elimination tree is the tree of the filled graph**, and the factors have room for as many
    entries as the graph has filled rows. -/
theorem ofUpper_filled [Scalar α] {A : Sparse α} (hA : A.Sliced) (hupper : A.Upper) :
    ∃ T, ofUpper A = .ok T ∧ Filled A T ∧ ∀ signs regularizer,
      (FactorPlan.blank ⟨A, T, signs, regularizer⟩).lower.rowIndex.size =
        ∑ i ∈ Finset.range A.cols, (A.fill i).ncard := by
  obtain ⟨T, hT, htree⟩ := exists_ofUpper hA hupper
  have hfilled := htree.filled hupper
  refine ⟨T, hT, hfilled, fun signs regularizer => ?_⟩
  have hlength : T.count.toList.length = A.cols := by rw [Array.length_toList, htree.size_count]
  have hlast : (Sparse.startsOfLengths 0 T.count.toList).getD A.cols 0 = T.count.sum := by
    rw [Sparse.getD_startsOfLengths _ _ (by omega), Nat.zero_add, ← hlength, List.take_length,
      Array.sum_toList]
  rw [← hfilled.sum_count, ← hlast, FactorPlan.blank, Sparse.allocate, Array.size_replicate,
    Sparse.getD_toArray]

/-- A pattern with an entry stored twice and a diagonal entry missing. -/
def pattern : Sparse Float where
  rows := 5
  cols := 5
  colStart := #[0, 1, 2, 4, 6, 8]
  rowIndex := #[0, 1, 0, 0, 0, 3, 2, 4]
  value := #[]

theorem ofUpper_filled_pattern : ∃ T, ofUpper pattern = .ok T ∧ Filled pattern T ∧
    T.parent = #[some 2, none, some 3, some 4, none] ∧ T.count = #[2, 0, 2, 1, 0] := by
  have hsliced : pattern.Sliced := ⟨by decide, by decide, by decide⟩
  obtain ⟨T, hT, hfilled, -⟩ := ofUpper_filled hsliced (by decide)
  have hparent : (ofUpper pattern).map EliminationTree.parent =
      .ok #[some 2, none, some 3, some 4, none] := by decide +kernel
  have hcount : (ofUpper pattern).map EliminationTree.count = .ok #[2, 0, 2, 1, 0] := by
    decide +kernel
  rw [hT] at hparent hcount
  exact ⟨T, hT, hfilled, Except.ok.inj hparent, Except.ok.inj hcount⟩

end EliminationTree

end Quasidefinite
