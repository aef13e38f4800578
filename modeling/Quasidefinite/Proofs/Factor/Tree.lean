import Mathlib.Order.Basic
import Mathlib.Data.Nat.Count
import Quasidefinite.Factor.EliminationTree
import Quasidefinite.Proofs.Factor.Reach
import Quasidefinite.Proofs.Sparse.Format

/-!
# What the elimination tree of a matrix knows

Of an upper triangle the elimination tree is found without fault
(`EliminationTree.exists_ofUpper`), and it is a forest with the following properties
(`EliminationTree.TreeOf`): parents come after their children; column `k` is an ancestor of every
row that column `k` of the matrix stores before the diagonal; a column lies in the reach of its
parent; and the number of entries of a column of the triangular factor is the number of rows in
whose reach the column lies.

The proof follows the construction. While column `j` is entered, the tree differs from the tree
before exactly at the columns reached so far (`Climbed`); what is reached is the reach in that
earlier tree, and it stays the reach in every later one, because later parents are `j` or greater.
-/

namespace Quasidefinite

variable {α : Type}

namespace EliminationTree

open Forest

/-- The parent of column `i`, as a function. -/
def par (T : EliminationTree) (i : Nat) : Option Nat := T.parent.getD i none

/-- The tree belongs to the symmetric matrix whose upper triangle is `A`. -/
structure TreeOf (A : Sparse α) (T : EliminationTree) : Prop where
  size_parent : T.parent.size = A.cols
  size_count : T.count.size = A.cols
  increasing : Increasing T.par
  above : ∀ k < A.cols, ∀ i ∈ A.rowsOf k, i < k → Above T.par i k
  parent_mem : ∀ i q, T.par i = some q → q < A.cols ∧ i ∈ reach T.par q (A.rowsOf q)
  count_eq : ∀ i < A.cols,
    T.count.getD i 0 = Nat.count (fun k => i ∈ reach T.par k (A.rowsOf k)) A.cols

/-- Row `k` is an ancestor of every column in its reach. -/
theorem TreeOf.above_of_mem_reach {A : Sparse α} {T : EliminationTree} (h : TreeOf A T) {k c : Nat}
    (hk : k < A.cols) (hc : c ∈ reach T.par k (A.rowsOf k)) : Above T.par c k := by
  obtain ⟨i, hi, hic⟩ := Forest.above_of_mem_reach hc
  have hck : c < k := lt_of_mem_reach hc
  have hik : i < k := Nat.lt_of_le_of_lt (hic.le h.increasing) hck
  exact hic.of_le h.increasing (h.above k hk i hi hik) (Nat.le_of_lt hck)

/-! ## 1. One path -/

/-- While column `j` is entered in the tree `t₀`, the columns `V` have been reached. -/
structure Climbed (n j : Nat) (t₀ : Growing) (V : List Nat) (t : Growing) : Prop where
  size_parent : t.parent.size = n
  size_count : t.count.size = n
  size_reachedBy : t.reachedBy.size = n
  par_eq : ∀ i, t.par i = if i ∈ V then some ((t₀.par i).getD j) else t₀.par i
  count_eq : ∀ i, t.count.getD i 0 = if i ∈ V then t₀.count.getD i 0 + 1 else t₀.count.getD i 0
  reachedBy_eq : ∀ i, t.reachedBy.getD i 0 = if i ∈ V then j else t₀.reachedBy.getD i 0

theorem Climbed.congr {n j : Nat} {t₀ t : Growing} {V W : List Nat} (h : Climbed n j t₀ V t)
    (hVW : ∀ i, i ∈ V ↔ i ∈ W) : Climbed n j t₀ W t where
  size_parent := h.size_parent
  size_count := h.size_count
  size_reachedBy := h.size_reachedBy
  par_eq i := by simpa only [hVW] using h.par_eq i
  count_eq i := by simpa only [hVW] using h.count_eq i
  reachedBy_eq i := by simpa only [hVW] using h.reachedBy_eq i

/-- The tree `t₀` in which column `j` is about to be entered. -/
structure Ready (n j : Nat) (t₀ : Growing) : Prop where
  lt : j < n
  par_lt : ∀ i q, t₀.par i = some q → i < q ∧ q < j
  reachedBy_lt : ∀ i < j, t₀.reachedBy.getD i 0 < j
  reachedBy_self : t₀.reachedBy.getD j 0 = j

theorem Ready.increasing {n j : Nat} {t₀ : Growing} (h : Ready n j t₀) : Increasing t₀.par :=
  fun i q hq => (h.par_lt i q hq).1

/-- The node after `i` on a path: its parent in the tree before, or `j` if there is none. -/
theorem Ready.next_le {n j : Nat} {t₀ : Growing} (h : Ready n j t₀) {i : Nat} (hij : i < j) :
    i < (t₀.par i).getD j ∧ (t₀.par i).getD j ≤ j := by
  cases hq : t₀.par i with
  | none => exact ⟨hij, Nat.le_refl j⟩
  | some q =>
    obtain ⟨hiq, hqj⟩ := h.par_lt i q hq
    exact ⟨hiq, Nat.le_of_lt hqj⟩

/-- One node more has been reached when its three entries have been written. -/
theorem Climbed.cons {n j : Nat} {t₀ t : Growing} {V : List Nat} (h : Climbed n j t₀ V t) {i : Nat}
    (hi : i ∉ V) (hip : i < t.parent.size) (hic : i < t.count.size) (hir : i < t.reachedBy.size) :
    Climbed n j t₀ (i :: V)
      { parent := t.parent.set i (some ((t₀.par i).getD j)) hip
        count := t.count.set i (t.count.getD i 0 + 1) hic
        reachedBy := t.reachedBy.set i j hir } where
  size_parent := by simp [h.size_parent]
  size_count := by simp [h.size_count]
  size_reachedBy := by simp [h.size_reachedBy]
  par_eq x := by
    show (t.parent.set i (some ((t₀.par i).getD j)) hip).getD x none = _
    rw [getD_set]
    by_cases hx : x = i
    · simp [hx]
    · rw [if_neg hx, show t.parent.getD x none = t.par x from rfl, h.par_eq x]
      simp [hx]
  count_eq x := by
    rw [getD_set]
    by_cases hx : x = i
    · have hcount := h.count_eq i
      rw [if_neg hi] at hcount
      simp [hx, hcount]
    · simpa [hx] using h.count_eq x
  reachedBy_eq x := by
    rw [getD_set]
    by_cases hx : x = i
    · simp [hx]
    · simpa [hx] using h.reachedBy_eq x

/-- Climbing from `i` reaches the path from `i` in the tree before, and nothing else. -/
theorem exists_climb {n j : Nat} {t₀ : Growing} (h₀ : Ready n j t₀) (steps : Nat) {i : Nat}
    (hij : i ≤ j) (hsteps : j < i + steps) {V : List Nat} {t : Growing}
    (h : Climbed n j t₀ V t) :
    ∃ t', climb j steps i t = .ok t' ∧ Climbed n j t₀ (path t₀.par j V j i ++ V) t' := by
  induction steps generalizing i V t with
  | zero => omega
  | succ steps ih =>
    have hin : i < n := Nat.lt_of_le_of_lt hij h₀.lt
    have hip : i < t.parent.size := h.size_parent ▸ hin
    have hic : i < t.count.size := h.size_count ▸ hin
    have hir : i < t.reachedBy.size := h.size_reachedBy ▸ hin
    rw [climb, Checked.entry_eq _ _ 0 hir, Checked.ok_bind, h.reachedBy_eq i]
    by_cases hV : i ∈ V
    · rw [if_pos hV, if_pos rfl, path_of_mem j hV]
      exact ⟨t, rfl, h⟩
    rw [if_neg hV]
    rcases Nat.lt_or_eq_of_le hij with hlt | rfl
    · have hne : t₀.reachedBy.getD i 0 ≠ j := Nat.ne_of_lt (h₀.reachedBy_lt i hlt)
      have hpar : t.parent.getD i none = t₀.par i := (h.par_eq i).trans (if_neg hV)
      obtain ⟨hnext, hnext_le⟩ := h₀.next_le hlt
      rw [if_neg hne, Checked.entry_eq _ _ none hip, Checked.ok_bind]
      dsimp only
      rw [Checked.store_of_lt t.parent i _ hip, Checked.ok_bind,
        Checked.adjust_eq t.count i _ 0 hic, Checked.ok_bind,
        Checked.store_of_lt t.reachedBy i _ hir, Checked.ok_bind, hpar]
      obtain ⟨t', ht', hclimbed⟩ := ih hnext_le (by omega) (h.cons hV hip hic hir)
      refine ⟨t', ht', hclimbed.congr fun x => ?_⟩
      rw [path_cons_next h₀.increasing hlt hV]
      simp only [List.mem_append, List.mem_cons]
      tauto
    · rw [if_pos h₀.reachedBy_self, path_of_le V i (Nat.le_refl i)]
      exact ⟨t, rfl, h⟩

/-! ## 2. One column -/

/-- The tree after the columns before `j` have been entered. -/
structure Grown (A : Sparse α) (j : Nat) (t : Growing) : Prop where
  size_parent : t.parent.size = A.cols
  size_count : t.count.size = A.cols
  size_reachedBy : t.reachedBy.size = A.cols
  par_lt : ∀ i q, t.par i = some q → i < q ∧ q < j
  reachedBy_lt : ∀ i < j, t.reachedBy.getD i 0 < j
  above : ∀ k < j, ∀ i ∈ A.rowsOf k, i < k → Above t.par i k
  parent_mem : ∀ i q, t.par i = some q → i ∈ reach t.par q (A.rowsOf q)
  count_eq : ∀ i, t.count.getD i 0 = Nat.count (fun k => i ∈ reach t.par k (A.rowsOf k)) j

theorem Grown.increasing {A : Sparse α} {j : Nat} {t : Growing} (h : Grown A j t) :
    Increasing t.par := fun i q hq => (h.par_lt i q hq).1

theorem grown_zero (A : Sparse α) : Grown A 0
    { parent := Array.replicate A.cols none
      count := Array.replicate A.cols 0
      reachedBy := Array.replicate A.cols 0 } where
  size_parent := by simp
  size_count := by simp
  size_reachedBy := by simp
  par_lt i q hq := by
    unfold par at hq
    rw [getD_replicate] at hq
    cases hq
  reachedBy_lt i hi := by omega
  above k hk := by omega
  parent_mem i q hq := by
    unfold par at hq
    rw [getD_replicate] at hq
    cases hq
  count_eq i := by rw [getD_replicate, Nat.count_zero]

section Entered

variable {A : Sparse α} {j : Nat} {t t' : Growing} (h : Grown A j t)
  (hpar : ∀ i, t'.par i =
    if i ∈ reach t.par j (A.rowsOf j) then some ((t.par i).getD j) else t.par i)

include hpar

/-- Entering a column changes no parent. -/
theorem par_mono {i q : Nat} (hq : t.par i = some q) : t'.par i = some q := by
  rw [hpar i, hq]
  simp

/-- The parent of a node was its parent before, or it is the column that is entered, and the node
    is in its reach. -/
theorem cases_par {i q : Nat} (hq : t'.par i = some q) :
    t.par i = some q ∨ t.par i = none ∧ q = j ∧ i ∈ reach t.par j (A.rowsOf j) := by
  rw [hpar i] at hq
  split at hq
  · rename_i hi
    cases hp : t.par i with
    | none =>
      rw [hp, Option.getD_none, Option.some.injEq] at hq
      exact .inr ⟨rfl, hq.symm, hi⟩
    | some p =>
      rw [hp, Option.getD_some] at hq
      exact .inl hq
  · exact .inl hq

/-- Entering column `j` changes no reach up to that of `j`. -/
theorem reach_eq_of_entered {k : Nat} (hk : k ≤ j) :
    reach t'.par k (A.rowsOf k) = reach t.par k (A.rowsOf k) := by
  refine (reach_congr _ fun i _ q hq => ⟨par_mono hpar, fun hiq => ?_⟩).symm
  rcases cases_par hpar hiq with hiq | ⟨-, hqj, -⟩
  · exact hiq
  · omega

include h

/-- Every node that was reached climbs to `j`: its parent is `j`, or it was reached itself. -/
theorem Grown.above_of_reached {x : Nat} (hx : x ∈ reach t.par j (A.rowsOf j)) :
    Above t'.par x j := by
  induction hd : j - x using Nat.strongRecOn generalizing x with
  | ind d ih =>
    have hxj := lt_of_mem_reach hx
    have hstep := hpar x
    rw [if_pos hx] at hstep
    cases hp : t.par x with
    | none =>
      rw [hp, Option.getD_none] at hstep
      exact Relation.ReflTransGen.single hstep
    | some p =>
      rw [hp, Option.getD_some] at hstep
      obtain ⟨hxp, hpj⟩ := h.par_lt x p hp
      have hmem := closedBelow_reach h.increasing _ x hx p hp hpj
      exact Relation.ReflTransGen.head hstep (ih (j - p) (by omega) hmem rfl)

end Entered

/-- What holds once all paths of column `j` have been climbed. -/
theorem Grown.succ_of_climbed {A : Sparse α} {j : Nat} {t t₀ t' : Growing} (h : Grown A j t)
    (hpar : t₀.par = t.par) (hcount : t₀.count = t.count)
    (hreached : ∀ i, t₀.reachedBy.getD i 0 = if i = j then j else t.reachedBy.getD i 0)
    (h' : Climbed A.cols j t₀ (reach t.par j (A.rowsOf j)) t') : Grown A (j + 1) t' := by
  have hpar' := hpar ▸ h'.par_eq
  have hreach : ∀ k ≤ j, reach t'.par k (A.rowsOf k) = reach t.par k (A.rowsOf k) :=
    fun k hk => reach_eq_of_entered hpar' hk
  refine
    { size_parent := h'.size_parent
      size_count := h'.size_count
      size_reachedBy := h'.size_reachedBy
      par_lt := ?_
      reachedBy_lt := ?_
      above := ?_
      parent_mem := ?_
      count_eq := ?_ }
  · intro i q hq
    rcases cases_par hpar' hq with hq | ⟨-, rfl, hi⟩
    · have hlt := h.par_lt i q hq
      omega
    · exact ⟨lt_of_mem_reach hi, Nat.lt_succ_self q⟩
  · intro i hi
    rw [h'.reachedBy_eq i, hreached i]
    split
    · omega
    · split
      · omega
      · have hlt := h.reachedBy_lt i (by omega)
        omega
  · intro k hk i hi hik
    rcases Nat.lt_or_eq_of_le (Nat.lt_succ_iff.1 hk) with hlt | rfl
    · exact (h.above k hlt i hi hik).mono fun _ _ => par_mono hpar'
    · exact h.above_of_reached hpar' (mem_reach_of_mem h.increasing hi hik)
  · intro i q hq
    rcases cases_par hpar' hq with hq | ⟨-, rfl, hi⟩
    · rw [hreach q (Nat.le_of_lt (h.par_lt i q hq).2)]
      exact h.parent_mem i q hq
    · rw [hreach q (Nat.le_refl q)]
      exact hi
  · intro i
    have hsame : Nat.count (fun k => i ∈ reach t'.par k (A.rowsOf k)) j =
        Nat.count (fun k => i ∈ reach t.par k (A.rowsOf k)) j := by
      rw [Nat.count_eq_card_filter_range, Nat.count_eq_card_filter_range]
      congr 1
      refine Finset.filter_congr fun k hk => ?_
      rw [hreach k (Nat.le_of_lt (Finset.mem_range.1 hk))]
    rw [Nat.count_succ, hreach j (Nat.le_refl j), h'.count_eq i, hcount, h.count_eq i, hsame]
    split <;> rfl

theorem exists_growColumn {A : Sparse α} (hA : A.Sliced) (hupper : A.Upper) {j : Nat}
    (hj : j < A.cols) {t : Growing} (h : Grown A j t) :
    ∃ t', growColumn A t j = .ok t' ∧ Grown A (j + 1) t' := by
  have hjr : j < t.reachedBy.size := h.size_reachedBy ▸ hj
  have hrows : ∀ i ∈ A.rowsOf j, i ≤ j := fun i hi => hupper.le_of_mem_rowsOf hj hi
  unfold growColumn
  rw [Checked.store_of_lt _ _ _ hjr, Checked.ok_bind, hA.columnRows_eq hj, Checked.ok_bind]
  generalize ht₀ : ({ t with reachedBy := t.reachedBy.set j j hjr } : Growing) = t₀
  have hreached : ∀ i, t₀.reachedBy.getD i 0 = if i = j then j else t.reachedBy.getD i 0 := by
    intro i
    rw [← ht₀]
    exact getD_set _ _ _ hjr _ _
  have hready : Ready A.cols j t₀ :=
    { lt := hj
      par_lt := by rw [← ht₀]; exact h.par_lt
      reachedBy_lt := by
        intro i hi
        rw [hreached i, if_neg (by omega)]
        exact h.reachedBy_lt i hi
      reachedBy_self := by rw [hreached j, if_pos rfl] }
  have hpar : t₀.par = t.par := by rw [← ht₀]
  have hstart : Climbed A.cols j t₀ [] t₀ :=
    { size_parent := by rw [← ht₀]; exact h.size_parent
      size_count := by rw [← ht₀]; exact h.size_count
      size_reachedBy := by rw [← ht₀]; simp [h.size_reachedBy]
      par_eq := fun i => by simp
      count_eq := fun i => by simp
      reachedBy_eq := fun i => by simp }
  obtain ⟨t', ht', hclimbed⟩ := Checked.exists_foldlM
    (fun rows t' => Climbed A.cols j t₀ (reach t.par j rows) t')
    (fun t row => climb j (A.cols + 1) row t) (A.rowsOf j) t₀ hstart
    (by
      intro done i todo s hsplit hs
      have hi : i ≤ j := hrows i (by rw [hsplit]; simp)
      obtain ⟨s', hs', hnext⟩ := exists_climb hready (A.cols + 1) hi (by omega) hs
      rw [hpar, ← reach_concat] at hnext
      exact ⟨s', hs', hnext⟩)
  exact ⟨t', ht', h.succ_of_climbed hpar (ht₀ ▸ rfl) hreached hclimbed⟩

/-! ## 3. The tree -/

/-- **The elimination tree of an upper triangle is found, and is its tree.** -/
theorem exists_ofUpper {A : Sparse α} (hA : A.Sliced) (hupper : A.Upper) :
    ∃ T, ofUpper A = .ok T ∧ TreeOf A T := by
  obtain ⟨t, ht, hgrown⟩ := Checked.exists_foldRange (Grown A) (growColumn A) 0 A.cols _
    (Nat.zero_le _) (grown_zero A) fun j s _ hj hs => exists_growColumn hA hupper hj hs
  refine ⟨t.toEliminationTree, by rw [ofUpper, ht]; rfl, ?_⟩
  exact
    { size_parent := hgrown.size_parent
      size_count := hgrown.size_count
      increasing := hgrown.increasing
      above := hgrown.above
      parent_mem := fun i q hq => ⟨(hgrown.par_lt i q hq).2, hgrown.parent_mem i q hq⟩
      count_eq := fun i _ => hgrown.count_eq i }

end EliminationTree

end Quasidefinite
