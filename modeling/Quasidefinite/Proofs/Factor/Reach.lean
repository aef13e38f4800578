import Mathlib.Data.List.Induction
import Mathlib.Data.List.Perm.Subperm
import Mathlib.Logic.Relation

/-!
# Paths and reaches in a forest

The columns of a triangular factor form a forest in which parents come after their children
(`Increasing`). Which entries row `k` of the factor can have is a question about that forest
alone: they lie on the paths upwards from the rows of column `k` of the matrix, as far as these
stay before `k`. This module defines one such path (`path`) and their union in the order in which
the factorization visits it (`reach`), and proves what the factorization rests on:

* a reach holds the ancestors before `k` of its members (`mem_reach_of_above`), and only
  ancestors of the rows it starts from (`above_of_mem_reach`);
* no member of a reach comes after one of its ancestors (`pairwise_reach`), so it has at most `k`
  of them (`length_reach_le`);
* a reach in row `k` does not depend on the parents from `k` on (`reach_congr`).
-/

namespace Quasidefinite

namespace Forest

/-- Parents come after their children. -/
def Increasing (parent : Nat → Option Nat) : Prop := ∀ i j, parent i = some j → i < j

/-- `j` is `i` or one of its ancestors. -/
def Above (parent : Nat → Option Nat) (i j : Nat) : Prop :=
  Relation.ReflTransGen (fun a b => parent a = some b) i j

/-- The nodes before `k` from `i` upwards, as far as they are not in `seen`. -/
def path (parent : Nat → Option Nat) (k : Nat) (seen : List Nat) : (steps i : Nat) → List Nat
  | 0, _ => []
  | steps + 1, i =>
    if i < k ∧ i ∉ seen then i :: ((parent i).map (path parent k seen steps)).getD []
    else []

/-- The nodes before `k` on the paths upwards from `rows`, each path in front of the earlier
    ones. -/
def reach (parent : Nat → Option Nat) (k : Nat) (rows : List Nat) : List Nat :=
  rows.foldl (fun seen i => path parent k seen k i ++ seen) []

/-- A set of nodes before `k` that holds, with a node, its parent. -/
def ClosedBelow (parent : Nat → Option Nat) (k : Nat) (seen : List Nat) : Prop :=
  ∀ i ∈ seen, ∀ j, parent i = some j → j < k → j ∈ seen

variable {parent : Nat → Option Nat} {k : Nat}

/-! ## 1. Ancestors -/

theorem Above.le (hp : Increasing parent) {i j : Nat} (h : Above parent i j) : i ≤ j := by
  induction h with
  | refl => exact Nat.le_refl i
  | tail _ hab ih => exact Nat.le_trans ih (Nat.le_of_lt (hp _ _ hab))

/-- The ancestors of a node form a chain. -/
theorem Above.of_le (hp : Increasing parent) {i a b : Nat} (ha : Above parent i a)
    (hb : Above parent i b) (hab : a ≤ b) : Above parent a b := by
  induction ha using Relation.ReflTransGen.head_induction_on with
  | refl => exact hb
  | head hstep hca ih =>
    rename_i i c
    rcases Relation.ReflTransGen.cases_head hb with rfl | ⟨d, hd, hdb⟩
    · have h₁ := hp _ _ hstep
      have h₂ : c ≤ a := Above.le hp hca
      omega
    · obtain rfl : c = d := Option.some.inj (hstep.symm.trans hd)
      exact ih hdb

theorem Above.mono {parent' : Nat → Option Nat} (h : ∀ i j, parent i = some j → parent' i = some j)
    {i j : Nat} (hij : Above parent i j) : Above parent' i j :=
  Relation.ReflTransGen.mono h _ _ hij

/-! ## 2. Paths -/

theorem path_of_le (seen : List Nat) (steps : Nat) {i : Nat} (hi : k ≤ i) :
    path parent k seen steps i = [] := by
  cases steps with
  | zero => rfl
  | succ steps => rw [path, if_neg (by omega)]

theorem path_of_mem {seen : List Nat} (steps : Nat) {i : Nat} (hi : i ∈ seen) :
    path parent k seen steps i = [] := by
  cases steps with
  | zero => rfl
  | succ steps => rw [path, if_neg (by simp [hi])]

/-- Steps enough to reach `k` are as good as any greater number. -/
theorem path_steps (hp : Increasing parent) (seen : List Nat) (s t : Nat) {i : Nat}
    (hs : k ≤ i + s) (ht : k ≤ i + t) : path parent k seen s i = path parent k seen t i := by
  induction s generalizing t i with
  | zero => rw [path_of_le seen 0 (i := i) (by omega), path_of_le seen t (i := i) (by omega)]
  | succ s ih =>
    cases t with
    | zero =>
      rw [path_of_le seen 0 (i := i) (by omega), path_of_le seen (s + 1) (i := i) (by omega)]
    | succ t =>
      rw [path, path]
      cases hj : parent i with
      | none => rfl
      | some j =>
        have hij := hp i j hj
        simp only [Option.map_some, Option.getD_some]
        rw [ih t (i := j) (by omega) (by omega)]

theorem path_cons (hp : Increasing parent) {seen : List Nat} {i : Nat} (hi : i < k)
    (hseen : i ∉ seen) : path parent k seen k i =
      i :: ((parent i).map (path parent k seen k)).getD [] := by
  obtain ⟨k, rfl⟩ : ∃ l, k = l + 1 := ⟨k - 1, by omega⟩
  rw [path, if_pos ⟨hi, hseen⟩]
  cases hj : parent i with
  | none => rfl
  | some j =>
    have hij := hp i j hj
    simp only [Option.map_some, Option.getD_some]
    rw [path_steps hp seen k (k + 1) (i := j) (by omega) (by omega)]

/-- What is seen below the start of a path does not matter to it. -/
theorem path_cons_seen (hp : Increasing parent) (seen : List Nat) (steps : Nat) {h i : Nat}
    (hi : h < i) : path parent k (h :: seen) steps i = path parent k seen steps i := by
  induction steps generalizing i with
  | zero => rfl
  | succ steps ih =>
    have hmem : i ∈ h :: seen ↔ i ∈ seen := by
      rw [List.mem_cons, or_iff_right (by omega)]
    simp only [path, hmem]
    cases hj : parent i with
    | none => rfl
    | some j =>
      simp only [Option.map_some, Option.getD_some]
      rw [ih (Nat.lt_trans hi (hp i j hj))]

/-- A path goes on from the parent of its start, or ends there, with the start seen. -/
theorem path_cons_next (hp : Increasing parent) {seen : List Nat} {i : Nat} (hi : i < k)
    (hseen : i ∉ seen) :
    path parent k seen k i = i :: path parent k (i :: seen) k ((parent i).getD k) := by
  rw [path_cons hp hi hseen]
  cases hj : parent i with
  | none =>
    rw [Option.map_none, Option.getD_none, Option.getD_none, path_of_le _ k (Nat.le_refl k)]
  | some j =>
    rw [Option.map_some, Option.getD_some, Option.getD_some, path_cons_seen hp seen k (hp i j hj)]

theorem of_mem_path (seen : List Nat) (steps : Nat) {i x : Nat}
    (hx : x ∈ path parent k seen steps i) : x < k ∧ x ∉ seen ∧ Above parent i x := by
  induction steps generalizing i with
  | zero => cases hx
  | succ steps ih =>
    rw [path] at hx
    split at hx
    · rename_i hi
      rcases List.mem_cons.1 hx with rfl | hx
      · exact ⟨hi.1, hi.2, Relation.ReflTransGen.refl⟩
      · cases hj : parent i with
        | none => simp [hj] at hx
        | some j =>
          rw [hj] at hx
          obtain ⟨h₁, h₂, h₃⟩ := ih hx
          exact ⟨h₁, h₂, Relation.ReflTransGen.head hj h₃⟩
    · cases hx

theorem closedBelow_path_append (hp : Increasing parent) {seen : List Nat}
    (hseen : ClosedBelow parent k seen) (steps : Nat) {i : Nat} (hs : k ≤ i + steps) :
    ClosedBelow parent k (path parent k seen steps i ++ seen) := by
  induction steps generalizing i with
  | zero => exact hseen
  | succ steps ih =>
    rw [path]
    split
    · intro x hx j hj hjk
      rcases List.mem_append.1 hx with hx | hx
      · rcases List.mem_cons.1 hx with rfl | hx
        · -- the parent of the start is the next node, unless it is seen already
          by_cases hjseen : j ∈ seen
          · exact List.mem_append_right _ hjseen
          · have hxj := hp x j hj
            obtain ⟨steps, rfl⟩ : ∃ s, steps = s + 1 := ⟨steps - 1, by omega⟩
            rw [hj, Option.map_some, Option.getD_some, path, if_pos ⟨hjk, hjseen⟩]
            simp
        · cases hq : parent i with
          | none => simp [hq] at hx
          | some q =>
            rw [hq] at hx
            have hiq := hp i q hq
            have := ih (i := q) (by omega) x (List.mem_append_left _ hx) j hj hjk
            rcases List.mem_append.1 this with h | h
            · exact List.mem_append_left _ (List.mem_cons_of_mem i h)
            · exact List.mem_append_right _ h
      · exact List.mem_append_right _ (hseen x hx j hj hjk)
    · exact hseen

theorem pairwise_path (hp : Increasing parent) (seen : List Nat) (steps i : Nat) :
    (path parent k seen steps i).Pairwise (· < ·) := by
  induction steps generalizing i with
  | zero => exact List.Pairwise.nil
  | succ steps ih =>
    rw [path]
    split
    · cases hj : parent i with
      | none => simp
      | some j =>
        simp only [Option.map_some, Option.getD_some]
        refine List.pairwise_cons.2 ⟨fun x hx => ?_, ih j⟩
        exact Nat.lt_of_lt_of_le (hp i j hj) (Above.le hp (of_mem_path seen steps hx).2.2)
    · exact List.Pairwise.nil

theorem path_congr {parent' : Nat → Option Nat} (seen : List Nat) (steps : Nat) {i : Nat}
    (h : ∀ i < k, ∀ j < k, parent i = some j ↔ parent' i = some j) :
    path parent k seen steps i = path parent' k seen steps i := by
  induction steps generalizing i with
  | zero => rfl
  | succ steps ih =>
    rw [path, path]
    by_cases hi : i < k ∧ i ∉ seen
    · rw [if_pos hi, if_pos hi]
      -- a parent from `k` on ends the path as a missing one does
      have hend : ∀ q : Nat → Option Nat, (∀ j, q i = some j → k ≤ j) →
          ((q i).map (path q k seen steps)).getD [] = [] := by
        intro q hq
        cases hj : q i with
        | none => rfl
        | some j => exact path_of_le seen steps (hq j hj)
      by_cases hj : ∃ j < k, parent i = some j
      · obtain ⟨j, hjk, hj⟩ := hj
        rw [hj, (h i hi.1 j hjk).1 hj, Option.map_some, Option.map_some, ih]
      · have h₁ : ∀ j, parent i = some j → k ≤ j := fun j hij =>
          Nat.le_of_not_lt fun hjk => hj ⟨j, hjk, hij⟩
        have h₂ : ∀ j, parent' i = some j → k ≤ j := fun j hij =>
          Nat.le_of_not_lt fun hjk => hj ⟨j, hjk, (h i hi.1 j hjk).2 hij⟩
        rw [hend parent h₁, hend parent' h₂]
    · rw [if_neg hi, if_neg hi]

/-! ## 3. Reaches -/

theorem reach_concat (rows : List Nat) (i : Nat) : reach parent k (rows ++ [i]) =
    path parent k (reach parent k rows) k i ++ reach parent k rows := by
  simp [reach]

theorem lt_of_mem_reach {rows : List Nat} {x : Nat} (hx : x ∈ reach parent k rows) : x < k := by
  induction rows using List.reverseRecOn with
  | nil => cases hx
  | append_singleton rows i ih =>
    rw [reach_concat] at hx
    rcases List.mem_append.1 hx with hx | hx
    · exact (of_mem_path _ _ hx).1
    · exact ih hx

/-- **A reach holds only ancestors of the rows it starts from.** -/
theorem above_of_mem_reach {rows : List Nat} {x : Nat} (hx : x ∈ reach parent k rows) :
    ∃ i ∈ rows, Above parent i x := by
  induction rows using List.reverseRecOn with
  | nil => cases hx
  | append_singleton rows i ih =>
    rw [reach_concat] at hx
    rcases List.mem_append.1 hx with hx | hx
    · exact ⟨i, by simp, (of_mem_path _ _ hx).2.2⟩
    · obtain ⟨r, hr, hrx⟩ := ih hx
      exact ⟨r, List.mem_append_left _ hr, hrx⟩

theorem mem_reach_of_mem (hp : Increasing parent) {rows : List Nat} {i : Nat} (hi : i ∈ rows)
    (hik : i < k) : i ∈ reach parent k rows := by
  induction rows using List.reverseRecOn with
  | nil => cases hi
  | append_singleton rows j ih =>
    rw [reach_concat]
    rcases List.mem_append.1 hi with hi | hi
    · exact List.mem_append_right _ (ih hi)
    · obtain rfl := List.mem_singleton.1 hi
      by_cases hmem : i ∈ reach parent k rows
      · exact List.mem_append_right _ hmem
      · rw [path_cons hp hik hmem]
        simp

theorem closedBelow_reach (hp : Increasing parent) (rows : List Nat) :
    ClosedBelow parent k (reach parent k rows) := by
  induction rows using List.reverseRecOn with
  | nil => intro i hi; cases hi
  | append_singleton rows i ih =>
    rw [reach_concat]
    exact closedBelow_path_append hp ih k (by omega)

/-- **A reach holds the ancestors before `k` of its members.** -/
theorem mem_reach_of_above (hp : Increasing parent) {rows : List Nat} {x y : Nat}
    (hx : x ∈ reach parent k rows) (hxy : Above parent x y) (hy : y < k) :
    y ∈ reach parent k rows := by
  induction hxy with
  | refl => exact hx
  | tail hxb hstep ih =>
    rename_i b c
    have hbc := hp b c hstep
    exact closedBelow_reach hp rows b (ih (by omega)) c hstep hy

/-- **No member of a reach comes after one of its ancestors.** -/
theorem pairwise_reach (hp : Increasing parent) (rows : List Nat) :
    (reach parent k rows).Pairwise fun a b => ¬ Above parent b a := by
  induction rows using List.reverseRecOn with
  | nil => exact List.Pairwise.nil
  | append_singleton rows i ih =>
    rw [reach_concat]
    refine List.pairwise_append.2 ⟨?_, ih, ?_⟩
    · refine (pairwise_path hp _ k i).imp fun {a b} hab habove => ?_
      have := Above.le hp habove
      omega
    · intro a ha b hb habove
      obtain ⟨hak, hseen, -⟩ := of_mem_path _ _ ha
      exact hseen (mem_reach_of_above hp hb habove hak)

theorem nodup_reach (hp : Increasing parent) (rows : List Nat) : (reach parent k rows).Nodup :=
  (pairwise_reach hp rows).imp fun {a b} h hab => by
    subst hab
    exact h Relation.ReflTransGen.refl

/-- **A reach before `k` has at most `k` members.** -/
theorem length_reach_le (hp : Increasing parent) (rows : List Nat) :
    (reach parent k rows).length ≤ k := by
  have hsubset : reach parent k rows ⊆ List.range k := fun x hx =>
    List.mem_range.2 (lt_of_mem_reach hx)
  have hle := (List.Nodup.subperm (nodup_reach hp rows) hsubset).length_le
  rwa [List.length_range] at hle

theorem reach_congr {parent' : Nat → Option Nat} (rows : List Nat)
    (h : ∀ i < k, ∀ j < k, parent i = some j ↔ parent' i = some j) :
    reach parent k rows = reach parent' k rows := by
  induction rows using List.reverseRecOn with
  | nil => rfl
  | append_singleton rows i ih => rw [reach_concat, reach_concat, ih, path_congr _ k h]

end Forest

end Quasidefinite
