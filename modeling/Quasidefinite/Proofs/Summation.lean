import Mathlib.Data.List.Basic
import Quasidefinite.Vec
import Quasidefinite.Proofs.Exact
import Quasidefinite.Proofs.Loop

/-!
# The order of sums

Rounded addition is not associative, so a sum is told by the additions it makes. This module fixes
the shape of a sum as a tree (`SumTree`): the leaves are blocks of terms, named by their indices
and added one after another to zero, and every inner node adds the values of its two parts.

* `SumTree.halving` is the tree of the library: a block that is not short is cut in two. It names
  every index once, in increasing order (`SumTree.indices_halving`), and its blocks are short
  (`SumTree.length_lt_of_mem_blocks_halving`).
* `Vec.treeSum_eq_sum`: the balanced sum is the value of that tree, whatever the number type. Its
  bound on the depth is never what ends a descent.
* `SumTree.sum_eq_sequentialSum`: where addition is associative, the value of a tree depends on
  the order of its indices alone, so the balanced sum is that from left to right.

Main statement: `Vec.dot_adds_in_order`.
-/

namespace Quasidefinite

/-! ## 1. Sums from left to right -/

section Sequential

variable {α : Type} [Zero α] [Add α]

/-- The terms with the listed indices, added one after another to zero. -/
def sequentialSum (term : Nat → α) (indices : List Nat) : α :=
  indices.foldl (fun sum i => sum + term i) 0

theorem sequentialSum_congr {f g : Nat → α} {indices : List Nat} (h : ∀ i ∈ indices, f i = g i) :
    sequentialSum f indices = sequentialSum g indices := by
  unfold sequentialSum
  refine List.foldl_ext _ _ _ fun sum i hi => ?_
  rw [h i hi]

/-- **Where addition is associative**, two sums one after the other add up to the sum of both. -/
theorem sequentialSum_append (hassoc : ∀ a b c : α, a + b + c = a + (b + c))
    (hzero : ∀ a : α, a + 0 = a) (term : Nat → α) (is js : List Nat) :
    sequentialSum term (is ++ js) = sequentialSum term is + sequentialSum term js := by
  have hassociative : Std.Associative fun a b : α => a + b := ⟨hassoc⟩
  have hfold : ∀ (ks : List Nat) (a : α),
      ks.foldl (fun sum i => sum + term i) a = (ks.map term).foldl (fun a b => a + b) a :=
    fun ks a => List.foldl_map.symm
  unfold sequentialSum
  rw [List.foldl_append, hfold js, hfold js]
  -- the second sum starts from the value of the first, which is that value and zero
  conv_lhs => rw [← hzero (is.foldl _ 0)]
  exact List.foldl_assoc

end Sequential

/-! ## 2. Trees of additions -/

/-- The shape of a sum: which terms are added one after another, and which partial sums are then
    added to each other. -/
inductive SumTree
  /-- The terms with these indices, from left to right. -/
  | block (indices : List Nat)
  /-- The value of the left part plus that of the right part. -/
  | add (left right : SumTree)
  deriving DecidableEq, Repr

namespace SumTree

/-- The runs of terms that are added one after another, from left to right. -/
def blocks : SumTree → List (List Nat)
  | block is => [is]
  | add left right => left.blocks ++ right.blocks

/-- The indices of the terms, from left to right. -/
def indices (t : SumTree) : List Nat := t.blocks.flatten

@[simp] theorem indices_block (is : List Nat) : (block is).indices = is := by
  simp [indices, blocks]

@[simp] theorem indices_add (left right : SumTree) :
    (add left right).indices = left.indices ++ right.indices := by
  simp [indices, blocks]

section Value

variable {α : Type} [Zero α] [Add α]

/-- The value of the sum of the given terms. -/
def sum (term : Nat → α) : SumTree → α
  | block is => sequentialSum term is
  | add left right => left.sum term + right.sum term

/-- A sum reads the terms it names and no others. -/
theorem sum_congr {f g : Nat → α} {t : SumTree} (h : ∀ i ∈ t.indices, f i = g i) :
    t.sum f = t.sum g := by
  induction t with
  | block is => exact sequentialSum_congr (by simpa using h)
  | add left right hleft hright =>
    rw [indices_add] at h
    rw [sum, sum, hleft fun i hi => h i (List.mem_append_left _ hi),
      hright fun i hi => h i (List.mem_append_right _ hi)]

/-- **Where addition is associative**, a tree has the value of the sum from left to right. -/
theorem sum_eq_sequentialSum (hassoc : ∀ a b c : α, a + b + c = a + (b + c))
    (hzero : ∀ a : α, a + 0 = a) (term : Nat → α) (t : SumTree) :
    t.sum term = sequentialSum term t.indices := by
  induction t with
  | block is => rw [sum, indices_block]
  | add left right hleft hright =>
    rw [sum, indices_add, sequentialSum_append hassoc hzero, hleft, hright]

end Value

/-! ## 3. Halving -/

/-- The sum of the `count` terms from `start` on: a block that is not short is cut in two, the
    smaller half first, and each half is summed in the same way. -/
def halving (start count : Nat) : SumTree :=
  if count < Vec.blockSize then block (List.range' start count)
  else add (halving start (count / 2)) (halving (start + count / 2) (count - count / 2))
termination_by count
decreasing_by all_goals (simp only [Vec.blockSize] at *; omega)

theorem halving_of_lt {start count : Nat} (h : count < Vec.blockSize) :
    halving start count = block (List.range' start count) := by
  rw [halving, if_pos h]

theorem halving_of_not_lt {start count : Nat} (h : ¬ count < Vec.blockSize) :
    halving start count =
      add (halving start (count / 2)) (halving (start + count / 2) (count - count / 2)) := by
  rw [halving, if_neg h]

/-- **No term is left out, doubled or moved** where a block is cut. -/
theorem indices_halving (start count : Nat) :
    (halving start count).indices = List.range' start count := by
  fun_induction halving start count with
  | case1 start count _ => exact indices_block _
  | case2 start count _ hleft hright =>
    have hsplit : count / 2 + (count - count / 2) = count := by omega
    rw [indices_add, hleft, hright, List.range'_append_1, hsplit]

/-- Every block is short. -/
theorem length_lt_of_mem_blocks_halving {start count : Nat} {is : List Nat}
    (h : is ∈ (halving start count).blocks) : is.length < Vec.blockSize := by
  fun_induction halving start count with
  | case1 start count hsmall =>
    obtain rfl := List.mem_singleton.1 h
    rwa [List.length_range']
  | case2 start count _ hleft hright =>
    rcases List.mem_append.1 h with h | h
    · exact hleft h
    · exact hright h

example : (halving 0 65).blocks.map List.length = [16, 16, 16, 17] := by cbv

end SumTree

/-! ## 4. The sums of vectors -/

namespace Vec

open SumTree

variable {α : Type} [Scalar α]

theorem blockSum_eq_sequentialSum (terms : Array α) {start count : Nat}
    (h : start + count ≤ terms.size) :
    blockSum terms start count =
      sequentialSum (fun i => terms.getD i 0) (List.range' start count) := by
  unfold blockSum sequentialSum
  rw [← Array.foldl_toList, toList_extract _ _ _ 0 h, Nat.add_sub_cancel_left, List.foldl_map]

/-- **The bound on the depth is out of reach**: a descent that may go as deep as there are terms
    makes the additions of the tree that halves without a bound. -/
theorem treeSumFrom_eq_sum (terms : Array α) {depth start count : Nat} (hdepth : count ≤ depth)
    (hsize : start + count ≤ terms.size) :
    treeSumFrom terms depth start count =
      (halving start count).sum fun i => terms.getD i 0 := by
  induction depth generalizing start count with
  | zero =>
    obtain rfl : count = 0 := Nat.le_zero.1 hdepth
    rw [halving_of_lt (by decide)]
    exact blockSum_eq_sequentialSum terms hsize
  | succ depth ih =>
    rw [treeSumFrom]
    by_cases hsmall : count < blockSize
    · rw [if_pos hsmall, halving_of_lt hsmall]
      exact blockSum_eq_sequentialSum terms hsize
    · have hlarge : 32 ≤ count := Nat.le_of_not_lt hsmall
      rw [if_neg hsmall, halving_of_not_lt hsmall, ih (by omega) (by omega),
        ih (by omega) (by omega)]
      rfl

theorem treeSum_eq_sum (terms : Array α) :
    treeSum terms = (halving 0 terms.size).sum fun i => terms.getD i 0 :=
  treeSumFrom_eq_sum terms (Nat.le_refl _) (by omega)

theorem treeSum_eq_sequentialSum (hassoc : ∀ a b c : α, a + b + c = a + (b + c))
    (hzero : ∀ a : α, a + 0 = a) (terms : Array α) :
    treeSum terms = sequentialSum (fun i => terms.getD i 0) (List.range terms.size) := by
  rw [treeSum_eq_sum, sum_eq_sequentialSum hassoc hzero, indices_halving, List.range_eq_range']

/-- **The inner product adds every product once, in order.** It answers for all vectors of equal
    length, and whatever the arithmetic its answer is the value of a tree of additions: the tree
    depends on the length alone, names the indices of the vectors in increasing order, each once,
    and adds fewer than 32 products in a row. Where addition is associative and zero is neutral,
    this is the sum of the products from left to right. -/
theorem dot_adds_in_order {x y : Array α} (hsize : x.size = y.size) :
    dot x y = .ok ((halving 0 x.size).sum fun i => x.getD i 0 * y.getD i 0) ∧
    (halving 0 x.size).indices = List.range x.size ∧
    (∀ is ∈ (halving 0 x.size).blocks, is.length < 32) ∧
    ((∀ a b c : α, a + b + c = a + (b + c)) → (∀ a : α, a + 0 = a) →
      dot x y = .ok (sequentialSum (fun i => x.getD i 0 * y.getD i 0) (List.range x.size))) := by
  have hindices : (halving 0 x.size).indices = List.range x.size := by
    rw [indices_halving, List.range_eq_range']
  have hproduct : ∀ i ∈ (halving 0 x.size).indices,
      (Array.zipWith (· * ·) x y).getD i 0 = x.getD i 0 * y.getD i 0 := by
    intro i hi
    rw [hindices, List.mem_range] at hi
    exact getD_zipWith _ 0 0 0 hi (hi.trans_eq hsize)
  have hdot : dot x y = .ok ((halving 0 x.size).sum fun i => x.getD i 0 * y.getD i 0) := by
    unfold dot
    rw [Checked.require_of _ _ hsize, Checked.ok_bind, Checked.pure_eq_ok, treeSum_eq_sum,
      Array.size_zipWith, ← hsize, Nat.min_self, sum_congr hproduct]
  refine ⟨hdot, hindices, fun is h => length_lt_of_mem_blocks_halving h, fun hassoc hzero => ?_⟩
  rw [hdot, sum_eq_sequentialSum hassoc hzero, hindices]

/-- The numbers from 1 to 65. -/
def sampleCounts : Array ℚ := ((List.range 65).map fun i => (i : ℚ) + 1).toArray

/-- The numbers from -1 to 31, in steps of a half. -/
def sampleWeights : Array ℚ := ((List.range 65).map fun i => ((i : ℚ) - 2) / 2).toArray

open scoped Scalar in
/-- Sixty-five products are cut into blocks of 16, 16, 16 and 17. -/
theorem dot_adds_in_order_sample : sampleCounts.size = sampleWeights.size ∧
    (∀ a b c : ℚ, a + b + c = a + (b + c)) ∧ (∀ a : ℚ, a + 0 = a) ∧
    dot sampleCounts sampleWeights = .ok 43615 ∧
    (halving 0 65).sum (fun i => sampleCounts.getD i 0 * sampleWeights.getD i 0) = 43615 ∧
    (halving 0 65).indices = List.range 65 ∧
    ∀ is ∈ (halving 0 65).blocks, is.length < 32 := by
  have hplainSum : sequentialSum (fun i => sampleCounts.getD i 0 * sampleWeights.getD i 0)
      (List.range 65) = 43615 := by
    decide +kernel
  obtain ⟨htree, hindices, hblocks, hplain⟩ :=
    dot_adds_in_order (x := sampleCounts) (y := sampleWeights) rfl
  have hdot : dot sampleCounts sampleWeights = .ok 43615 :=
    (hplain add_assoc add_zero).trans (congrArg Except.ok hplainSum)
  exact ⟨rfl, add_assoc, add_zero, hdot, Except.ok.inj (htree.symm.trans hdot), hindices, hblocks⟩

end Vec

end Quasidefinite
