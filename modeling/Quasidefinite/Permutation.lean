import Quasidefinite.Checked

/-!
# Permutations as arrays

A permutation of `0, …, n - 1` is an array `p` of that length: position `k` holds `p[k]`. This
module decides which arrays are permutations by building the inverse (`Permutation.inverse?`),
and moves the entries of a vector along a permutation in both directions (`gather`, `scatter`).
-/

namespace Quasidefinite

namespace Permutation

variable {α : Type}

/-! ## 1. The inverse -/

/-- Enters position `i` in slot `j`, which has to exist and to be free. -/
def place (slots : Array (Option Nat)) : Nat × Nat → Option (Array (Option Nat))
  | (j, i) => if slots[j]? = some none then some (slots.setIfInBounds j (some i)) else none

/-- The inverse of `p`, if `p` is a permutation: every element points into the array, no two to
    the same slot, and no slot stays free. -/
def inverse? (p : Array Nat) : Option (Array Nat) := do
  let slots ← p.toList.zipIdx.foldlM place (Array.replicate p.size none)
  let inverse ← slots.toList.mapM id
  pure inverse.toArray

/-! ## 2. Moving entries -/

/-- Writes `b[p[i]]` over `x[i]`, as far as both `x` and `p` reach. -/
def gather (x b : Array α) (p : Array Nat) : Checked (Array α) :=
  Checked.foldRange 0 (min x.size p.size)
    (fun x i => do
      let v ← Checked.entry b (← Checked.entry p i)
      Checked.store x i v)
    x

/-- Writes `b[i]` over `x[p[i]]`, as far as both `b` and `p` reach. -/
def scatter (x b : Array α) (p : Array Nat) : Checked (Array α) :=
  Checked.foldRange 0 (min b.size p.size)
    (fun x i => do
      let v ← Checked.entry b i
      Checked.store x (← Checked.entry p i) v)
    x

/-! ## 3. The identity -/

/-- Slots of which the first `k` hold their own position and the other `n` are free. -/
def slotsUpTo (k n : Nat) : List (Option Nat) :=
  (List.range k).map some ++ List.replicate n none

theorem place_slotsUpTo (k n : Nat) :
    place (slotsUpTo k (n + 1)).toArray (k, k) = some (slotsUpTo (k + 1) n).toArray := by
  have hfree : (slotsUpTo k (n + 1))[k]? = some none := by
    simp [slotsUpTo, List.replicate_succ]
  have hset : (slotsUpTo k (n + 1)).set k (some k) = slotsUpTo (k + 1) n := by
    simp [slotsUpTo, List.replicate_succ, List.range_succ]
  simp [place, hfree, hset]

theorem foldlM_place_range' (k n : Nat) :
    ((List.range' k n).zipIdx k).foldlM place (slotsUpTo k n).toArray =
      some (slotsUpTo (k + n) 0).toArray := by
  induction n generalizing k with
  | zero => simp
  | succ n ih =>
    rw [List.range'_succ, List.zipIdx_cons, List.foldlM_cons, place_slotsUpTo]
    simpa [Nat.add_comm, Nat.add_left_comm] using ih (k + 1)

theorem mapM_id_map_some (xs : List Nat) : (xs.map some).mapM id = some xs := by
  induction xs with
  | nil => rfl
  | cons x xs ih => simp [List.mapM_cons, ih]

/-- **The identity is its own inverse.** -/
theorem inverse?_range (n : Nat) : inverse? (Array.range n) = some (Array.range n) := by
  have hrun := foldlM_place_range' 0 n
  rw [← List.range_eq_range'] at hrun
  have hslots := mapM_id_map_some (List.range n)
  simp_all [inverse?, slotsUpTo, List.toArray_range]

end Permutation

end Quasidefinite
