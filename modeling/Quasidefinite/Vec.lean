import Quasidefinite.Scalar
import Quasidefinite.Checked

/-!
# Dense vectors

Vectors are arrays. The operations come in two families. Those that combine vectors as a linear
algebra would (`copy`, `dot`, `axpby`, `waxpby`) fault when the lengths disagree; those that work
entry by entry (`mapOver`, `hadamard`, `distanceInf`) stop at the end of the shorter vector.

Sums are accumulated over a balanced tree (`treeSum`), whose rounding error grows with the
logarithm of the length; blocks of fewer than 32 terms are summed from left to right.
-/

namespace Quasidefinite

namespace Vec

variable {α β : Type}

/-! ## 1. Entrywise operations -/

/-- Replaces each entry of `x` that has a partner in `y` by `f` of the two, and keeps the rest. -/
def overlay (f : α → β → α) (x : Array α) (y : Array β) : Array α :=
  x.mapIdx fun i xi =>
    match y[i]? with
    | some yi => f xi yi
    | none => xi

/-- Writes `f` of each entry of `v` over the entry of `x` at the same position. -/
def mapOver (f : β → α) (x : Array α) (v : Array β) : Array α :=
  overlay (fun _ vi => f vi) x v

/-- Sets every entry to `c`. -/
def fill (x : Array α) (c : α) : Array α := x.map fun _ => c

@[simp] theorem size_overlay (f : α → β → α) (x : Array α) (y : Array β) :
    (overlay f x y).size = x.size := by
  simp [overlay]

@[simp] theorem size_mapOver (f : β → α) (x : Array α) (v : Array β) :
    (mapOver f x v).size = x.size := by
  simp [mapOver]

@[simp] theorem size_fill (x : Array α) (c : α) : (fill x c).size = x.size := by
  simp [fill]

/-- The vector `src`, written over a vector of the same length. -/
def copy (x src : Array α) : Checked (Array α) := do
  Checked.require (x.size = src.size) .lengthMismatch
  pure src

variable [Scalar α]

/-- The vector of `n` zeros. -/
def zeros (n : Nat) : Array α := Array.replicate n 0

/-- Multiplies every entry by `c`, on the right. -/
def scale (x : Array α) (c : α) : Array α := x.map (· * c)

/-- Replaces every entry by its reciprocal. -/
def recip (x : Array α) : Array α := x.map Scalar.recip

/-- Changes the sign of every entry. -/
def negate (x : Array α) : Array α := x.map (- ·)

/-- Multiplies `x` entry by entry by `y`. -/
def hadamard (x y : Array α) : Array α := overlay (· * ·) x y

/-- The vector `a * v + b * x`. -/
def axpby (x : Array α) (a : α) (v : Array α) (b : α) : Checked (Array α) := do
  Checked.require (x.size = v.size) .lengthMismatch
  pure (Array.zipWith (fun xi vi => a * vi + b * xi) x v)

/-- The vector `a * v + b * w`, written over a vector of the same length. -/
def waxpby (x : Array α) (a : α) (v : Array α) (b : α) (w : Array α) : Checked (Array α) := do
  Checked.require (x.size = v.size) .lengthMismatch
  Checked.require (x.size = w.size) .lengthMismatch
  pure (Array.zipWith (fun vi wi => a * vi + b * wi) v w)

/-! ## 2. Sums -/

/-- The number of terms from which on a block is split in two. -/
def blockSize : Nat := 32

/-- The `count` terms from `start` on, added from left to right to zero. -/
def blockSum (terms : Array α) (start count : Nat) : α :=
  (terms.extract start (start + count)).foldl (· + ·) 0

/-- The sum of `count` terms from `start` on: a short block is summed from left to right, a
    longer one is the sum of its two halves. The first argument bounds the depth of the tree. -/
def treeSumFrom (terms : Array α) : (depth start count : Nat) → α
  | 0, start, count => blockSum terms start count
  | depth + 1, start, count =>
    if count < blockSize then blockSum terms start count
    else
      treeSumFrom terms depth start (count / 2) +
        treeSumFrom terms depth (start + count / 2) (count - count / 2)

/-- The sum of all terms over a balanced tree. -/
def treeSum (terms : Array α) : α := treeSumFrom terms terms.size 0 terms.size

/-- The inner product. -/
def dot (x y : Array α) : Checked α := do
  Checked.require (x.size = y.size) .lengthMismatch
  pure (treeSum (Array.zipWith (· * ·) x y))

/-- The sum of the squares. -/
def sumSquares (x : Array α) : α := treeSum (x.map fun xi => xi * xi)

/-- The Euclidean norm. -/
def norm (x : Array α) : α := Scalar.sqrt (sumSquares x)

/-! ## 3. Largest entries -/

/-- The largest absolute value, or not a number as soon as one entry is not a number. -/
def normInf (x : Array α) : α :=
  x.foldl
    (fun largest xi =>
      if Scalar.isNaN largest then largest
      else if Scalar.isNaN (Scalar.abs xi) then Scalar.abs xi
      else if largest < Scalar.abs xi then Scalar.abs xi else largest)
    0

/-- The largest absolute difference of two entries at the same position; differences that are
    not a number are passed over. -/
def distanceInf (x y : Array α) : α :=
  (Array.zipWith (fun xi yi => Scalar.abs (xi - yi)) x y).foldl Scalar.max 0

/-- Holds if every entry is finite. -/
def isFinite (x : Array α) : Bool := x.all Scalar.isFinite

end Vec

end Quasidefinite
