/-!
# The numbers the solvers compute with

Every algorithm of the library is written once, for any number type with the operations of
`Scalar`. The class asks for no law: double and single precision satisfy none of the laws of a
field, and an exact field satisfies all of them, so what is true of an algorithm for every
`Scalar` is true of rounded and of exact arithmetic alike.

This module fixes:

* the operations themselves and their instances for double (`Float`) and single (`Float32`)
  precision;
* the derived operations `Scalar.recip` and `Scalar.max`, whose order of operations shows in
  the last bit of an answer or in the treatment of a value that is not a number;
* `Nearest`, the reading of a machine number as the nearest scalar.
-/

namespace Quasidefinite

/-! ## 1. The operations -/

/-- A number type the solvers can compute with: field operations, comparisons, square root,
    decimal constants, and the tests for values that are not finite. -/
class Scalar (α : Type) extends Zero α, One α, Add α, Sub α, Mul α, Div α, Neg α, LT α, LE α,
    BEq α, OfScientific α where
  /-- Comparison by `<` is a program. -/
  decLt : DecidableLT α
  /-- Comparison by `≤` is a program. -/
  decLe : DecidableLE α
  /-- Absolute value. -/
  abs : α → α
  /-- Square root. -/
  sqrt : α → α
  /-- Holds of the values that are not a number. -/
  isNaN : α → Bool
  /-- Holds of the values that are neither infinite nor not a number. -/
  isFinite : α → Bool

attribute [reducible, instance] Scalar.decLt Scalar.decLe

-- A type that has operations of its own is used with those.
attribute [instance (100)] Scalar.toZero Scalar.toOne Scalar.toAdd Scalar.toSub Scalar.toMul
  Scalar.toDiv Scalar.toNeg Scalar.toLT Scalar.toLE Scalar.toBEq Scalar.toOfScientific
  Scalar.decLt Scalar.decLe

namespace Scalar

variable {α : Type} [Scalar α]

/-- The reciprocal, as one division. -/
def recip (x : α) : α := 1 / x

/-- The larger of two values; an argument that is not a number gives way to the other one. -/
def max (x y : α) : α :=
  if isNaN x then y
  else if isNaN y then x
  else if x < y then y else x

/-- A value that can serve as a pivot, a weight or a tolerance: positive and finite. -/
def isPositiveFinite (x : α) : Bool := decide (0 < x) && isFinite x

end Scalar

/-! ## 2. Double and single precision -/

instance : Scalar Float where
  zero := 0.0
  one := 1.0
  decLt := inferInstance
  decLe := inferInstance
  abs := Float.abs
  sqrt := Float.sqrt
  isNaN := Float.isNaN
  isFinite := Float.isFinite

instance : Scalar Float32 where
  zero := 0.0
  one := 1.0
  decLt := inferInstance
  decLe := inferInstance
  abs := Float32.abs
  sqrt := Float32.sqrt
  isNaN := Float32.isNaN
  isFinite := Float32.isFinite

/-! ## 3. Reading machine numbers -/

/-- Scalars that have a nearest value to every machine number; ties go to the even neighbour. -/
class Nearest (α : Type) where
  /-- The scalar nearest to a 32 bit unsigned integer. -/
  ofUInt32 : UInt32 → α
  /-- The scalar nearest to a 64 bit unsigned integer. -/
  ofUInt64 : UInt64 → α
  /-- The scalar nearest to a single precision value. -/
  ofSingle : Float32 → α
  /-- The scalar nearest to a double precision value. -/
  ofDouble : Float → α

instance : Nearest Float where
  ofUInt32 := UInt32.toFloat
  ofUInt64 := UInt64.toFloat
  ofSingle := Float32.toFloat
  ofDouble := id

instance : Nearest Float32 where
  ofUInt32 := UInt32.toFloat32
  ofUInt64 := UInt64.toFloat32
  ofSingle := id
  ofDouble := Float.toFloat32

end Quasidefinite
