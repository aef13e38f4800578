import Mathlib.Algebra.Order.Field.Basic
import Mathlib.Data.Rat.Cast.OfScientific
import Mathlib.Data.Rat.Sqrt
import Quasidefinite.Scalar

/-!
# Exact arithmetic

An ordered field computes without rounding: every value is finite, none is not a number, and
comparison for equality is equality. `Scalar.exact` turns such a field into a number type of the
solvers; it is in force where `Quasidefinite.Scalar` is opened as a scope. The square root, which
no field has to offer, is a program of its own (`SquareRoot`).
-/

namespace Quasidefinite

/-- A program for square roots. No law is asked of it. -/
class SquareRoot (K : Type) where
  /-- The square root. -/
  sqrt : K → K

instance : SquareRoot ℚ := ⟨Rat.sqrt⟩

namespace Scalar

section Exact

variable (K : Type) [Field K] [LinearOrder K] [SquareRoot K]

/-- The operations of an ordered field. -/
@[reducible] def exact : Scalar K where
  toZero := inferInstance
  toOne := inferInstance
  toAdd := inferInstance
  toSub := inferInstance
  toMul := inferInstance
  toDiv := inferInstance
  toNeg := inferInstance
  toLT := inferInstance
  toLE := inferInstance
  toOfScientific := inferInstance
  toBEq := instBEqOfDecidableEq
  decLt := inferInstance
  decLe := inferInstance
  abs x := |x|
  sqrt := SquareRoot.sqrt
  isNaN _ := false
  isFinite _ := true

attribute [scoped instance] exact

variable {K}

@[simp] theorem exact_isFinite (x : K) : isFinite x = true := rfl

@[simp] theorem exact_recip (x : K) : recip x = x⁻¹ := one_div x

@[simp] theorem exact_isPositiveFinite (x : K) : isPositiveFinite x = decide (0 < x) := by
  simp [isPositiveFinite]

end Exact

end Scalar

end Quasidefinite
