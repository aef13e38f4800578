import Quasidefinite.Decimal.Binary

/-!
# Decimal numerals

A numeral is a number written in decimal: a sign, digits, and a power of ten. Every finite
floating point value has a numeral of its own (`Numeral.ofScalar?`), and every numeral whose value
is not beyond the range of a number type has a nearest value in it (`Numeral.toScalar?`).
-/

namespace Quasidefinite

/-- The decimal number `± digits * 10 ^ exponent`. -/
structure Numeral where
  /-- Whether the number is written with a minus sign. -/
  negative : Bool
  /-- The digits, without a point. -/
  digits : Nat
  /-- The power of ten. -/
  exponent : Int
  /-- Whether the number is written without a point and without a power of ten. -/
  whole : Bool
  deriving DecidableEq, Repr

namespace Numeral

/-! ## 1. Reading values -/

/-- Powers of ten of the first digit beyond which every number is out of range, or rounds to
    zero. -/
def range : Int := 400

/-- The scalar nearest to `digits * 10 ^ exponent`. -/
def magnitude {α : Type} [Scalar α] (digits : Nat) (exponent : Int) : Option α :=
  let first := exponent + (toString digits).length
  if digits = 0 ∨ first < -range then some 0
  else if range < first then none
  else
    let x : α := OfScientific.ofScientific digits (decide (exponent < 0)) exponent.natAbs
    if Scalar.isFinite x then some x else none

/-- Holds of a negative whole number that does not fit a signed 64 bit word although its digits fit
    an unsigned one. -/
def isLongNegative (n : Numeral) : Bool :=
  n.whole && n.negative && decide (9223372036854775808 < n.digits) &&
    decide (n.digits < UInt64.size)

/-- The scalar nearest to a numeral, unless that is out of range. Long negative whole numbers are
    rounded to double precision on the way. -/
def toScalar? {α : Type} [Scalar α] [Nearest α] (n : Numeral) : Option α :=
  if n.isLongNegative then some (-Nearest.ofDouble n.digits.toUInt64.toFloat)
  else (magnitude n.digits n.exponent).map fun x => if n.negative then -x else x

/-- The value of a numeral written as a whole number without a sign, if it fits 32 bits. -/
def toUInt32? (n : Numeral) : Option UInt32 :=
  if n.whole ∧ ¬ n.negative ∧ n.digits < UInt32.size then some n.digits.toUInt32 else none

/-! ## 2. Writing values -/

/-- The numeral of a whole number. -/
def ofNat (n : Nat) : Numeral where
  negative := false
  digits := n
  exponent := 0
  whole := true

/-- The numeral whose value is that of a finite scalar. -/
def ofScalar? {α : Type} [BinaryFormat α] (x : α) : Option Numeral :=
  match BinaryFormat.decode x with
  | .finite negative mantissa exponent =>
    some
      { negative
        digits := if 0 ≤ exponent then mantissa * Nat.pow 2 exponent.toNat
          else mantissa * Nat.pow 5 exponent.natAbs
        exponent := min exponent 0
        whole := false }
  | _ => none

/-- The text of a numeral. -/
def text (n : Numeral) : String :=
  (if n.negative then "-" else "") ++ toString n.digits ++
    (if n.whole then "" else "e" ++ toString n.exponent)

end Numeral

end Quasidefinite
