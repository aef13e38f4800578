import Quasidefinite.Scalar

/-!
# Floating point values as exact numbers

A finite value in binary floating point is a whole number times a power of two, with a sign that
also zero has. `Binary` is that reading, and `BinaryFormat.decode` takes a value of either
precision apart into it, from its bits.
-/

namespace Quasidefinite

/-- A floating point value, read exactly. -/
inductive Binary
  /-- No number. -/
  | nan
  /-- An infinity. -/
  | infinite (negative : Bool)
  /-- The number `± mantissa * 2 ^ exponent`. -/
  | finite (negative : Bool) (mantissa : Nat) (exponent : Int)
  deriving DecidableEq, Repr

namespace Binary

/-- The reading of a bit pattern with the given numbers of bits for exponent and fraction. -/
def ofBits (exponentBits fractionBits bits : Nat) : Binary :=
  let fraction := bits % Nat.pow 2 fractionBits
  let exponent := bits / Nat.pow 2 fractionBits % Nat.pow 2 exponentBits
  let negative := bits / Nat.pow 2 (fractionBits + exponentBits) % 2 = 1
  let offset : Int := Nat.pow 2 (exponentBits - 1) - 1 + fractionBits
  if exponent = Nat.pow 2 exponentBits - 1 then
    if fraction = 0 then .infinite negative else .nan
  else if exponent = 0 then .finite negative fraction (1 - offset)
  else .finite negative (fraction + Nat.pow 2 fractionBits) (exponent - offset)

/-- Numerator and denominator of `mantissa * 2 ^ exponent`. -/
def ratio (mantissa : Nat) (exponent : Int) : Nat × Nat :=
  if 0 ≤ exponent then (mantissa * Nat.pow 2 exponent.toNat, 1)
  else (mantissa, Nat.pow 2 exponent.natAbs)

end Binary

/-- Number types whose values are binary floating point numbers. -/
class BinaryFormat (α : Type) where
  /-- The exact reading of a value. -/
  decode : α → Binary

instance : BinaryFormat Float where
  decode x := .ofBits 11 52 x.toBits.toNat

instance : BinaryFormat Float32 where
  decode x := .ofBits 8 23 x.toBits.toNat

end Quasidefinite
