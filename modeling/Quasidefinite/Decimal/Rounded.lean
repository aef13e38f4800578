import Quasidefinite.Decimal.Binary

/-!
# Decimal text with a fixed number of digits

A value is written with a fixed number of digits after the point, either as it stands (`fixed`)
or scaled to one digit before the point and followed by a power of ten (`scientific`). The exact
value is rounded to the digits shown; a tie goes to the even last digit.
-/

namespace Quasidefinite

namespace Decimal

/-! ## 1. Rounding -/

/-- The whole number nearest to a quotient, the even one of two. -/
def roundDiv (num den : Nat) : Nat :=
  let q := num / den
  let twice := 2 * (num % den)
  if twice < den then q
  else if den < twice then q + 1
  else q + q % 2

/-- The decimal digits of a number, with zeros in front up to the given length. -/
def padded (length n : Nat) : String :=
  let digits := toString n
  String.ofList (List.replicate (length - digits.length) '0') ++ digits

/-- A number of units of the last of `places` decimal places, written with a point. -/
def withPoint (places units : Nat) : String :=
  toString (units / Nat.pow 10 places) ++ "." ++ padded places (units % Nat.pow 10 places)

/-- The sign in front of a value. -/
def sign (negative : Bool) : String := if negative then "-" else ""

/-- The texts of values that are no numbers, and of the others by `digits`. -/
def withSpecial (digits : (num den : Nat) → String) : Binary → String
  | .nan => "NaN"
  | .infinite negative => sign negative ++ "inf"
  | .finite negative mantissa exponent =>
    let (num, den) := Binary.ratio mantissa exponent
    sign negative ++ digits num den

/-! ## 2. Fixed places -/

/-- A value with the given number of decimal places. -/
def fixed (places : Nat) (x : Binary) : String :=
  withSpecial (fun num den => withPoint places (roundDiv (num * Nat.pow 10 places) den)) x

/-! ## 3. Powers of ten -/

/-- A quotient in units of `10 ^ k`, rounded to a whole number. -/
def unitsOf (num den : Nat) (k : Int) : Nat :=
  if 0 ≤ k then roundDiv num (den * Nat.pow 10 k.toNat)
  else roundDiv (num * Nat.pow 10 k.natAbs) den

/-- The power of ten of the first digit of a positive quotient. -/
def leadingPower (num den : Nat) : Int :=
  let guess : Int := (toString num).length - (toString den).length
  let reached :=
    if 0 ≤ guess then den * Nat.pow 10 guess.toNat ≤ num
    else den ≤ num * Nat.pow 10 guess.natAbs
  if reached then guess else guess - 1

/-- A value as a number with one digit before and the given number of digits after the point,
    times a power of ten. -/
def scientific (places : Nat) (x : Binary) : String :=
  withSpecial
    (fun num den =>
      let power := if num = 0 then 0 else leadingPower num den
      let units := unitsOf num den (power - places)
      let (units, power) :=
        if units = Nat.pow 10 (places + 1) then (Nat.pow 10 places, power + 1)
        else (units, power)
      withPoint places units ++ "e" ++ toString power)
    x

end Decimal

end Quasidefinite
