import TinyScript.Number.Power

/-!
# The exact value of a float

A finite float is a whole number times a power of two. `Parts.ofFloat` reads that number off the
encoding; comparison with integers, remainders and decimal text are all computed from it exactly.
-/

namespace TinyScript.Number

/-- What a float is: not a number, an infinity, or the sign and magnitude of
`mantissa * 2 ^ exponent`. -/
inductive Parts where
  | nan
  | infinity (negative : Bool)
  | finite (negative : Bool) (mantissa : Nat) (exponent : Int)
  deriving DecidableEq, Repr

/-- The exponent of the least positive float. -/
def minExponent : Int := -1074

/-- Where the mantissas of full precision begin. -/
def fullMantissa : Nat := twoTo 52

/-- Takes a float apart along the fields of its encoding. -/
def Parts.ofFloat (x : Float) : Parts :=
  let bits : Nat := x.toBits.toNat
  let negative := twoTo 63 ≤ bits
  let field : Nat := bits / twoTo 52 % twoTo 11
  let fraction := bits % twoTo 52
  if field = twoTo 11 - 1 then
    if fraction = 0 then .infinity negative else .nan
  else if field = 0 then .finite negative fraction minExponent
  else .finite negative (fullMantissa + fraction) ((field : Int) - 1 + minExponent)

/-- Compares `m * 2 ^ e` with `n * 2 ^ f`, by writing both over the lower power of two. -/
def compareDyadic (m e n f : Int) : Ordering :=
  compare (m * twoTo (e - f).toNat) (n * twoTo (f - e).toNat)

/-- The mantissa with its sign. -/
def signed (negative : Bool) (mantissa : Nat) : Int :=
  if negative then -mantissa else mantissa

/-- The order of an integer and a float; none if the float is not a number. -/
def compareIntFloat (n : Int) (x : Float) : Option Ordering :=
  match Parts.ofFloat x with
  | .nan => none
  | .infinity negative => some (if negative then .gt else .lt)
  | .finite negative m e => some (compareDyadic n 0 (signed negative m) e)

/-- The float `2 ^ exponent`, for exponents from that of the least float to that of the greatest
mantissa unit. -/
def powerOfTwo (exponent : Int) : Float :=
  if exponent < -1022 then Float.ofBits (UInt64.ofNat (twoTo (exponent - minExponent).toNat))
  else Float.ofBits (UInt64.ofNat ((exponent + 1023).toNat * twoTo 52))

/-- The float nearest to an integer, a tie going to the even mantissa. None if the integer lies
outside the range of floats. -/
def floatOfInt? (n : Int) : Option Float :=
  let magnitude := Float.ofNat n.natAbs
  match Parts.ofFloat magnitude with
  | .finite .. => some (if n < 0 then -magnitude else magnitude)
  | _ => none

/-- The remainder of the magnitudes of `x` and `y`, with the sign of `x`. It is exact: over the
lower of the two powers of two the quotient is one of whole numbers, and its remainder is no longer
than the mantissa it came from. -/
def truncatedRemainder (x y : Float) : Float :=
  match Parts.ofFloat x, Parts.ofFloat y with
  | .finite negative m e, .finite _ n f =>
    if n = 0 then 0.0 / 0.0
    else
      let r := m * twoTo (e - f).toNat % (n * twoTo (f - e).toNat)
      let magnitude := Float.ofNat r * powerOfTwo (min e f)
      if negative then -magnitude else magnitude
  | .finite .., .infinity _ => x
  | _, _ => 0.0 / 0.0

/-- The remainder that has the sign of the divisor. A remainder of zero is given that sign too. -/
def floorRemainder (x y : Float) : Float :=
  let r := truncatedRemainder x y
  if r == 0.0 then (if y < 0.0 then -0.0 else 0.0)
  else if (y < 0.0) != (r < 0.0) then r + y
  else r

end TinyScript.Number
