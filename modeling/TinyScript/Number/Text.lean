import TinyScript.Number.Shortest

/-!
# Numbers as text

Integers are written in decimal, with a limit on the number of digits that the program writes or
reads. Floats are written with the fewest digits that read back, always with a point or an exponent,
so that they are not taken for integers.
-/

namespace TinyScript.Number

/-- The most digits that the text of an integer may have. -/
def maxDigits : Nat := 4300

/-- The least magnitude whose text has too many digits. -/
def digitBound : Nat := tenTo maxDigits

/-- Whether the text of an integer keeps to the limit. -/
def fits (n : Int) : Bool := n.natAbs < digitBound

/-- The decimal text of an integer. -/
def intText : Int → String
  | .ofNat n => n.repr
  | .negSucc n => "-" ++ (n + 1).repr

/-- How the digits of a float are laid out, and how its special values are spelt. -/
structure FloatFormat where
  /-- The least power of ten written positionally. -/
  leastPositional : Int
  /-- The first power of ten that is no longer written positionally. -/
  firstExponential : Int
  /-- The least number of digits in an exponent. -/
  exponentWidth : Nat
  infinity : String
  nan : String

/-- Floats in output: positional from `0.0001` to below `10 ^ 16`. -/
def plain : FloatFormat := ⟨-4, 16, 2, "inf", "nan"⟩

/-- Floats in exported trees differ in the spelling of the special values only. -/
def exported : FloatFormat := { plain with infinity := "Infinity", nan := "NaN" }

/-- The digits `ds` read as `0.ds * 10 ^ point`, written with a point. -/
def positional (ds : List Char) (point : Int) : List Char :=
  if point ≤ 0 then '0' :: '.' :: (List.replicate (-point).toNat '0' ++ ds)
  else
    let n := point.toNat
    if ds.length ≤ n then ds ++ List.replicate (n - ds.length) '0' ++ ['.', '0']
    else ds.take n ++ '.' :: ds.drop n

/-- The digits `ds` with one digit before the point, and the power of ten `power`. -/
def exponential (width : Nat) (ds : List Char) (power : Int) : List Char :=
  let digits := Nat.toDigits 10 power.natAbs
  let fraction := if ds.length ≤ 1 then [] else '.' :: ds.drop 1
  ds.take 1 ++ fraction ++ 'e' :: (if power < 0 then '-' else '+') ::
    (List.replicate (width - digits.length) '0' ++ digits)

/-- The text of a positive decimal. -/
def FloatFormat.decimalText (format : FloatFormat) (d : Decimal) : List Char :=
  let ds := Nat.toDigits 10 d.digits
  let point := ds.length - d.places
  if format.leastPositional < point ∧ point ≤ format.firstExponential then positional ds point
  else exponential format.exponentWidth ds (point - 1)

/-- The text of a float: fewest digits that read back, and a minus sign also for negative zero. -/
def FloatFormat.text (format : FloatFormat) (x : Float) : String :=
  match Parts.ofFloat x with
  | .nan => format.nan
  | .infinity negative => if negative then "-" ++ format.infinity else format.infinity
  | .finite negative mantissa exponent =>
    let ds :=
      if mantissa = 0 then ['0', '.', '0'] else format.decimalText (shortest mantissa exponent)
    String.ofList (if negative then '-' :: ds else ds)

/-- The text of a float in output. -/
def floatText (x : Float) : String := plain.text x

end TinyScript.Number
