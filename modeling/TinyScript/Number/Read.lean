import TinyScript.Number.Text
import TinyScript.Text.Digit
import TinyScript.Text.Quoted
import TinyScript.Text.Space

/-!
# Numerals

Reading a number from text. White space around the number is allowed, a sign in front of it, digits
of any script, and an underscore between two digits. An integer may not have more digits than the
limit; leading zeros count. A float is the one nearest to the decimal that was written.
-/

namespace TinyScript.Number

open Text (isDigit digitValue? trim quote)

/-- Why a text is not read as a number. -/
inductive ReadError where
  | tooManyDigits (count : Nat)
  | notInteger (text : String)
  | notFloat (text : String)
  deriving DecidableEq, Repr

/-- What is said about a text that is too long for an integer or is no number. -/
def ReadError.message : ReadError → String
  | .tooManyDigits count =>
    "Exceeds the limit (" ++ maxDigits.repr ++
      " digits) for integer string conversion: value has " ++ count.repr ++
      " digits; use sys.set_int_max_str_digits() to increase the limit"
  | .notInteger text =>
    "invalid literal for int() with base 10: " ++ String.ofList ((quote text).toList.take 200)
  | .notFloat text => "could not convert string to float: " ++ quote text

/-- Splits off a sign; true means negative. -/
def splitSign : List Char → Bool × List Char
  | '-' :: cs => (true, cs)
  | '+' :: cs => (false, cs)
  | cs => (false, cs)

/-- The value of a run of digits. Characters that are no digits count as zeros. -/
def digitsValue (ds : List Char) : Nat :=
  ds.foldl (fun n d => 10 * n + (digitValue? d).getD 0) 0

/-- Whether every underscore stands between two digits; `after` tells whether a digit precedes. -/
def spacedDigits (after : Bool) : List Char → Bool
  | [] => true
  | c :: cs =>
    if c = '_' then after && (cs.head?.any isDigit) && spacedDigits false cs
    else spacedDigits (isDigit c) cs

def withoutUnderscores (cs : List Char) : List Char := cs.filter (· ≠ '_')

/-- Reads an integer. The digits are counted against the limit before what follows them is looked
at. -/
def readInt (text : String) : Except ReadError Int :=
  let (negative, cs) := splitSign (trim text.toList)
  let isPart := fun c => isDigit c || c = '_'
  let run := cs.takeWhile isPart
  let digits := withoutUnderscores run
  if digits = [] ∨ ¬spacedDigits false run then .error (.notInteger text)
  else if maxDigits < digits.length then .error (.tooManyDigits digits.length)
  else if cs.dropWhile isPart ≠ [] then .error (.notInteger text)
  else .ok (if negative then -digitsValue digits else digitsValue digits)

/-- The float nearest to `digits * 10 ^ power`. Decimals far outside the range of floats are settled
by their magnitude alone. -/
def nearestFloat (digits : Nat) (power : Int) : Float :=
  let top := digitCount digits + power
  if digits = 0 ∨ top < -330 then 0.0
  else if 310 < top then 1.0 / 0.0
  else Float.ofScientific digits (power < 0) power.natAbs

/-- The power of ten after the letter `e`, which needs at least one digit. -/
def readPower : List Char → Option Int
  | [] => some 0
  | c :: cs =>
    if c ≠ 'e' ∧ c ≠ 'E' then none
    else
      let (negative, ds) := splitSign cs
      if ds = [] ∨ ¬ds.all isDigit then none
      else some (if negative then -digitsValue ds else digitsValue ds)

/-- A decimal without its sign: digits, perhaps a point and more digits, perhaps a power of ten. -/
def readDecimal (cs : List Char) : Option Float :=
  let whole := cs.takeWhile isDigit
  let rest := cs.dropWhile isDigit
  let hasPoint := rest.head? = some '.'
  let fraction := if hasPoint then (rest.drop 1).takeWhile isDigit else []
  let tail := if hasPoint then (rest.drop 1).dropWhile isDigit else rest
  if whole = [] ∧ fraction = [] then none
  else
    (readPower tail).map fun power =>
      nearestFloat (digitsValue (whole ++ fraction)) (power - fraction.length)

/-- The special values by name, in either case. -/
def readSpecial (cs : List Char) : Option Float :=
  let name := String.ofList (cs.map Char.toLower)
  if name = "inf" ∨ name = "infinity" then some (1.0 / 0.0)
  else if name = "nan" then some (0.0 / 0.0)
  else none

/-- Reads a float. -/
def readFloat (text : String) : Except ReadError Float :=
  let (negative, cs) := splitSign (trim text.toList)
  let magnitude :=
    if spacedDigits false cs then (readSpecial cs).or (readDecimal (withoutUnderscores cs))
    else none
  match magnitude with
  | some x => .ok (if negative then -x else x)
  | none => .error (.notFloat text)

end TinyScript.Number
