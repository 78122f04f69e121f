import TinyScript.Number.Dyadic

/-!
# The fewest digits of a float

The decimal text of a float has as few digits as still read back as the same float. For each number
of digits from one upward, the two neighbours of the value on that decimal grid are tested against
the interval of reals that round to the float; the first grid with a hit wins, of two hits the
nearer, and of two equally near the even one. All is exact arithmetic on whole numbers.
-/

namespace TinyScript.Number

/-- A decimal `digits / 10 ^ places`. The number of places may be negative. -/
structure Decimal where
  digits : Nat
  places : Int
  deriving DecidableEq, Repr

/-- How many decimal digits a number has; zero has one. -/
def digitCount (n : Nat) : Nat := (Nat.toDigits 10 n).length

/-- The power `k` with `10 ^ (k - 1) ≤ num / den < 10 ^ k`. -/
def magnitude (num den : Nat) : Int :=
  if den ≤ num then digitCount (num / den)
  else
    let count := digitCount (den / num)
    if den ≤ tenTo (count - 1) * num then 2 - count else 1 - count

/-- The reals that round to a float: a value `centre / unit` with its two half gaps over the same
unit, and whether the ends belong to it. -/
structure Interval where
  centre : Nat
  below : Nat
  above : Nat
  unit : Nat
  closed : Bool

/-- The interval of `mantissa * 2 ^ exponent`. The gap below a power of two is half the gap above,
except next to the least floats; a tie between two floats goes to the even mantissa. -/
def Interval.of (mantissa : Nat) (exponent : Int) : Interval :=
  let scale := twoTo exponent.toNat
  { centre := 4 * mantissa * scale
    below := if mantissa = fullMantissa ∧ minExponent < exponent then scale else 2 * scale
    above := 2 * scale
    unit := 4 * twoTo (-exponent).toNat
    closed := mantissa % 2 = 0 }

/-- The interval in units of `10 ^ (-places)`. -/
def Interval.scaled (i : Interval) (places : Int) : Interval :=
  let up := tenTo places.toNat
  { i with
    centre := i.centre * up
    below := i.below * up
    above := i.above * up
    unit := i.unit * tenTo (-places).toNat }

/-- Whether the whole number `n` lies in the interval. -/
def Interval.contains (i : Interval) (n : Nat) : Bool :=
  let point := n * i.unit
  if i.closed then i.centre ≤ point + i.below && point ≤ i.centre + i.above
  else i.centre < point + i.below && point < i.centre + i.above

/-- The whole number of the interval that is nearest to its centre, if one of the centre's two
neighbours lies in it. -/
def Interval.nearest? (i : Interval) : Option Nat :=
  let low := i.centre / i.unit
  let excess := i.centre % i.unit
  match i.contains low, i.contains (low + 1) with
  | true, true =>
    if 2 * excess < i.unit ∨ 2 * excess = i.unit ∧ low % 2 = 0 then some low else some (low + 1)
  | true, false => some low
  | false, true => some (low + 1)
  | false, false => none

/-- Tries ever finer grids, `tries` at most, from `places` on. -/
def Interval.search (i : Interval) : (tries : Nat) → (places : Int) → Option Decimal
  | 0, _ => none
  | tries + 1, places =>
    match (i.scaled places).nearest? with
    | some digits => some ⟨digits, places⟩
    | none => i.search tries (places + 1)

/-- Drops zeros at the end of the digits. -/
def Decimal.stripped (d : Decimal) : Decimal :=
  if 0 < d.digits ∧ d.digits % 10 = 0 then Decimal.stripped ⟨d.digits / 10, d.places - 1⟩ else d
termination_by d.digits
decreasing_by omega

/-- The decimal of fewest digits that rounds to `mantissa * 2 ^ exponent`. Seventeen digits always
suffice, so the search does not come back empty. -/
def shortest (mantissa : Nat) (exponent : Int) : Decimal :=
  let i := Interval.of mantissa exponent
  let first := 1 - magnitude i.centre i.unit
  ((i.search 17 first).getD ⟨0, 0⟩).stripped

end TinyScript.Number
