import TinyScript.Value.Arith

/-!
# Comparison

Numbers are compared by their exact values, texts by their characters. Values of different kinds are
never equal, and have no order. A float that is not a number is unequal to everything.
-/

namespace TinyScript

/-- The comparison operators. -/
inductive CompareOp where
  | eq | ne | lt | gt | le | ge
  deriving DecidableEq, Repr

namespace CompareOp

def text : CompareOp → String
  | eq => "=="
  | ne => "!="
  | lt => "<"
  | gt => ">"
  | le => "<="
  | ge => ">="

/-- The operator with a given spelling. -/
def ofText? (s : String) : Option CompareOp := [eq, ne, lt, gt, le, ge].find? (·.text = s)

theorem ofText?_text (op : CompareOp) : ofText? op.text = some op := by cases op <;> decide

/-- Whether an operator holds of two things in a given order. Without an order they are unequal. -/
def holds : CompareOp → Option Ordering → Bool
  | eq, o => o = some .eq
  | ne, o => o ≠ some .eq
  | lt, o => o = some .lt
  | gt, o => o = some .gt
  | le, o => o = some .lt || o = some .eq
  | ge, o => o = some .gt || o = some .eq

end CompareOp

namespace Num

/-- The order of two floats; none if one is not a number. -/
def orderFloats (x y : Float) : Option Ordering :=
  if x < y then some .lt
  else if x == y then some .eq
  else if y < x then some .gt
  else none

/-- The order of two numbers. -/
def order : Num → Num → Option Ordering
  | int m, int n => some (compare m n)
  | int m, float y => Number.compareIntFloat m y
  | float x, int n => (Number.compareIntFloat n x).map Ordering.swap
  | float x, float y => orderFloats x y

end Num

namespace Value

/-- The order of two texts, by their characters from the left. -/
def orderTexts (s t : String) : Ordering :=
  if s < t then .lt else if s = t then .eq else .gt

/-- The order of two values of one kind; the outer option is empty for values of different kinds. -/
def order? : Value → Value → Option (Option Ordering)
  | str s, str t => some (some (orderTexts s t))
  | l, r =>
    match l.num?, r.num? with
    | some a, some b => some (a.order b)
    | _, _ => none

/-- The fault of values that cannot be ordered. -/
def orderFault (op : String) (l r : Value) : Fault :=
  match l.typeName, r.typeName with
  | .ok tl, .ok tr => .script (.incomparable op tl tr)
  | .error f, _ => f
  | .ok _, .error f => f

/-- Applies the comparison spelt `op`. -/
def compare (op : String) (l r : Value) : Except Fault Bool :=
  match l.order? r, CompareOp.ofText? op with
  | some o, some c => .ok (c.holds o)
  | some _, none => .error (.script (.unknownComparison op))
  | none, some .eq => .ok false
  | none, some .ne => .ok true
  | none, _ => .error (orderFault op l r)

end Value

end TinyScript
