import TinyScript.Number.Dyadic
import TinyScript.Value.Basic

/-!
# Arithmetic

The operators `+ - * / %` and unary minus. Integers, floats and truth values are numbers, a truth
value counting as zero or one. Integer arithmetic is exact, and division of integers goes to the
floor. As soon as a float takes part, the other operand is made a float. Texts can be joined by `+`
and repeated by `*`.
-/

namespace TinyScript

/-- The numbers among the values. -/
inductive Num where
  | int (n : Int)
  | float (x : Float)
  deriving DecidableEq

namespace Num

def toValue : Num → Value
  | int n => .int n
  | float x => .float x

/-- The nearest float. -/
def toFloat : Num → Except Fault Float
  | float x => .ok x
  | int n =>
    match Number.floatOfInt? n with
    | some x => .ok x
    | none => .error (.limit .floatRange)

def isZero : Num → Bool
  | int n => n = 0
  | float x => x == 0.0

/-- Two integers are combined exactly, all other pairs as floats. -/
def combine (onInts : Int → Int → Int) (onFloats : Float → Float → Float) :
    Num → Num → Except Fault Num
  | int m, int n => .ok (int (onInts m n))
  | a, b => do return float (onFloats (← a.toFloat) (← b.toFloat))

end Num

/-- The arithmetic operators with two operands. -/
inductive ArithOp where
  | add | sub | mul | div | mod
  deriving DecidableEq, Repr

namespace ArithOp

def text : ArithOp → String
  | add => "+"
  | sub => "-"
  | mul => "*"
  | div => "/"
  | mod => "%"

/-- The operator with a given spelling. -/
def ofText? (s : String) : Option ArithOp := [add, sub, mul, div, mod].find? (·.text = s)

theorem ofText?_text (op : ArithOp) : ofText? op.text = some op := by cases op <;> decide

/-- Applies an operator to numbers. -/
def apply : ArithOp → Num → Num → Except Fault Num
  | add, a, b => Num.combine (· + ·) (· + ·) a b
  | sub, a, b => Num.combine (· - ·) (· - ·) a b
  | mul, a, b => Num.combine (· * ·) (· * ·) a b
  | div, a, b =>
    if b.isZero then .error (.script .divisionByZero) else Num.combine Int.fdiv (· / ·) a b
  | mod, a, b =>
    if b.isZero then .error (.script .moduloByZero)
    else Num.combine Int.fmod Number.floorRemainder a b

end ArithOp

namespace Value

/-- The number of a numeric value. -/
def num? : Value → Option Num
  | int n => some (.int n)
  | bool b => some (.int (if b then 1 else 0))
  | float x => some (.float x)
  | str _ | foreign _ => none

/-- The count by which a text can be repeated: an integer or a truth value. -/
def count? : Value → Option Int
  | int n => some n
  | bool b => some (if b then 1 else 0)
  | float _ | str _ | foreign _ => none

/-- The greatest length of a text, which is also the greatest machine integer. -/
def maxLength : Nat := 0x7fffffffffffffff

/-- The greatest length of a text that memory is given to. -/
def maxAllocation : Nat := 0x100000000

/-- A text repeated. A count below one gives the empty text; the count must be a machine integer
even then. -/
def repeatText (s : String) (count : Int) : Except Fault String :=
  if count < -(maxLength : Int) - 1 ∨ (maxLength : Int) < count then .error (.limit .repeatCount)
  else if count < 1 ∨ s = "" then .ok ""
  else if maxLength < s.length * count.toNat then .error (.limit .textLength)
  else if maxAllocation < s.length * count.toNat then .error (.limit .memory)
  else .ok (String.join (List.replicate count.toNat s))

/-- The fault of operands that an operator does not take. -/
def operandFault (op : String) (l r : Value) : Fault :=
  match l.typeName, r.typeName with
  | .ok tl, .ok tr => .script (.operands op tl tr)
  | .error f, _ => f
  | .ok _, .error f => f

/-- Applies the operator spelt `op`. -/
def arith (op : String) (l r : Value) : Except Fault Value :=
  match l.num?, r.num? with
  | some a, some b =>
    match ArithOp.ofText? op with
    | some o => (o.apply a b).map Num.toValue
    | none => .error (.script (.unknownOperator op))
  | _, _ =>
    match ArithOp.ofText? op, l, r with
    | some .add, str s, str t => .ok (str (s ++ t))
    | some .mul, str s, v | some .mul, v, str s =>
      match v.count? with
      | some n => (repeatText s n).map str
      | none => .error (operandFault op l r)
    | _, _, _ => .error (operandFault op l r)

/-- Unary minus. The negative of a truth value is an integer. -/
def negate (v : Value) : Except Fault Value :=
  match v.num? with
  | some (.int n) => .ok (int (-n))
  | some (.float x) => .ok (float (-x))
  | none => do throw (.script (.negation (← v.typeName)))

end Value

end TinyScript
