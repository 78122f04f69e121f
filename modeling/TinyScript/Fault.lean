import TinyScript.Diagnostic
import TinyScript.Number.Text
import TinyScript.Value

/-!
# Faults of evaluation

Everything that can go wrong while a tree is evaluated, by cause. Most causes are faults of the
script and are reported as a diagnostic. Some concern trees that the grammar does not produce, some
are limits of the machine, and some come from values or nodes that are not of the language.
-/

namespace TinyScript

open Value (TypeName)

/-- Faults of a script. -/
inductive ScriptFault where
  | unbound (name : String)
  | alreadyBound (name : String)
  | undefinedFunction (name : String)
  | uncallable (name : String)
  | notInteger (type : TypeName)
  | notIncrementable (type : TypeName)
  | divisionByZero
  | moduloByZero
  | unknownOperator (op : String)
  | operands (op : String) (left right : TypeName)
  | negation (type : TypeName)
  | unknownComparison (op : String)
  | incomparable (op : String) (left right : TypeName)
  /-- Nesting beyond the limit, noticed by an entry point. -/
  | tooDeep (scope : String)
  deriving DecidableEq, Repr

/-- Faults of a counted loop. -/
inductive LoopFault where
  | variableTaken (name : String)
  | missingEnd
  | tooManyArguments (count : Nat)
  | badRange (start stop step : Int)
  deriving DecidableEq, Repr

/-- Faults of trees that no text parses to. -/
inductive TreeFault where
  | missingOperand (op : String)
  | unknownLogic (op : String)
  | notUnary (op : String)
  | headless
  deriving DecidableEq, Repr

/-- Limits of the machine. -/
inductive Limit where
  /-- An integer with too many digits to be written. -/
  | digits
  /-- An integer outside the range of floats. -/
  | floatRange
  /-- A repetition count outside the range of machine integers. -/
  | repeatCount
  /-- A repetition longer than any text. -/
  | textLength
  | memory
  | nesting
  deriving DecidableEq, Repr

/-- Why an evaluation fails. -/
inductive Fault where
  | script (f : ScriptFault)
  | loop (f : LoopFault)
  | tree (f : TreeFault)
  | limit (l : Limit)
  /-- A foreign integer where a value of the language is needed. -/
  | notValue (n : Int)
  /-- A foreign integer where a value is to be copied. -/
  | noPayload
  /-- A node without content. -/
  | unfinished
  deriving DecidableEq, Repr

namespace ScriptFault

/-- The scope that reports the fault. -/
def scope : ScriptFault → String
  | unbound _ => "Environment.get"
  | alreadyBound _ => "Environment.create"
  | undefinedFunction _ => "Environment.lookup_function"
  | uncallable _ => "FunctionCall.evaluate"
  | notInteger _ => "as_int"
  | notIncrementable _ => "increment_in_place"
  | divisionByZero | moduloByZero | unknownOperator _ | operands .. => "binary_op"
  | negation _ => "negate"
  | unknownComparison _ | incomparable .. => "compare"
  | tooDeep s => s

def message : ScriptFault → String
  | unbound x => "name '" ++ x ++ "' is not defined"
  | alreadyBound x => "variable " ++ x ++ " already exists"
  | undefinedFunction f => "function '" ++ f ++ "' is not defined"
  | uncallable f => "calling function '" ++ f ++ "' is not supported"
  | notInteger t | notIncrementable t => "expected Integer, got " ++ t.text
  | divisionByZero => "division by zero"
  | moduloByZero => "modulo by zero"
  | unknownOperator op => "unknown operator " ++ op
  | operands op l r =>
    "unsupported operand type(s) for " ++ op ++ ": '" ++ l.text ++ "' and '" ++ r.text ++ "'"
  | negation t => "bad operand type for unary -: '" ++ t.text ++ "'"
  | unknownComparison op => "unknown comparison operator " ++ op
  | incomparable op l r =>
    "'" ++ op ++ "' not supported between '" ++ l.text ++ "' and '" ++ r.text ++ "'"
  | tooDeep _ => "expression nesting too deep"

end ScriptFault

namespace LoopFault

def message : LoopFault → String
  | variableTaken x => "loop variable " ++ x ++ " is already defined"
  | missingEnd => "range() requires an end value"
  | tooManyArguments n => "range() takes at most 3 arguments, got " ++ n.repr
  | badRange start stop step =>
    "invalid range: start=" ++ Number.intText start ++ " end=" ++ Number.intText stop ++
      " step=" ++ Number.intText step

end LoopFault

namespace TreeFault

def scope : TreeFault → String
  | missingOperand _ | unknownLogic _ => "BooleanExprNode.evaluate"
  | notUnary _ => "InfixExprNode.evaluate"
  | headless => "IfStatement.evaluate"

def message : TreeFault → String
  | missingOperand op => "'" ++ op ++ "' is missing its right operand"
  | unknownLogic op => "unknown boolean operator " ++ op
  | notUnary op => "'" ++ op ++ "' is not a unary operator"
  | headless => "cannot evaluate an if statement without its primary branch"

end TreeFault

namespace Limit

def message : Limit → String
  | digits =>
    "Exceeds the limit (" ++ Number.maxDigits.repr ++ " digits) for integer string conversion; " ++
      "use sys.set_int_max_str_digits() to increase the limit"
  | floatRange => "int too large to convert to float"
  | repeatCount => "cannot fit 'int' into an index-sized integer"
  | textLength => "repeated string is too long"
  | memory | nesting => ""

end Limit

namespace Fault

/-- The diagnostic of a fault that is one of the script or of its tree. -/
def diagnostic? : Fault → Option Diagnostic
  | script f => some ⟨f.scope, f.message, none, []⟩
  | loop f => some ⟨"RangeStmt.evaluate", f.message, none, []⟩
  | tree f => some ⟨f.scope, f.message, none, []⟩
  | limit _ | notValue _ | noPayload | unfinished => none

/-- What is said about a fault in one line. -/
def message (f : Fault) : String :=
  match f with
  | limit l => l.message
  | notValue n => "not a minipy value: " ++ Number.intText n
  | noPayload => "'int' object has no attribute 'value'"
  | unfinished => ""
  | script _ | loop _ | tree _ => (f.diagnostic?.map Diagnostic.headline).getD ""

end Fault

end TinyScript
