import TinyScript.Fault
import TinyScript.Text.Lines
import TinyScript.Tree.Expr

/-!
# Expressions on one line

The text of an expression puts every operation in parentheses, so that it does not depend on the
precedence of operators.
-/

namespace TinyScript

open Text (commaList quote)

namespace Expr

mutual

/-- The expression on one line. -/
def text : Expr → String
  | var x => x
  | int n => Number.intText n
  | float x => Number.floatText x
  | str s => quote s
  | call f args => f ++ "(" ++ commaList (texts args) ++ ")"
  | logic op l r | compare op l r | arith op l r =>
    "(" ++ l.text ++ " " ++ op ++ " " ++ r.text ++ ")"
  | logicUnary op e => "(" ++ op ++ " " ++ e.text ++ ")"
  | arithUnary op e => "(" ++ op ++ e.text ++ ")"
  | hole => "ExprNode()"

def texts : List Expr → List String
  | [] => []
  | e :: es => e.text :: texts es

end

theorem texts_eq_map (es : List Expr) : texts es = es.map text := by
  induction es with
  | nil => rfl
  | cons e es ih => simp [texts, ih]

mutual

/-- Whether every integer in the expression keeps to the limit on digits. -/
def writable : Expr → Bool
  | int n => Number.fits n
  | var _ | float _ | str _ | hole => true
  | call _ args => allWritable args
  | logic _ l r | compare _ l r | arith _ l r => l.writable && r.writable
  | logicUnary _ e | arithUnary _ e => e.writable

def allWritable : List Expr → Bool
  | [] => true
  | e :: es => e.writable && allWritable es

end

/-- What keeps the expression from being written on one line: an integer with too many digits. -/
def textFault? (e : Expr) : Option Fault :=
  if e.writable then none else some (.limit .digits)

end Expr

end TinyScript
