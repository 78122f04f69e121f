/-!
# Expressions

The tree of an expression. Operators are kept by their text, as it was written; what an operator
means is decided when the expression is evaluated. Trees may also be built by hand, so an operator
can be any text, and an expression can be missing.
-/

namespace TinyScript

inductive Expr where
  | var (name : String)
  | int (n : Int)
  | float (x : Float)
  | str (s : String)
  | call (name : String) (args : List Expr)
  /-- A logical operator with two operands. -/
  | logic (op : String) (left right : Expr)
  /-- A logical operator with one operand. -/
  | logicUnary (op : String) (operand : Expr)
  | compare (op : String) (left right : Expr)
  /-- An arithmetic operator with two operands. -/
  | arith (op : String) (left right : Expr)
  /-- An arithmetic operator with one operand. -/
  | arithUnary (op : String) (operand : Expr)
  /-- A place where an expression is missing. -/
  | hole

namespace Expr

instance : Inhabited Expr := ⟨hole⟩

/-- The name of the kind of node, as outlines and exported trees show it. -/
def className : Expr → String
  | var _ => "Variable"
  | int _ => "WholeNumber"
  | float _ => "Double"
  | str _ => "StringExp"
  | call .. => "FunctionCall"
  | logic .. | logicUnary .. => "BooleanExprNode"
  | compare .. => "ComparisonExprNode"
  | arith .. | arithUnary .. => "InfixExprNode"
  | hole => "ExprNode"

mutual

/-- The number of nodes on the longest way down. -/
def height : Expr → Nat
  | var _ | int _ | float _ | str _ | hole => 1
  | call _ args => heightAll args + 1
  | logic _ l r | compare _ l r | arith _ l r => max l.height r.height + 1
  | logicUnary _ e | arithUnary _ e => e.height + 1

/-- The greatest height among expressions. -/
def heightAll : List Expr → Nat
  | [] => 0
  | e :: es => max e.height (heightAll es)

end

end Expr

end TinyScript
