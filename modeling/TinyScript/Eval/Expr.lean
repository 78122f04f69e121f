import TinyScript.Env
import TinyScript.Value.Compare

/-!
# Evaluation of expressions

Operands are evaluated from left to right, and `and` and `or` stop as soon as the left operand
decides. Evaluation has no effect on the environment. It descends at most `room` levels into the
expression; a part that is not evaluated does not count. Functions are known by name only: a call
always fails, and its arguments are not evaluated.
-/

namespace TinyScript

/-- The logical operators. -/
inductive LogicOp where
  | and | or | not
  deriving DecidableEq, Repr

namespace LogicOp

def text : LogicOp → String
  | and => "and"
  | or => "or"
  | not => "not"

/-- The operator with a given spelling. -/
def ofText? (s : String) : Option LogicOp := [LogicOp.and, .or, .not].find? (·.text = s)

theorem ofText?_text (op : LogicOp) : ofText? op.text = some op := by cases op <;> decide

end LogicOp

namespace Expr

/-- The value of an expression. -/
def eval (env : Env) : (room : Nat) → Expr → Except Fault Value
  | 0, _ => .error (.limit .nesting)
  | _ + 1, var x => do (← env.get x).copy
  | _ + 1, int n => .ok (.int n)
  | _ + 1, float x => .ok (.float x)
  | _ + 1, str s => .ok (.str s)
  | _ + 1, call f _ => do
    let _ ← env.lookup f
    throw (.script (.uncallable f))
  | room + 1, logic op l r =>
    match LogicOp.ofText? op with
    | some .not => do return .bool (!(← (← l.eval env room).toBool))
    | some .and => do
      if ← (← l.eval env room).toBool then return .bool (← (← r.eval env room).toBool)
      else return .bool false
    | some .or => do
      if ← (← l.eval env room).toBool then return .bool true
      else return .bool (← (← r.eval env room).toBool)
    | none => do
      let _ ← (← l.eval env room).toBool
      throw (.tree (.unknownLogic op))
  | room + 1, logicUnary op e =>
    match LogicOp.ofText? op with
    | some .not => do return .bool (!(← (← e.eval env room).toBool))
    | _ => .error (.tree (.missingOperand op))
  | room + 1, compare op l r => do
    let a ← l.eval env room
    let b ← r.eval env room
    return .bool (← a.compare op b)
  | room + 1, arith op l r => do
    let a ← l.eval env room
    let b ← r.eval env room
    a.arith op b
  | room + 1, arithUnary op e =>
    if op = "-" then do (← e.eval env room).negate else .error (.tree (.notUnary op))
  | _ + 1, hole => .error .unfinished

/-- The values of expressions, from left to right. -/
def evalAll (env : Env) (room : Nat) (es : List Expr) : Except Fault (List Value) :=
  es.mapM (eval env room)

/-- The integer value of an expression. -/
def evalInt (env : Env) (room : Nat) (e : Expr) : Except Fault Int := do
  (← e.eval env room).toInt

/-- The truth value of an expression. -/
def evalBool (env : Env) (room : Nat) (e : Expr) : Except Fault Bool := do
  (← e.eval env room).toBool

end Expr

end TinyScript
