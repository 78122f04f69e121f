import TinyScript.Eval.Loop

/-!
# Evaluation of statements

Statements run in order until one stops. An assignment binds its variable before it writes to the
trace. A conditional runs the block of the first branch whose condition holds. A definition enters
its function into the environment and does not run the body.

Running is by recursion on the tree. `Grant` bounds what the tree does not: how deep expressions are
descended into, and how many passes each loop may make.
-/

namespace TinyScript

open Text (commaList)

/-- What a run is granted. -/
structure Grant where
  /-- How deep expressions may be descended into. -/
  room : Nat
  /-- How many passes a loop may make. -/
  passes : Nat
  deriving DecidableEq, Repr

namespace Exec

/-- The value of an expression. -/
def eval (g : Grant) (e : Expr) : Exec Value := ask fun env => e.eval env g.room

/-- The truth of an expression. -/
def condition (g : Grant) (e : Expr) : Exec Bool := ask fun env => e.evalBool env g.room

def assign (g : Grant) (x : String) (e : Expr) : Exec Unit := do
  let v ← eval g e
  change (·.set x v)
  ofExcept v.checkText
  trace 2 ("assign " ++ x ++ " = " ++ v.text)

/-- All values are computed before the first is printed. -/
def printAll (g : Grant) (es : List Expr) : Exec Unit := do
  let line ← ask fun env => do Value.printLine (← Expr.evalAll env g.room es)
  print line

/-- Enters a function into the environment, marked as registered. -/
def define (name : String) (params : List String) (body : Block) : Exec Unit := do
  change (·.register ⟨name, params, body, true⟩)
  trace 2 ("define function " ++ name ++ "(" ++ commaList params ++ ")")

end Exec

open Exec (assign printAll condition trace define)

mutual

/-- Runs a statement. -/
def Stmt.exec (g : Grant) : Stmt → Exec Unit
  | .assign x e => assign g x e
  | .print es => printAll g es
  | .ifElse c body arms => do
    if ← condition g c then
      Stmt.execAll g body
      trace 3 "if: took primary branch"
    else arms.exec g 1
  | .headless _ => throw (.fault (.tree .headless))
  | .forRange x args body => runLoop g.room g.passes x args (Stmt.execAll g body)
  | .define name params body registered =>
    if registered then pure () else define name params body
  | .ret e => do throw (.returned (← Exec.eval g e))
  | .bare e => do let _ ← Exec.eval g e
  | .block body => Stmt.execAll g body
  | .guarded c body => do if ← condition g c then Stmt.execAll g body
  | .hole => throw (.fault .unfinished)

/-- Runs the further arms of a conditional; `index` numbers its tested branches. -/
def Arms.exec (g : Grant) (index : Nat) : Arms → Exec Unit
  | .done => pure ()
  | .otherwise body => do
    trace 3 "if: took else branch"
    Stmt.execAll g body
  | .elif c body rest => do
    if ← condition g c then
      Stmt.execAll g body
      trace 3 ("if: took elif branch " ++ index.repr)
    else rest.exec g (index + 1)

/-- Runs statements in order. -/
def Stmt.execAll (g : Grant) : List Stmt → Exec Unit
  | [] => pure ()
  | s :: ss => do
    s.exec g
    Stmt.execAll g ss

end

/-- Runs a branch on its own and tells whether it was taken. -/
def Exec.branch (g : Grant) (c : Expr) (body : Block) : Exec Bool := do
  if ← condition g c then
    Stmt.execAll g body
    return true
  return false

end TinyScript
