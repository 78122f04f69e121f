import TinyScript.Tree.Stmt
import TinyScript.Tree.Text

/-!
# Outlines

The outline of a tree has a line for each node, indented by its depth. A missing node cannot be
shown, nor can an integer with too many digits; the first of them in the order of the outline is the
one reported.
-/

namespace TinyScript

open Text (commaList joinWith quote)

namespace Outline

/-- A line of an outline, two blanks in for each level. -/
def line (depth : Nat) (header : String) : String :=
  String.ofList (List.replicate (2 * depth) ' ') ++ header

/-- A block as the header of its statements. -/
def blockHeader (body : Block) : String := "Statements (" ++ body.length.repr ++ ")"

end Outline

open Outline (line blockHeader)

mutual

/-- The lines of an expression at a given depth. -/
def Expr.outline (depth : Nat) : Expr → List String
  | .var x => [line depth ("Variable " ++ x)]
  | .int n => [line depth ("WholeNumber " ++ Number.intText n)]
  | .float x => [line depth ("Double " ++ Number.floatText x)]
  | .str s => [line depth ("StringExp " ++ quote s)]
  | .call f args => line depth ("FunctionCall " ++ f) :: Expr.outlineAll (depth + 1) args
  | .logic op l r =>
    line depth ("BooleanExprNode " ++ op) :: (l.outline (depth + 1) ++ r.outline (depth + 1))
  | .logicUnary op e => line depth ("BooleanExprNode " ++ op) :: e.outline (depth + 1)
  | .compare op l r =>
    line depth ("ComparisonExprNode " ++ op) :: (l.outline (depth + 1) ++ r.outline (depth + 1))
  | .arith op l r =>
    line depth ("InfixExprNode " ++ op) :: (l.outline (depth + 1) ++ r.outline (depth + 1))
  | .arithUnary op e => line depth ("InfixExprNode " ++ op) :: e.outline (depth + 1)
  | .hole => []

def Expr.outlineAll (depth : Nat) : List Expr → List String
  | [] => []
  | e :: es => e.outline depth ++ Expr.outlineAll depth es

end

mutual

/-- The lines of a statement at a given depth. -/
def Stmt.outline (depth : Nat) : Stmt → List String
  | .assign x e => line depth ("AssignStmt " ++ x ++ " = " ++ e.text) :: e.outline (depth + 1)
  | .print es => line depth "PrintStatement" :: Expr.outlineAll (depth + 1) es
  | .ifElse c body arms =>
    line depth "IfStatement" :: line (depth + 1) "If" :: line (depth + 2) ("Branch " ++ c.text) ::
      (c.outline (depth + 3) ++ line (depth + 3) (blockHeader body) ::
        Stmt.outlineAll (depth + 4) body ++ arms.outline (depth + 1))
  | .headless arms => line depth "IfStatement" :: arms.outline (depth + 1)
  | .forRange x args body =>
    line depth ("RangeStmt " ++ x ++ " in range(" ++ commaList (Expr.texts args) ++ ")") ::
      (Expr.outlineAll (depth + 1) args ++ line (depth + 1) (blockHeader body) ::
        Stmt.outlineAll (depth + 2) body)
  | .define f params body _ =>
    line depth ("FunctionDefinition " ++ f ++ "(" ++ commaList params ++ ")") ::
      line (depth + 1) (blockHeader body) :: Stmt.outlineAll (depth + 2) body
  | .ret e => line depth ("ReturnStatement " ++ e.text) :: e.outline (depth + 1)
  | .bare e => e.outline depth
  | .block body => line depth (blockHeader body) :: Stmt.outlineAll (depth + 1) body
  | .guarded c body =>
    line depth ("Branch " ++ c.text) ::
      (c.outline (depth + 1) ++ line (depth + 1) (blockHeader body) ::
        Stmt.outlineAll (depth + 2) body)
  | .hole => []

/-- The lines of the further arms of a conditional. -/
def Arms.outline (depth : Nat) : Arms → List String
  | .done => []
  | .otherwise body =>
    line depth "Else" :: line (depth + 1) (blockHeader body) :: Stmt.outlineAll (depth + 2) body
  | .elif c body rest =>
    line depth "Elif" :: line (depth + 1) ("Branch " ++ c.text) ::
      (c.outline (depth + 2) ++ line (depth + 2) (blockHeader body) ::
        Stmt.outlineAll (depth + 3) body ++ rest.outline depth)

def Stmt.outlineAll (depth : Nat) : List Stmt → List String
  | [] => []
  | s :: ss => s.outline depth ++ Stmt.outlineAll depth ss

end

mutual

/-- The first thing in an expression that an outline cannot show. -/
def Expr.outlineFault? : Expr → Option Fault
  | .int n => if Number.fits n then none else some (.limit .digits)
  | .var _ | .float _ | .str _ => none
  | .call _ args => Expr.outlineFaults args
  | .logic _ l r | .compare _ l r | .arith _ l r => l.outlineFault?.or r.outlineFault?
  | .logicUnary _ e | .arithUnary _ e => e.outlineFault?
  | .hole => some .unfinished

def Expr.outlineFaults : List Expr → Option Fault
  | [] => none
  | e :: es => e.outlineFault?.or (Expr.outlineFaults es)

end

/-- A header that holds expressions fails before they are shown below it. -/
def Expr.headerFault? (es : List Expr) : Option Fault :=
  (es.findSome? Expr.textFault?).or (Expr.outlineFaults es)

mutual

/-- The first thing in a statement that an outline cannot show. -/
def Stmt.outlineFault? : Stmt → Option Fault
  | .assign _ e | .ret e => Expr.headerFault? [e]
  | .print es => Expr.outlineFaults es
  | .ifElse c body arms =>
    ((Expr.headerFault? [c]).or (Stmt.outlineFaults body)).or arms.outlineFault?
  | .headless arms => arms.outlineFault?
  | .forRange _ args body => (Expr.headerFault? args).or (Stmt.outlineFaults body)
  | .define _ _ body _ | .block body => Stmt.outlineFaults body
  | .bare e => e.outlineFault?
  | .guarded c body => (Expr.headerFault? [c]).or (Stmt.outlineFaults body)
  | .hole => some .unfinished

def Arms.outlineFault? : Arms → Option Fault
  | .done => none
  | .otherwise body => Stmt.outlineFaults body
  | .elif c body rest =>
    ((Expr.headerFault? [c]).or (Stmt.outlineFaults body)).or rest.outlineFault?

def Stmt.outlineFaults : List Stmt → Option Fault
  | [] => none
  | s :: ss => s.outlineFault?.or (Stmt.outlineFaults ss)

end

namespace Node

/-- The lines of a node. -/
def outline : Node → List String
  | expr e => e.outline 0
  | stmt s => s.outline 0
  | bare => []

def outlineFault? : Node → Option Fault
  | expr e => e.outlineFault?
  | stmt s => s.outlineFault?
  | bare => some .unfinished

/-- The outline of a node as a text. -/
def outlineText (n : Node) : String := joinWith "\n" n.outline

/-- The outline of a node, unless it is higher than `limit` or cannot be shown. -/
def describe (limit : Nat) (n : Node) : Except Fault String :=
  if limit < n.height then .error (.limit .nesting)
  else
    match n.outlineFault? with
    | some f => .error f
    | none => .ok n.outlineText

end Node

end TinyScript
