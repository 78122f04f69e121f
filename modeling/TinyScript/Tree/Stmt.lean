import TinyScript.Tree.Expr

/-!
# Statements

The tree of a program is a list of statements. A conditional is a first branch followed by its
further arms: any number of tested branches, and perhaps a last one without a test. Trees built by
hand can hold more than the grammar produces: expressions and blocks as statements, a branch on its
own, a conditional without its first branch, and a place where a statement is missing.
-/

namespace TinyScript

mutual

inductive Stmt where
  | assign (name : String) (value : Expr)
  | print (values : List Expr)
  | ifElse (condition : Expr) (body : List Stmt) (arms : Arms)
  /-- A conditional whose first branch is missing. -/
  | headless (arms : Arms)
  | forRange (var : String) (args : List Expr) (body : List Stmt)
  /-- A function definition; one that has been registered already does nothing. -/
  | define (name : String) (params : List String) (body : List Stmt) (registered : Bool)
  | ret (value : Expr)
  /-- An expression evaluated for its faults only. -/
  | bare (e : Expr)
  | block (body : List Stmt)
  /-- A branch outside a conditional. -/
  | guarded (condition : Expr) (body : List Stmt)
  /-- A place where a statement is missing. -/
  | hole

/-- What follows the first branch of a conditional. -/
inductive Arms where
  | done
  | otherwise (body : List Stmt)
  | elif (condition : Expr) (body : List Stmt) (rest : Arms)

end

/-- The body of a program or of a compound statement. -/
abbrev Block := List Stmt

/-- The most arguments that a counted loop takes: start, end and step. -/
def Loop.maxArguments : Nat := 3

namespace Stmt

instance : Inhabited Stmt := ⟨hole⟩

/-- The name of the kind of node, as outlines and exported trees show it. -/
def className : Stmt → String
  | assign .. => "AssignStmt"
  | print _ => "PrintStatement"
  | ifElse .. | headless _ => "IfStatement"
  | forRange .. => "RangeStmt"
  | define .. => "FunctionDefinition"
  | ret _ => "ReturnStatement"
  | bare e => e.className
  | block _ => "Statements"
  | guarded .. => "Branch"
  | hole => "Statement"

end Stmt

mutual

/-- The number of nodes on the longest way down. -/
def Stmt.height : Stmt → Nat
  | .assign _ e | .ret e | .bare e => e.height + 1
  | .print es => Expr.heightAll es + 1
  | .ifElse c body arms => max c.height (max (Stmt.heightAll body) arms.height) + 1
  | .headless arms => arms.height + 1
  | .forRange _ args body => max (Expr.heightAll args) (Stmt.heightAll body) + 1
  | .define _ _ body _ | .block body => Stmt.heightAll body + 1
  | .guarded c body => max c.height (Stmt.heightAll body) + 1
  | .hole => 1

def Arms.height : Arms → Nat
  | .done => 0
  | .otherwise body => Stmt.heightAll body + 1
  | .elif c body rest => max (max c.height (Stmt.heightAll body) + 1) rest.height

/-- The greatest height among statements. -/
def Stmt.heightAll : List Stmt → Nat
  | [] => 0
  | s :: ss => max s.height (Stmt.heightAll ss)

end

/-- A node of a tree, of whatever sort. -/
inductive Node where
  | expr (e : Expr)
  | stmt (s : Stmt)
  /-- A node of no particular sort. -/
  | bare

namespace Node

def className : Node → String
  | expr e => e.className
  | stmt s => s.className
  | bare => "Node"

def height : Node → Nat
  | expr e => e.height
  | stmt s => s.height
  | bare => 1

end Node

end TinyScript
