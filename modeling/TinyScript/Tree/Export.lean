import TinyScript.Fault
import TinyScript.Json
import TinyScript.Tree.Stmt

/-!
# Exported trees

A tree as a JSON value. Every node is an object whose first member, `type`, names its kind. Whether
a function definition has been registered is not part of the export.

Besides trees, plain data can be exported as themselves, and lists element by element. A missing
node, a token and a value of the language have no export.
-/

namespace TinyScript

namespace Json

/-- The object of a node. -/
def node (type : String) (members : List (String × Json)) : Json :=
  obj (("type", str type) :: members)

end Json

mutual

/-- The exported form of an expression. A missing one has none and is left as null here. -/
def Expr.toJson : Expr → Json
  | .var x => .node "Variable" [("name", .str x)]
  | .int n => .node "WholeNumber" [("value", .int n)]
  | .float x => .node "Double" [("value", .float x)]
  | .str s => .node "StringExp" [("value", .str s)]
  | .call f args => .node "FunctionCall" [("name", .str f), ("args", .arr (Expr.toJsons args))]
  | .logic op l r =>
    .node "BooleanExprNode" [("op", .str op), ("left", l.toJson), ("right", r.toJson)]
  | .logicUnary op e =>
    .node "BooleanExprNode" [("op", .str op), ("left", e.toJson), ("right", .null)]
  | .compare op l r =>
    .node "ComparisonExprNode" [("op", .str op), ("left", l.toJson), ("right", r.toJson)]
  | .arith op l r =>
    .node "InfixExprNode" [("op", .str op), ("left", l.toJson), ("right", r.toJson)]
  | .arithUnary op e =>
    .node "InfixExprNode" [("op", .str op), ("left", e.toJson), ("right", .null)]
  | .hole => .null

def Expr.toJsons : List Expr → List Json
  | [] => []
  | e :: es => e.toJson :: Expr.toJsons es

end

namespace Json

/-- The object of a block. -/
def block (body : List Json) : Json := node "Statements" [("body", arr body)]

/-- The object of a branch. -/
def branch (condition : Json) (body : List Json) : Json :=
  node "Branch" [("condition", condition), ("block", block body)]

/-- The object of a conditional. -/
def conditional (first : Json) (elifs : List Json) (last : Json) : Json :=
  node "IfStatement" [("if", first), ("elif", arr elifs), ("else", last)]

end Json

mutual

/-- The exported form of a statement. A missing one has none and is left as null here. -/
def Stmt.toJson : Stmt → Json
  | .assign x e => .node "AssignStmt" [("name", .str x), ("expr", e.toJson)]
  | .print es => .node "PrintStatement" [("exprs", .arr (Expr.toJsons es))]
  | .ifElse c body arms =>
    .conditional (.branch c.toJson (Stmt.toJsons body)) arms.elifJsons arms.otherwiseJson
  | .headless arms => .conditional .null arms.elifJsons arms.otherwiseJson
  | .forRange x args body =>
    .node "RangeStmt"
      [("var_name", .str x), ("args", .arr (Expr.toJsons args)),
        ("body", .block (Stmt.toJsons body))]
  | .define f params body _ =>
    .node "FunctionDefinition"
      [("name", .str f), ("params", .arr (params.map Json.str)),
        ("body", .block (Stmt.toJsons body))]
  | .ret e => .node "ReturnStatement" [("expr", e.toJson)]
  | .bare e => e.toJson
  | .block body => .block (Stmt.toJsons body)
  | .guarded c body => .branch c.toJson (Stmt.toJsons body)
  | .hole => .null

/-- The tested branches among the arms of a conditional. -/
def Arms.elifJsons : Arms → List Json
  | .done | .otherwise _ => []
  | .elif c body rest => .branch c.toJson (Stmt.toJsons body) :: rest.elifJsons

/-- The branch without a test among the arms of a conditional. -/
def Arms.otherwiseJson : Arms → Json
  | .done => .null
  | .otherwise body => .block (Stmt.toJsons body)
  | .elif _ _ rest => rest.otherwiseJson

def Stmt.toJsons : List Stmt → List Json
  | [] => []
  | s :: ss => s.toJson :: Stmt.toJsons ss

end

mutual

/-- The kind of the first missing node in an expression. -/
def Expr.missing? : Expr → Option String
  | .var _ | .int _ | .float _ | .str _ => none
  | .call _ args => Expr.missingAmong args
  | .logic _ l r | .compare _ l r | .arith _ l r => l.missing?.or r.missing?
  | .logicUnary _ e | .arithUnary _ e => e.missing?
  | .hole => some Expr.hole.className

def Expr.missingAmong : List Expr → Option String
  | [] => none
  | e :: es => e.missing?.or (Expr.missingAmong es)

end

mutual

/-- The kind of the first missing node in a statement. -/
def Stmt.missing? : Stmt → Option String
  | .assign _ e | .ret e | .bare e => e.missing?
  | .print es => Expr.missingAmong es
  | .ifElse c body arms => (c.missing?.or (Stmt.missingAmong body)).or arms.missing?
  | .headless arms => arms.missing?
  | .forRange _ args body => (Expr.missingAmong args).or (Stmt.missingAmong body)
  | .define _ _ body _ | .block body => Stmt.missingAmong body
  | .guarded c body => c.missing?.or (Stmt.missingAmong body)
  | .hole => some Stmt.hole.className

def Arms.missing? : Arms → Option String
  | .done => none
  | .otherwise body => Stmt.missingAmong body
  | .elif c body rest => (c.missing?.or (Stmt.missingAmong body)).or rest.missing?

def Stmt.missingAmong : List Stmt → Option String
  | [] => none
  | s :: ss => s.missing?.or (Stmt.missingAmong ss)

end

/-- Why something has no export. -/
inductive ExportFault where
  /-- There is no export of things of this kind. -/
  | unsupported (className : String)
  | limit (l : Limit)
  deriving DecidableEq, Repr

def ExportFault.message : ExportFault → String
  | unsupported c => "ast_to_obj: unsupported node " ++ c
  | limit l => l.message

/-- What may be handed to the export. -/
inductive Item where
  | null
  | int (n : Int)
  | str (s : String)
  | bool (b : Bool)
  | list (items : List Item)
  | token (t : Token)
  | value (v : Value)
  | node (n : Node)

namespace Value

/-- The name of the kind of value. -/
def className : Value → String
  | int _ => "IntValue"
  | float _ => "FloatValue"
  | bool _ => "BoolValue"
  | str _ => "StrValue"
  | foreign _ => "int"

end Value

namespace Node

def toJson : Node → Json
  | expr e => e.toJson
  | stmt s => s.toJson
  | bare => .null

def missing? : Node → Option String
  | expr e => e.missing?
  | stmt s => s.missing?
  | bare => some bare.className

end Node

namespace Item

instance : Inhabited Item := ⟨null⟩

mutual

def toJson : Item → Json
  | null => .null
  | int n | value (.foreign n) => .int n
  | str s => .str s
  | bool b => .bool b
  | list items => .arr (toJsons items)
  | token _ | value _ => .null
  | node n => n.toJson

def toJsons : List Item → List Json
  | [] => []
  | i :: is => i.toJson :: toJsons is

end

mutual

/-- The kind of the first thing in an item that has no export. -/
def unsupported? : Item → Option String
  | null | int _ | str _ | bool _ | value (.foreign _) => none
  | list items => unsupportedAmong items
  | token _ => some "Token"
  | value v => some v.className
  | node n => n.missing?

def unsupportedAmong : List Item → Option String
  | [] => none
  | i :: is => i.unsupported?.or (unsupportedAmong is)

end

/-- The height of the tree of an item; plain data count as one node. -/
def height : Item → Nat
  | node n => n.height
  | _ => 1

/-- The exported form of an item, unless it is higher than `limit`. -/
def toJson? (limit : Nat) (i : Item) : Except ExportFault Json :=
  if limit < i.height then .error (.limit .nesting)
  else
    match i.unsupported? with
    | some c => .error (.unsupported c)
    | none => .ok i.toJson

/-- The exported form as text, on one line or with a step of indentation. -/
def exportText (limit : Nat) (i : Item) (indent : Option Nat) : Except ExportFault String :=
  match i.toJson? limit with
  | .error f => .error f
  | .ok j =>
    if !j.writable then .error (.limit .digits)
    else
      match indent with
      | none => .ok j.compact
      | some step => .ok (j.pretty step 0)

end Item

end TinyScript
