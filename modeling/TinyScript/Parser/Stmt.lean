import TinyScript.Parser.Expr
import TinyScript.Tree.Stmt

/-!
# The grammar of statements

    file_input    = { NEWLINE | statement } EOF
    statement     = simple_stmt | compound_stmt
    simple_stmt   = ( print_stmt | assign_stmt | return_stmt ) NEWLINE
    print_stmt    = "print" test_list
    assign_stmt   = NAME "=" test
    return_stmt   = "return" test
    compound_stmt = for_stmt | if_stmt | func_def
    if_stmt       = "if" test ":" suite { "elif" test ":" suite } [ "else" ":" suite ]
    for_stmt      = "for" NAME "in" "range" "(" test_list ")" ":" suite
    func_def      = "def" NAME "(" [ NAME { "," NAME } ] ")" ":" func_suite
    suite         = NEWLINE INDENT statement { statement } DEDENT
    func_suite    = NEWLINE INDENT { statement } DEDENT

A loop has at most three arguments, the parameters of a function are distinct, and `return` stands
in function bodies only. Productions are written over `expr`, the parser of expressions, and
`stmt`, the parser of the statements inside a block; `statement` ties the knot.
-/

namespace TinyScript.Parser

def printStmt (expr : Parse Expr) : Parse Stmt := do
  enter .printStmt
  let _ ← expect .printStmt (.keyword .printWord)
  return .print (← testList expr)

/-- An assignment, whose name has been read. -/
def assignStmt (expr : Parse Expr) (name : String) : Parse Stmt := do
  enter .assignStmt
  let _ ← expect .assignStmt (.symbol .assign)
  return .assign name (← expr)

def returnStmt (expr : Parse Expr) : Parse Stmt := do
  enter .returnStmt
  let _ ← expect .returnStmt (.keyword .returnWord)
  return .ret (← expr)

/-- A simple statement without its line end. A name starts an assignment only. -/
def simpleBody (expr : Parse Expr) : Parse Stmt := do
  let token ← peek
  match token.kind with
  | .keyword .printWord => printStmt expr
  | .keyword .returnWord =>
    if (← get).functionDepth = 0 then
      let _ ← next
      reject .simpleStmt .returnOutside token
    else returnStmt expr
  | .name =>
    let _ ← next
    let following ← peek
    match following.kind with
    | .symbol .assign => assignStmt expr token.text
    | .symbol .lpar => reject .simpleStmt (.callStatement token.text) following
    | _ =>
      let _ ← next
      reject .simpleStmt (.expectedAssign token.text) following
  | _ =>
    let _ ← next
    reject .simpleStmt .expectedStatement token

def simpleStmt (expr : Parse Expr) : Parse Stmt := do
  enter .simpleStmt
  let s ← simpleBody expr
  let _ ← expect .simpleStmt .newline
  return s

/-- Statements up to the end of the block. -/
def blockRest (stmt : Parse Stmt) : Parse Block := collect do
  if ← looksAt [.dedent] then return none else return some (← stmt)

def suite (stmt : Parse Stmt) : Parse Block := do
  enter .suite
  let _ ← expect .suite .newline
  let _ ← expect .suite .indent
  let first ← stmt
  let others ← blockRest stmt
  let _ ← expect .suite .dedent
  return first :: others

def funcSuite (stmt : Parse Stmt) : Parse Block := do
  enter .funcSuite
  let _ ← expect .funcSuite .newline
  let _ ← expect .funcSuite .indent
  let body ← inFunction (blockRest stmt)
  let _ ← expect .funcSuite .dedent
  return body

/-- A condition, a colon and the block it guards. -/
def branch (expr : Parse Expr) (stmt : Parse Stmt) : Parse (Expr × Block) := do
  let condition ← expr
  let _ ← expect .ifStmt (.symbol .colon)
  let body ← suite stmt
  return (condition, body)

/-- The arms of a conditional from its tested branches and its last one. -/
def arms (elifs : List (Expr × Block)) (last : Option Block) : Arms :=
  elifs.foldr (fun b rest => .elif b.1 b.2 rest) (last.elim .done .otherwise)

def ifStmt (expr : Parse Expr) (stmt : Parse Stmt) : Parse Stmt := do
  enter .ifStmt
  let _ ← expect .ifStmt (.keyword .ifWord)
  let (condition, body) ← branch expr stmt
  let elifs ← collect do
    if ← looksAt [.keyword .elifWord] then
      let _ ← next
      return some (← branch expr stmt)
    else return none
  if ← looksAt [.keyword .elseWord] then
    let _ ← next
    let _ ← expect .ifStmt (.symbol .colon)
    let last ← suite stmt
    return .ifElse condition body (arms elifs (some last))
  else return .ifElse condition body (arms elifs none)

def forStmt (expr : Parse Expr) (stmt : Parse Stmt) : Parse Stmt := do
  enter .forStmt
  let _ ← expect .forStmt (.keyword .forWord)
  let var ← expect .forStmt .name
  let _ ← expect .forStmt (.keyword .inWord)
  let _ ← expect .forStmt (.keyword .rangeWord)
  let _ ← expect .forStmt (.symbol .lpar)
  let args ← testList expr
  let close ← expect .forStmt (.symbol .rpar)
  if Loop.maxArguments < args.length then reject .forStmt (.tooManyArguments args.length) close
  else
    let _ ← expect .forStmt (.symbol .colon)
    let body ← suite stmt
    return .forRange var.text args body

/-- One more parameter, which must differ from those before it. -/
def param (earlier : List String) : Parse (List String) := do
  let token ← expect .funcDef .name
  if earlier.contains token.text then reject .funcDef (.duplicateParameter token.text) token
  else return earlier ++ [token.text]

def params : Parse (List String) := do
  let first ← param []
  iterate (fun earlier => do
    if ← looksAt [.symbol .comma] then
      let _ ← next
      return some (← param earlier)
    else return none) first

def funcDef (stmt : Parse Stmt) : Parse Stmt := do
  enter .funcDef
  let _ ← expect .funcDef (.keyword .defWord)
  let name ← expect .funcDef .name
  let _ ← expect .funcDef (.symbol .lpar)
  let ps ← if ← looksAt [.symbol .rpar] then pure [] else params
  let _ ← expect .funcDef (.symbol .rpar)
  let _ ← expect .funcDef (.symbol .colon)
  let body ← funcSuite stmt
  return .define name.text ps body false

def compoundStmt (expr : Parse Expr) (stmt : Parse Stmt) : Parse Stmt := do
  enter .compoundStmt
  let token ← peek
  match token.kind with
  | .keyword .forWord => forStmt expr stmt
  | .keyword .ifWord => ifStmt expr stmt
  | .keyword .defWord => funcDef stmt
  | _ =>
    let _ ← next
    reject .compoundStmt .expectedCompound token

/-- A statement whose blocks are nested at most `room` deep. -/
def statement : (room : Nat) → Parse Stmt
  | 0 => throw .tooDeep
  | room + 1 => do
    enter .statement
    if ← looksAt [.keyword .defWord, .keyword .forWord, .keyword .ifWord] then
      compoundStmt (test room) (statement room)
    else simpleStmt (test room)

/-- A program: statements and empty lines, up to the end of the input, which is not taken. -/
def fileInput (stmt : Parse Stmt) : Parse Block := do
  enter .fileInput
  let items ← collect do
    if ← looksAt [.eof] then return none
    else if ← looksAt [.newline] then
      let _ ← next
      return some none
    else
      let s ← stmt
      return some (some s)
  return items.filterMap id

end TinyScript.Parser
