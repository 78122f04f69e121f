import TinyScript.Parser.Stmt
import TinyScript.Token.Layout

/-!
# Parsing texts

`parseProgram` and `parseExpression` read a whole text. Every production can also be run alone on a
cursor, by `Production.parse`. How deep phrases may be nested is up to the host, and a parameter of
all of them.
-/

namespace TinyScript

open TinyScript.Parser (Parse Failure State)

/-- Why a text is not a program. -/
inductive ParseError where
  | lexical (e : LexicalError)
  | rejected (e : SyntaxError)
  | unreadable (e : Number.ReadError)
  deriving DecidableEq, Repr

namespace ParseError

/-- The diagnostic of an error, if it is one of the text. A number that cannot be read has none. -/
def diagnostic? : ParseError → Option Diagnostic
  | lexical e => some ⟨"Lexer", e.cause.message, none, e.history⟩
  | rejected e => some e.diagnostic
  | unreadable _ => none

def message (e : ParseError) : String :=
  match e with
  | unreadable e => e.message
  | lexical _ | rejected _ => (e.diagnostic?.map Diagnostic.headline).getD ""

end ParseError

namespace Parser

/-- The state before the first token. -/
def State.start (tokens : List Token) (log : Log) : State := ⟨Cursor.ofTokens tokens, 0, log⟩

/-- A whole program, nested at most `room` deep. -/
def program (room : Nat) : Parse Block := fileInput (statement room)

/-- An expression that takes up its whole line, at the end of the text. -/
def expression (room : Nat) : Parse Expr := do
  let e ← test room
  let _ ← expect .expression .newline
  let _ ← expect .expression .eof
  return e

/-- What a failure says about the text. Nesting beyond the limit is reported in the name of the
entry point, at the token where the room ran out. -/
def Failure.parseError (scope : Production) (s : State) : Failure → ParseError
  | .rejected e => .rejected e
  | .unreadable e => .unreadable e
  | .tooDeep => .rejected ⟨scope, .tooDeep, s.cursor.peek, s.cursor.history⟩

/-- Parses a text with a given step. The log is returned with the result. -/
def parseText {α : Type} (scope : Production) (p : Parse α) (source : String) (log : Log) :
    Except ParseError α × Log :=
  match tokenize source with
  | .error e => (.error (.lexical e), log)
  | .ok tokens =>
    match p (.start tokens log) with
    | .ok a s => (.ok a, s.log)
    | .error e s => (.error (e.parseError scope s), s.log)

end Parser

/-- The program that a text spells, nested at most `room` deep. -/
def parseProgram (room : Nat) (source : String) (log : Log) : Except ParseError Block × Log :=
  Parser.parseText .program (Parser.program room) source log

/-- What a production produces. -/
inductive Phrase where
  | block (body : Block)
  | stmt (s : Stmt)
  | expr (e : Expr)
  | exprs (es : List Expr)

namespace Production

open TinyScript.Parser in
/-- Runs a production on its own, with room for so many levels of nesting. The name is that of an
assignment or a call, which has been read before the production begins. -/
def parse (room : Nat) (p : Production) (name : String) : Parse Phrase :=
  let expr := Parser.test room
  let stmt := Parser.statement room
  match p with
  | fileInput => .block <$> Parser.fileInput stmt
  | statement => .stmt <$> stmt
  | simpleStmt => .stmt <$> Parser.simpleStmt expr
  | printStmt => .stmt <$> Parser.printStmt expr
  | assignStmt => .stmt <$> Parser.assignStmt expr name
  | returnStmt => .stmt <$> Parser.returnStmt expr
  | compoundStmt => .stmt <$> Parser.compoundStmt expr stmt
  | ifStmt => .stmt <$> Parser.ifStmt expr stmt
  | forStmt => .stmt <$> Parser.forStmt expr stmt
  | funcDef => .stmt <$> Parser.funcDef stmt
  | suite => .block <$> Parser.suite stmt
  | funcSuite => .block <$> Parser.funcSuite stmt
  | testList => .exprs <$> Parser.testList expr
  | test => .expr <$> expr
  | orTest => .expr <$> Parser.orTest expr room
  | andTest => .expr <$> Parser.andTest expr room
  | notTest => .expr <$> Parser.notTest expr room
  | comparison => .expr <$> Parser.comparison expr room
  | arithExpr => .expr <$> Parser.arithExpr expr room
  | term => .expr <$> Parser.term expr room
  | factor => .expr <$> Parser.factor expr room
  | atomOrCall => .expr <$> Parser.atomOrCall expr
  | call => .expr <$> Parser.call expr name
  | atom => .expr <$> Parser.atom expr
  | program => .block <$> Parser.program room
  | expression => .expr <$> Parser.expression room

/-- All productions. -/
def all : List Production :=
  [fileInput, statement, simpleStmt, printStmt, assignStmt, returnStmt, compoundStmt, ifStmt,
    forStmt, funcDef, suite, funcSuite, testList, test, orTest, andTest, notTest, comparison,
    arithExpr, term, factor, atomOrCall, call, atom, program, expression]

theorem mem_all (p : Production) : p ∈ all := by cases p <;> decide

/-- The production with a given label. -/
def ofLabel? (label : String) : Option Production := all.find? (·.label = label)

end Production

end TinyScript
