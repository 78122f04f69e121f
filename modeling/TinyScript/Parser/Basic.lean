import TinyScript.Diagnostic
import TinyScript.Number.Read
import TinyScript.Text.Literal
import TinyScript.Token.Cursor
import TinyScript.Trace

/-!
# Parsing steps

A parsing step reads tokens through a cursor and either gives a result or fails; in both cases the
state it reached is kept. The first rejection is final: there is no backtracking. Repetition is
expressed by two combinators, `iterate` and `collect`, which bound themselves by the tokens that are
left.
-/

namespace TinyScript

/-- The productions of the grammar, and the two entry points. -/
inductive Production where
  | fileInput | statement | simpleStmt | printStmt | assignStmt | returnStmt | compoundStmt
  | ifStmt | forStmt | funcDef | suite | funcSuite
  | testList | test | orTest | andTest | notTest | comparison | arithExpr | term | factor
  | atomOrCall | call | atom
  | program | expression
  deriving DecidableEq, Repr

namespace Production

/-- The name of a production in diagnostics and in the trace. -/
def label : Production → String
  | fileInput => "file_input"
  | statement => "statement"
  | simpleStmt => "simple_stmt"
  | printStmt => "print_stmt"
  | assignStmt => "assign_stmt"
  | returnStmt => "return_stmt"
  | compoundStmt => "compound_stmt"
  | ifStmt => "if_stmt"
  | forStmt => "for_stmt"
  | funcDef => "func_def"
  | suite => "suite"
  | funcSuite => "func_suite"
  | testList => "test_list"
  | test => "test"
  | orTest => "or_test"
  | andTest => "and_test"
  | notTest => "not_test"
  | comparison => "comparison"
  | arithExpr => "arith_expr"
  | term => "term"
  | factor => "factor"
  | atomOrCall => "atom_or_call"
  | call => "call"
  | atom => "atom"
  | program => "parse_program"
  | expression => "parse_expression"

/-- The level of detail at which the trace mentions a production: statements before expressions. -/
def level : Production → Int
  | fileInput | statement | simpleStmt | printStmt | assignStmt | returnStmt | compoundStmt
  | ifStmt | forStmt | funcDef | suite | funcSuite | program => 3
  | _ => 4

end Production

/-- Why a token is rejected. -/
inductive SyntaxCause where
  | expected (kind : Kind)
  | returnOutside
  | callStatement (name : String)
  | expectedAssign (name : String)
  | expectedStatement
  | expectedCompound
  | tooManyArguments (count : Nat)
  | duplicateParameter (name : String)
  | invalidString (reason : Text.Literal.Refusal)
  | unexpectedToken
  /-- Nesting beyond the limit, noticed by an entry point. -/
  | tooDeep
  deriving DecidableEq, Repr

def SyntaxCause.message : SyntaxCause → String
  | expected kind => "Expected `" ++ kind.label ++ "`, instead got"
  | returnOutside => "`return` outside function"
  | callStatement name => "Calling `" ++ name ++ "` as a statement is not supported"
  | expectedAssign name => "Expected `=` after `" ++ name ++ "`, instead got"
  | expectedStatement => "Expected a statement, instead got"
  | expectedCompound => "Expected `for`, `if` or `def`, instead got"
  | tooManyArguments count => "range() takes at most 3 arguments, got " ++ count.repr
  | duplicateParameter name => "Duplicate parameter `" ++ name ++ "` in function definition"
  | invalidString _ => "Invalid string literal"
  | unexpectedToken => "Unexpected token"
  | tooDeep => "expression nesting too deep"

/-- A rejected token: which production rejects it, why, and what had been read by then. -/
structure SyntaxError where
  scope : Production
  cause : SyntaxCause
  token : Token
  history : List Token
  deriving DecidableEq, Repr

def SyntaxError.diagnostic (e : SyntaxError) : Diagnostic :=
  ⟨e.scope.label, e.cause.message, some e.token, e.history⟩

namespace Parser

/-- How a parsing step fails. -/
inductive Failure where
  | rejected (e : SyntaxError)
  /-- A number that cannot be read. -/
  | unreadable (e : Number.ReadError)
  /-- Nesting beyond the limit. -/
  | tooDeep
  deriving DecidableEq, Repr

/-- What a parsing step works on: the tokens, how many function bodies are open, and the trace. -/
structure State where
  cursor : Cursor
  functionDepth : Nat
  log : Log

/-- A parsing step. -/
abbrev Parse := EStateM Failure State

/-- The next token, which stays where it is. -/
def peek : Parse Token := fun s => .ok s.cursor.peek s

/-- Takes the next token. -/
def next : Parse Token := fun s => .ok s.cursor.peek { s with cursor := s.cursor.next }

/-- Whether the next token is of one of the given kinds. -/
def looksAt (kinds : List Kind) : Parse Bool := fun s => .ok (kinds.contains s.cursor.peek.kind) s

/-- Fails at a token. -/
def reject {α : Type} (scope : Production) (cause : SyntaxCause) (token : Token) : Parse α :=
  fun s => .error (.rejected ⟨scope, cause, token, s.cursor.history⟩) s

/-- Takes the next token, which must be of the given kind. -/
def expect (scope : Production) (kind : Kind) : Parse Token := do
  let token ← next
  if token.kind = kind then return token
  reject scope (.expected kind) token

/-- Tells the trace that a production begins. -/
def enter (p : Production) : Parse Unit := fun s =>
  .ok () { s with log := s.log.note p.level ("Parser::" ++ p.label) }

/-- A bound on the repetitions that the remaining tokens allow, if each of them takes a token. -/
def patience : Parse Nat := fun s => .ok (s.cursor.remaining + 1) s

/-- Applies `step` as long as it gives a new value, at most `fuel` times. -/
def iterateFor {α : Type} (step : α → Parse (Option α)) : (fuel : Nat) → α → Parse α
  | 0, a => pure a
  | fuel + 1, a => do
    match ← step a with
    | none => return a
    | some b => iterateFor step fuel b

/-- Applies `step` as long as it gives a new value. -/
def iterate {α : Type} (step : α → Parse (Option α)) (a : α) : Parse α := do
  iterateFor step (← patience) a

/-- Collects what `item` gives until it gives nothing, at most `fuel` times. -/
def collectFor {α : Type} (item : Parse (Option α)) : (fuel : Nat) → Parse (List α)
  | 0 => pure []
  | fuel + 1 => do
    match ← item with
    | none => return []
    | some a => return a :: (← collectFor item fuel)

/-- Collects what `item` gives until it gives nothing. -/
def collect {α : Type} (item : Parse (Option α)) : Parse (List α) := do
  collectFor item (← patience)

/-- Runs a step inside a function body. The depth is restored however the step ends. -/
def inFunction {α : Type} (p : Parse α) : Parse α := fun s =>
  match p { s with functionDepth := s.functionDepth + 1 } with
  | .ok a s => .ok a { s with functionDepth := s.functionDepth - 1 }
  | .error e s => .error e { s with functionDepth := s.functionDepth - 1 }

end Parser

end TinyScript
