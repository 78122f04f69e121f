import TinyScript.Parser.Basic
import TinyScript.Tree.Expr

/-!
# The grammar of expressions

    test_list    = test { "," test }
    test         = or_test
    or_test      = and_test { "or" and_test }
    and_test     = not_test { "and" not_test }
    not_test     = "not" not_test | comparison
    comparison   = arith_expr { ("==" | "!=" | "<" | ">" | "<=" | ">=") arith_expr }
    arith_expr   = term { ("+" | "-") term }
    term         = factor { ("*" | "/" | "%") factor }
    factor       = "-" factor | atom_or_call
    atom_or_call = NAME "(" [ test_list ] ")" | atom
    atom         = NAME | NUMBER | FLOAT | STRING | "(" test ")"

Operators of one level group to the left. Each production is written over `nested`, the parser of
the expressions inside parentheses, and `room`, the number of one-operand operators that may still
be stacked. `test` ties the knot: the expressions inside parentheses have less room.
-/

namespace TinyScript.Parser

/-- Operands of one level, joined by its operators from left to right. -/
def leftChain (ops : List Kind) (join : String → Expr → Expr → Expr) (operand : Parse Expr) :
    Parse Expr := do
  let first ← operand
  iterate (fun left => do
    if ← looksAt ops then
      let op ← next
      let right ← operand
      return some (join op.text left right)
    else return none) first

/-- Expressions separated by commas, at least one. -/
def testList (nested : Parse Expr) : Parse (List Expr) := do
  enter .testList
  let first ← nested
  let others ← collect do
    if ← looksAt [.symbol .comma] then
      let _ ← next
      let e ← nested
      return some e
    else return none
  return first :: others

/-- The value of a numeral. -/
def number (token : Token) : Parse Expr :=
  match Number.readInt token.text with
  | .ok n => pure (.int n)
  | .error e => throw (.unreadable e)

def float (token : Token) : Parse Expr :=
  match Number.readFloat token.text with
  | .ok x => pure (.float x)
  | .error e => throw (.unreadable e)

/-- The text that a string literal stands for. -/
def string (token : Token) : Parse Expr :=
  match Text.Literal.decode token.text.toList with
  | .ok cs => pure (.str (String.ofList cs))
  | .error reason => reject .atom (.invalidString reason) token

def atom (nested : Parse Expr) : Parse Expr := do
  enter .atom
  let token ← next
  match token.kind with
  | .name => return .var token.text
  | .number => number token
  | .float => float token
  | .string => string token
  | .symbol .lpar =>
    let e ← nested
    let _ ← expect .atom (.symbol .rpar)
    return e
  | _ => reject .atom .unexpectedToken token

/-- The arguments of a call, whose name has been read. -/
def call (nested : Parse Expr) (name : String) : Parse Expr := do
  enter .call
  let _ ← expect .call (.symbol .lpar)
  let args ← if ← looksAt [.symbol .rpar] then pure [] else testList nested
  let _ ← expect .call (.symbol .rpar)
  return .call name args

/-- Only a bare name directly before a parenthesis is called. -/
def atomOrCall (nested : Parse Expr) : Parse Expr := do
  enter .atomOrCall
  let first ← peek
  let e ← atom nested
  if first.kind = .name then
    if ← looksAt [.symbol .lpar] then return ← call nested first.text
  return e

def factor (nested : Parse Expr) : (room : Nat) → Parse Expr
  | 0 => throw .tooDeep
  | room + 1 => do
    enter .factor
    if ← looksAt [.symbol .minus] then
      let op ← next
      let e ← factor nested room
      return .arithUnary op.text e
    else atomOrCall nested

def term (nested : Parse Expr) (room : Nat) : Parse Expr := do
  enter .term
  leftChain [.symbol .star, .symbol .slash, .symbol .percent] .arith (factor nested room)

def arithExpr (nested : Parse Expr) (room : Nat) : Parse Expr := do
  enter .arithExpr
  leftChain [.symbol .plus, .symbol .minus] .arith (term nested room)

/-- The comparison operators. -/
def comparisonKinds : List Kind :=
  [.symbol .eq, .symbol .ne, .symbol .lt, .symbol .gt, .symbol .le, .symbol .ge]

def comparison (nested : Parse Expr) (room : Nat) : Parse Expr := do
  enter .comparison
  leftChain comparisonKinds .compare (arithExpr nested room)

def notTest (nested : Parse Expr) : (room : Nat) → Parse Expr
  | 0 => throw .tooDeep
  | room + 1 => do
    enter .notTest
    if ← looksAt [.keyword .notWord] then
      let op ← next
      let e ← notTest nested room
      return .logicUnary op.text e
    else comparison nested room

def andTest (nested : Parse Expr) (room : Nat) : Parse Expr := do
  enter .andTest
  leftChain [.keyword .andWord] .logic (notTest nested room)

def orTest (nested : Parse Expr) (room : Nat) : Parse Expr := do
  enter .orTest
  leftChain [.keyword .orWord] .logic (andTest nested room)

/-- An expression, nested at most `room` deep. -/
def test : (room : Nat) → Parse Expr
  | 0 => throw .tooDeep
  | room + 1 => do
    enter .test
    orTest (test room) room

end TinyScript.Parser
