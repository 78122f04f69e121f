/-!
# Kinds of tokens

A token is a keyword, a symbol, a name, a literal, or part of the layout. Keywords and symbols are
spelt in one way only, and every kind has a label under which diagnostics mention it. Tokens need
not come from a text, so a kind may also be one that the language does not know.
-/

namespace TinyScript

/-- The reserved words. -/
inductive Keyword where
  | printWord | ifWord | elifWord | elseWord | forWord | inWord | rangeWord | defWord | returnWord
  | andWord | orWord | notWord
  deriving DecidableEq, Repr

namespace Keyword

/-- How a keyword is spelt. -/
def text : Keyword → String
  | printWord => "print"
  | ifWord => "if"
  | elifWord => "elif"
  | elseWord => "else"
  | forWord => "for"
  | inWord => "in"
  | rangeWord => "range"
  | defWord => "def"
  | returnWord => "return"
  | andWord => "and"
  | orWord => "or"
  | notWord => "not"

/-- The name of a keyword in diagnostics. -/
def label : Keyword → String
  | printWord => "PRINT"
  | ifWord => "IF"
  | elifWord => "ELIF"
  | elseWord => "ELSE"
  | forWord => "FOR"
  | inWord => "IN"
  | rangeWord => "RANGE"
  | defWord => "DEF"
  | returnWord => "RETURN"
  | andWord => "AND"
  | orWord => "OR"
  | notWord => "NOT"

def all : List Keyword :=
  [printWord, ifWord, elifWord, elseWord, forWord, inWord, rangeWord, defWord, returnWord,
    andWord, orWord, notWord]

theorem mem_all (k : Keyword) : k ∈ all := by cases k <;> decide

/-- The keyword with a given spelling. -/
def ofText? (s : String) : Option Keyword := all.find? (·.text = s)

theorem text_of_ofText? {s : String} {k : Keyword} (h : ofText? s = some k) : k.text = s := by
  simpa using List.find?_some h

theorem ofText?_text (k : Keyword) : ofText? k.text = some k := by cases k <;> decide

end Keyword

/-- Operators and punctuation. -/
inductive Symbol where
  | eq | ge | le | ne | lt | gt | assign | plus | minus | star | slash | percent
  | lpar | rpar | comma | colon
  deriving DecidableEq, Repr

namespace Symbol

/-- How a symbol is spelt. -/
def chars : Symbol → List Char
  | eq => ['=', '=']
  | ge => ['>', '=']
  | le => ['<', '=']
  | ne => ['!', '=']
  | lt => ['<']
  | gt => ['>']
  | assign => ['=']
  | plus => ['+']
  | minus => ['-']
  | star => ['*']
  | slash => ['/']
  | percent => ['%']
  | lpar => ['(']
  | rpar => [')']
  | comma => [',']
  | colon => [':']

/-- The name of a symbol in diagnostics. -/
def label : Symbol → String
  | eq => "EQ"
  | ge => "GE"
  | le => "LE"
  | ne => "NE"
  | lt => "LT"
  | gt => "GT"
  | assign => "ASSIGN"
  | plus => "PLUS"
  | minus => "MINUS"
  | star => "STAR"
  | slash => "SLASH"
  | percent => "PERCENT"
  | lpar => "LPAR"
  | rpar => "RPAR"
  | comma => "COMMA"
  | colon => "COLON"

/-- All symbols, those of two characters first. -/
def all : List Symbol :=
  [eq, ge, le, ne, lt, gt, assign, plus, minus, star, slash, percent, lpar, rpar, comma, colon]

theorem mem_all (s : Symbol) : s ∈ all := by cases s <;> decide

end Symbol

/-- What a token is. -/
inductive Kind where
  | keyword (k : Keyword)
  | symbol (s : Symbol)
  | name
  | number
  | float
  | string
  | newline
  | indent
  | dedent
  | eof
  /-- A kind that the language does not know. -/
  | other (label : String)
  deriving DecidableEq, Repr

namespace Kind

/-- The name of a kind in diagnostics. -/
def label : Kind → String
  | keyword k => k.label
  | symbol s => s.label
  | name => "NAME"
  | number => "NUMBER"
  | float => "FLOAT"
  | string => "STRING"
  | newline => "NEWLINE"
  | indent => "INDENT"
  | dedent => "DEDENT"
  | eof => "EOF"
  | other l => l

/-- The kinds that the language knows. -/
def known : List Kind :=
  Keyword.all.map keyword ++ Symbol.all.map symbol ++
    [name, number, float, string, newline, indent, dedent, eof]

/-- The kind with a given label. -/
def ofLabel (l : String) : Kind := (known.find? (·.label = l)).getD (other l)

@[simp] theorem label_ofLabel (l : String) : (ofLabel l).label = l := by
  unfold ofLabel
  cases h : known.find? (·.label = l) with
  | none => rfl
  | some k => simpa using List.find?_some h

end Kind

end TinyScript
