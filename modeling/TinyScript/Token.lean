import TinyScript.Text.Quoted
import TinyScript.Token.Kind

/-!
# Tokens

A token has a kind, the text it was read from, and the place where that text begins.
-/

namespace TinyScript

/-- A place in a text. Lines and columns count from one; columns count characters. The place of a
token made by hand may be any pair of integers. -/
structure Position where
  line : Int
  column : Int
  deriving DecidableEq, Repr

namespace Position

/-- The beginning of a text. -/
def start : Position := ⟨1, 1⟩

/-- The place after a character. -/
def next (p : Position) (c : Char) : Position :=
  if c = '\n' then ⟨p.line + 1, 1⟩ else ⟨p.line, p.column + 1⟩

/-- The place after a piece of text. -/
def after (p : Position) (cs : List Char) : Position := cs.foldl next p

@[simp] theorem after_nil (p : Position) : p.after [] = p := rfl

theorem after_append (p : Position) (cs ds : List Char) :
    p.after (cs ++ ds) = (p.after cs).after ds := List.foldl_append

/-- A place as line and column with a colon between. -/
def text (p : Position) : String := p.line.repr ++ ":" ++ p.column.repr

end Position

/-- A token of a text, or one made by hand. -/
structure Token where
  kind : Kind
  text : String
  position : Position
  deriving DecidableEq, Repr

namespace Token

/-- The end of the input, at a given place. -/
def eofAt (p : Position) : Token := ⟨.eof, "", p⟩

/-- A token as diagnostics show it. -/
def describe (t : Token) : String :=
  "Token(" ++ t.kind.label ++ ", " ++ Text.quote t.text ++ ", line=" ++ t.position.line.repr ++
    ", col=" ++ t.position.column.repr ++ ")"

/-- Where the last token of a list stands; an empty list stands at the beginning. -/
def lastPosition (ts : List Token) : Position :=
  (ts.getLast?.map Token.position).getD Position.start

end Token

end TinyScript
