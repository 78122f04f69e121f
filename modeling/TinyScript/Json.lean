import TinyScript.Number.Text
import TinyScript.Text.Lines
import TinyScript.Text.Quoted

/-!
# JSON

JSON values whose objects keep the order of their members, and their text in two layouts: on one
line, with a blank after commas and colons, and over several lines with a given step of indentation.
Numbers are integers without bound or floats; the special floats are written by name.
-/

namespace TinyScript

inductive Json where
  | null
  | bool (b : Bool)
  | int (n : Int)
  | float (x : Float)
  | str (s : String)
  | arr (items : List Json)
  | obj (members : List (String × Json))

namespace Json

open Text (hexText joinWith)

/-- One character inside a JSON string: the quotation mark, the backslash and the controls are
escaped, and everything else stands for itself. -/
def escape (c : Char) : List Char :=
  if c = '"' then ['\\', '"']
  else if c = '\\' then ['\\', '\\']
  else if c = '\n' then ['\\', 'n']
  else if c = '\r' then ['\\', 'r']
  else if c = '\t' then ['\\', 't']
  else if c = '\x08' then ['\\', 'b']
  else if c = '\x0c' then ['\\', 'f']
  else if c.toNat < 0x20 then '\\' :: 'u' :: hexText 4 c.toNat
  else [c]

/-- A text between quotation marks. -/
def quoted (s : String) : String := String.ofList ('"' :: (s.toList.flatMap escape ++ ['"']))

mutual

/-- The value on one line. -/
def compact : Json → String
  | null => "null"
  | bool b => if b then "true" else "false"
  | int n => Number.intText n
  | float x => Number.exported.text x
  | str s => quoted s
  | arr items => "[" ++ joinWith ", " (compactItems items) ++ "]"
  | obj members => "\x7b" ++ joinWith ", " (compactMembers members) ++ "\x7d"

def compactItems : List Json → List String
  | [] => []
  | j :: js => j.compact :: compactItems js

def compactMembers : List (String × Json) → List String
  | [] => []
  | (key, j) :: js => (quoted key ++ ": " ++ j.compact) :: compactMembers js

end

/-- A line break and the indentation of the next line. -/
def newline (step depth : Nat) : String := String.ofList ('\n' :: List.replicate (step * depth) ' ')

/-- Elements between brackets, each on its own line. -/
def spread (step depth : Nat) (left right : String) (items : List String) : String :=
  if items = [] then left ++ right
  else
    left ++ newline step (depth + 1) ++ joinWith ("," ++ newline step (depth + 1)) items ++
      newline step depth ++ right

mutual

/-- The value over several lines, from a given depth on. -/
def pretty (step depth : Nat) : Json → String
  | arr items => spread step depth "[" "]" (prettyItems step (depth + 1) items)
  | obj members => spread step depth "\x7b" "\x7d" (prettyMembers step (depth + 1) members)
  | null => "null"
  | bool b => if b then "true" else "false"
  | int n => Number.intText n
  | float x => Number.exported.text x
  | str s => quoted s

def prettyItems (step depth : Nat) : List Json → List String
  | [] => []
  | j :: js => j.pretty step depth :: prettyItems step depth js

def prettyMembers (step depth : Nat) : List (String × Json) → List String
  | [] => []
  | (key, j) :: js => (quoted key ++ ": " ++ j.pretty step depth) :: prettyMembers step depth js

end

mutual

/-- Whether every integer in the value keeps to the limit on digits. -/
def writable : Json → Bool
  | int n => Number.fits n
  | null | bool _ | float _ | str _ => true
  | arr items => allWritable items
  | obj members => membersWritable members

def allWritable : List Json → Bool
  | [] => true
  | j :: js => j.writable && allWritable js

def membersWritable : List (String × Json) → Bool
  | [] => true
  | (_, j) :: js => j.writable && membersWritable js

end

end Json

end TinyScript
