import TinyScript.Text.Lines

/-!
# Paths

The path of a file, as its root and its parts. Empty parts and single dots say nothing and are left
out; double dots are kept, because what they mean depends on the directories.
-/

namespace TinyScript.Cli

/-- The parts of a text between slashes. -/
def splitParts : List Char → List (List Char)
  | [] => [[]]
  | c :: cs =>
    if c = '/' then [] :: splitParts cs
    else
      match splitParts cs with
      | [] => [[c]]
      | part :: parts => (c :: part) :: parts

structure Path where
  /-- Empty for a relative path, otherwise one or two slashes. -/
  root : String
  parts : List String
  deriving DecidableEq, Repr

namespace Path

/-- Exactly two slashes in front make a root of their own. -/
def rootOf (cs : List Char) : String :=
  match (cs.takeWhile (· = '/')).length with
  | 0 => ""
  | 2 => "//"
  | _ => "/"

def ofText (text : String) : Path where
  root := rootOf text.toList
  parts := ((splitParts text.toList).map String.ofList).filter fun p => p ≠ "" ∧ p ≠ "."

/-- A path as it is printed; the empty relative path is a dot. -/
def text (p : Path) : String :=
  if p.root = "" ∧ p.parts = [] then "." else p.root ++ Text.joinWith "/" p.parts

/-- The path of the neighbour whose name is longer by `ending`. -/
def addEnding (p : Path) (ending : String) : Path :=
  match p.parts.getLast? with
  | none => p
  | some name => { p with parts := p.parts.dropLast ++ [name ++ ending] }

end Path

end TinyScript.Cli
