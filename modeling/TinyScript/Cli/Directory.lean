import TinyScript.Cli.Path
import TinyScript.Table
import TinyScript.Text.Quoted

/-!
# Files

The files below a working directory, by their paths from it. A directory is there when a file lies
below it. What lies outside the working directory is not known, and names there lead nowhere.
-/

namespace TinyScript.Cli

/-- Why a file cannot be opened. -/
inductive FileError where
  | notFound (path : String)
  | notDirectory (path : String)
  | isDirectory (path : String)
  deriving DecidableEq, Repr

def FileError.message : FileError → String
  | notFound path => "[Errno 2] No such file or directory: " ++ Text.quote path
  | notDirectory path => "[Errno 20] Not a directory: " ++ Text.quote path
  | isDirectory path => "[Errno 21] Is a directory: " ++ Text.quote path

/-- The octets of the files below a working directory. -/
structure Directory where
  files : Table (List UInt8)

/-- What a path leads to. -/
inductive Place where
  | file (key : String)
  | directory
  /-- A name that is free, in a directory that exists. -/
  | vacant (key : String)
  /-- A directory on the way does not exist. -/
  | nowhere
  /-- A file stands where the path needs a directory. -/
  | blocked
  deriving DecidableEq, Repr

namespace Directory

/-- Whether some file lies below the path `key`. -/
def hasDirectory (d : Directory) (key : String) : Bool :=
  d.files.entries.any fun (path, _) => (key ++ "/").toList.isPrefixOf path.toList

/-- The path from the working directory to the innermost of the open directories. -/
def key (here : List String) : String := Text.joinWith "/" here.reverse

/-- What lies outside is known only by the way up. -/
def outside (parts : List String) : Place :=
  if parts.all fun p => p = "" || p = "." || p = ".." then .directory else .nowhere

/-- Follows the parts of a path from the directory `here`, which lists the open directories with the
innermost first. -/
def follow (d : Directory) (here : List String) : List String → Place
  | [] => .directory
  | part :: rest =>
    if part = "" ∨ part = "." then follow d here rest
    else if part = ".." then
      match here with
      | [] => outside rest
      | _ :: up => follow d up rest
    else
      let path := key (part :: here)
      if d.files.contains path then (if rest = [] then .file path else .blocked)
      else if d.hasDirectory path then follow d (part :: here) rest
      else if rest = [] then .vacant path
      else .nowhere

/-- What a path leads to. -/
def place (d : Directory) (path : Path) : Place :=
  if path.root = "" then d.follow [] path.parts else outside path.parts

/-- Gives a file new content. -/
def put (d : Directory) (key : String) (text : String) : Directory :=
  ⟨d.files.insert key text.toUTF8.toList⟩

/-- Opens a file for writing and empties it. A slash at the end asks for a directory. -/
def openForWriting (d : Directory) (path : String) : Except FileError (String × Directory) :=
  match d.place (.ofText path) with
  | .nowhere => .error (.notFound path)
  | .blocked => .error (.notDirectory path)
  | .directory => .error (.isDirectory path)
  | .file key | .vacant key =>
    if path.toList.getLast? = some '/' then .error (.isDirectory path) else .ok (key, d.put key "")

/-- Adds a text at the end of a file. -/
def append (d : Directory) (key : String) (text : String) : Directory :=
  ⟨d.files.insert key ((d.files.find? key).getD [] ++ text.toUTF8.toList)⟩

end Directory

end TinyScript.Cli
