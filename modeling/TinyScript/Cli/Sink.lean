import TinyScript.Cli.Directory

/-!
# Where the trace goes

The trace is written to a file, which is opened only if there is a trace at all, or else to the
error stream. A closed trace goes to the error stream too.
-/

namespace TinyScript.Cli

structure Sink where
  level : Int
  /-- The open file, by its path in the directory. -/
  file : Option String
  deriving DecidableEq, Repr

namespace Sink

/-- Opens a trace of a given level. Without a path, and at level zero or below, no file is
opened. -/
def start (level : Int) (path : String) (d : Directory) : Except FileError (Sink × Directory) :=
  if 0 < level ∧ path ≠ "" then
    (d.openForWriting path).map fun (key, d) => (⟨level, some key⟩, d)
  else .ok (⟨level, none⟩, d)

def enabled (s : Sink) (level : Int) : Bool := level ≤ s.level

/-- Writes a text to where the trace goes. The result is what goes to the error stream, and the
directory. -/
def write (s : Sink) (text : String) (d : Directory) : String × Directory :=
  match s.file with
  | some key => ("", d.append key text)
  | none => (text, d)

/-- Writes a message on a line, if its level does not exceed that of the trace. -/
def note (s : Sink) (level : Int) (text : String) (d : Directory) : String × Directory :=
  if s.enabled level then s.write (text ++ "\n") d else ("", d)

def close (s : Sink) : Sink := { s with file := none }

end Sink

end TinyScript.Cli
