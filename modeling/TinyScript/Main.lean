import TinyScript.Cli

/-!
# The executable

Reads the program file, executes it and performs what the execution asks for.
-/

namespace TinyScript.Cli

/-- Tells on the error stream about something that the command does not handle. -/
def Escape.message : Escape → String
  | file e => e.message
  | encoding r => r.message
  | numeral e => e.message
  | stop (.fault f) => f.message
  | stop (.returned _) => "return"
  | stop .exhausted => "loop limit reached"

def Ending.code : Ending → UInt32
  | exit code => code.toUInt32
  | escaped _ => 1

/-- Performs an execution: the trace first, then what is printed and written. -/
def perform (o : Options) (path : Path) (e : Execution) : IO UInt32 := do
  let trace := e.log.text
  if 0 < o.level ∧ o.debugFile ≠ "" then IO.FS.writeFile o.debugFile trace
  else IO.eprint trace
  IO.print e.output
  if let some text := e.emitted then
    let target := (path.addEnding emitEnding).text
    IO.FS.writeFile target text
    IO.println target
  IO.eprint e.complaint
  if let .escaped x := e.ending then IO.eprintln x.message
  return e.ending.code

/-- Reads the program of a command line and performs it. -/
def start (o : Options) : IO UInt32 := do
  let path := Path.ofText o.program
  let octets ← try some <$> IO.FS.readBinFile path.text catch _ => pure none
  match octets with
  | none =>
    IO.eprint (missing path.text)
    return 1
  | some bytes =>
    match Text.Utf8.readText bytes.toList with
    | .error r =>
      IO.eprintln r.message
      return 1
    | .ok source => perform o path (execute Interpreter.limits o.mode o.level source)

end TinyScript.Cli

def main (args : List String) : IO UInt32 :=
  match TinyScript.Cli.Options.parse? args with
  | none => pure 2
  | some o => TinyScript.Cli.start o
