import TinyScript.Cli.Options
import TinyScript.Cli.Sink
import TinyScript.Interpreter
import TinyScript.Text.Utf8
import TinyScript.Tree.Export

/-!
# The command

Runs a program file, or prints or writes its tree. `execute` does this for the octets of the file
and says what is to be printed and written; `command` adds the file system, as far as the working
directory goes. A failure of the program is reported on the error stream with exit code 1, a command
line that is not well formed ends with exit code 2. Limits of the machine and files that cannot be
opened are not handled: they escape.
-/

namespace TinyScript.Cli

/-- What the command does not handle. -/
inductive Escape where
  | file (e : FileError)
  | encoding (r : Text.Utf8.Refusal)
  | numeral (e : Number.ReadError)
  | stop (s : Stop)

/-- How the command ends. -/
inductive Ending where
  | exit (code : Nat)
  | escaped (e : Escape)

/-- What executing a program leads to. -/
structure Execution where
  output : String := ""
  /-- The diagnostic for the error stream. -/
  complaint : String := ""
  /-- The text of the exported tree. -/
  emitted : Option String := none
  log : Log
  ending : Ending

/-- A failure of the program, told on the error stream. -/
def complain (d : Diagnostic) (output : String) (log : Log) : Execution :=
  { output, complaint := d.render ++ "\n", log, ending := .exit 1 }

/-- A failure with a diagnostic is told, any other escapes. -/
def failWith (f : Fault) (output : String) (log : Log) : Execution :=
  match f.diagnostic? with
  | some d => complain d output log
  | none => { output, log, ending := .escaped (.stop (.fault f)) }

/-- The step of indentation of an exported tree. -/
def emitStep : Nat := 2

def emitProgram (limit : Nat) (program : Block) (log : Log) : Execution :=
  match (Item.node (.stmt (.block program))).exportText limit (some emitStep) with
  | .ok text => { emitted := some text, log, ending := .exit 0 }
  | .error (.limit .nesting) => failWith (.script (.tooDeep "--emit-ast")) "" log
  | .error (.limit l) => failWith (.limit l) "" log
  | .error (.unsupported _) => failWith .unfinished "" log

def dumpProgram (limit : Nat) (program : Block) (log : Log) : Execution :=
  match Interpreter.dump limit program with
  | .ok text => { output := text, log, ending := .exit 0 }
  | .error f => failWith f "" log

def runBlock (g : Grant) (program : Block) (log : Log) : Execution :=
  match Interpreter.run g program (Interpreter.start log) with
  | .ok _ w => { output := w.output, log := w.log, ending := .exit 0 }
  | .error (.fault f) w => failWith f w.output w.log
  | .error s w => { output := w.output, log := w.log, ending := .escaped (.stop s) }

/-- Executes the text of a program. -/
def execute (l : Limits) (mode : Mode) (level : Nat) (source : String) : Execution :=
  match parseProgram l.nesting source ⟨level, #[]⟩ with
  | (.error e, log) =>
    match e, e.diagnostic? with
    | _, some d => complain d "" log
    | .unreadable r, none => { log, ending := .escaped (.numeral r) }
    | _, none => { log, ending := .exit 1 }
  | (.ok program, log) =>
    match mode with
    | .emit => emitProgram l.height program log
    | .dump => dumpProgram l.height program log
    | .run => runBlock l.grant program log

/-- What a command leaves behind. -/
structure Report where
  ending : Ending
  output : String := ""
  errors : String := ""
  directory : Directory

/-- The ending of the name of an exported tree. -/
def emitEnding : String := ".ast.json"

/-- Writes the exported tree beside its program and prints where it is. -/
def deliver (path : Path) (e : Execution) (errors : String) (d : Directory) : Report :=
  match e.emitted with
  | none => ⟨e.ending, e.output, errors ++ e.complaint, d⟩
  | some text =>
    let target := (path.addEnding emitEnding).text
    match d.openForWriting target with
    | .error f => ⟨.escaped (.file f), e.output, errors, d⟩
    | .ok (key, d) => ⟨e.ending, e.output ++ target ++ "\n", errors, d.put key text⟩

/-- Executes a program file that has been read. The trace is opened before the program is parsed. -/
def launch (l : Limits) (o : Options) (source : String) (d : Directory) : Report :=
  match Sink.start o.level o.debugFile d with
  | .error f => ⟨.escaped (.file f), "", "", d⟩
  | .ok (sink, d) =>
    let e := execute l o.mode o.level source
    let (errors, d) := sink.write e.log.text d
    deliver (.ofText o.program) e errors d

/-- Said about a program file that does not exist. -/
def missing (path : String) : String := "Error: file " ++ path ++ " not found\n"

/-- Carries out a command in a working directory. -/
def command (l : Limits) (argv : List String) (d : Directory) : Report :=
  match Options.parse? argv with
  | none => ⟨.exit 2, "", "", d⟩
  | some o =>
    let path := Path.ofText o.program
    match d.place path with
    | .file key =>
      match Text.Utf8.readText ((d.files.find? key).getD []) with
      | .error r => ⟨.escaped (.encoding r), "", "", d⟩
      | .ok source => launch l o source d
    | .directory => ⟨.escaped (.file (.isDirectory path.text)), "", "", d⟩
    | .vacant _ | .nowhere | .blocked => ⟨.exit 1, "", missing path.text, d⟩

end TinyScript.Cli
