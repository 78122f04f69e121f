import TinyScript.Text.Digit

/-!
# Command line options

    [-v ...] [--debug-file PATH] [--dump-ast | --emit-ast] PROGRAM

Options and the program may come in any order. A long option may be shortened as long as only one
option begins that way, and its value may follow after an equals sign. Letters may be joined behind
one dash. Two dashes on their own end the options. A word that looks like a negative number, or that
has a blank in it, is not an option.
-/

namespace TinyScript.Cli

/-- What to do with a program. -/
inductive Mode where
  | run | dump | emit
  deriving DecidableEq, Repr

structure Options where
  program : String
  mode : Mode
  level : Nat
  debugFile : String
  deriving DecidableEq, Repr

/-- The options that exist. -/
inductive Flag where
  | help | verbose | debugFile | dump | emit
  deriving DecidableEq, Repr

namespace Flag

/-- The spellings of the options. -/
def spellings : List (String × Flag) :=
  [("-h", help), ("--help", help), ("-v", verbose), ("--debug-file", debugFile),
    ("--dump-ast", dump), ("--emit-ast", emit)]

def ofText? (text : List Char) : Option Flag :=
  (spellings.find? fun s => s.1.toList = text).map Prod.snd

/-- The options that begin in a given way. -/
def beginning (text : List Char) : List Flag :=
  (spellings.filter fun s => text.isPrefixOf s.1.toList).map Prod.snd

end Flag

/-- A word of the command line, by what it is for. -/
inductive Word where
  /-- Not an option. -/
  | plain (text : String)
  /-- Two dashes. -/
  | separator
  /-- An option with two dashes, perhaps with a value. -/
  | long (flag : Flag) (value : Option String)
  /-- A letter option, with what stands behind the letter. -/
  | short (flag : Flag) (rest : List Char)
  deriving DecidableEq, Repr

namespace Word

/-- Splits at the first equals sign. -/
def splitValue (cs : List Char) : List Char × Option String :=
  let name := cs.takeWhile (· ≠ '=')
  match cs.drop name.length with
  | [] => (name, none)
  | _ :: value => (name, some (String.ofList value))

/-- A dash and digits, of which some may stand before a point and some must stand at the end. -/
def isNegativeNumber : List Char → Bool
  | '-' :: cs =>
    let rest := cs.dropWhile Text.isDigit
    match rest with
    | [] => cs ≠ []
    | '.' :: fraction => fraction ≠ [] && fraction.all Text.isDigit
    | _ => false
  | _ => false

/-- A word that begins with a dash but names no option. -/
def unknown? (cs : List Char) : Option Word :=
  if isNegativeNumber cs || cs.contains ' ' then some (plain (String.ofList cs)) else none

/-- What a word before the separator is for; none for a word that cannot be used. -/
def classify? (text : String) : Option Word :=
  match text.toList with
  | '-' :: '-' :: cs =>
    let (name, value) := splitValue ('-' :: '-' :: cs)
    match Flag.ofText? name, Flag.beginning name with
    | some flag, _ => some (long flag value)
    | none, [flag] => some (long flag value)
    | none, [] => unknown? ('-' :: '-' :: cs)
    | none, _ => none
  | '-' :: c :: rest =>
    match Flag.ofText? ['-', c] with
    | some flag => some (short flag rest)
    | none => unknown? ('-' :: c :: rest)
  | _ => some (plain text)

/-- The words of a command line. After the separator every word is plain. -/
def classifyAll? : List String → Option (List Word)
  | [] => some []
  | text :: rest =>
    if text = "--" then some (separator :: rest.map plain)
    else do return (← classify? text) :: (← classifyAll? rest)

end Word

/-- What has been gathered from the command line so far. -/
structure Gathered where
  program : Option String := none
  dump : Bool := false
  emit : Bool := false
  level : Nat := 0
  debugFile : String := "debug.txt"
  deriving DecidableEq, Repr

namespace Gathered

/-- Letters joined behind one dash; only the letter for verbosity can be repeated. -/
def addLetters (g : Gathered) : List Char → Option Gathered
  | [] => some g
  | c :: cs => if c = 'v' then addLetters { g with level := g.level + 1 } cs else none

/-- The one program of the command line. -/
def addProgram (g : Gathered) (text : String) : Option Gathered :=
  if g.program.isSome then none else some { g with program := some text }

/-- Gathers words in order. A separator must stand beside the program. -/
def addAll (g : Gathered) : List Word → Option Gathered
  | [] => some g
  | .plain text :: .separator :: rest => do addAll (← g.addProgram text) rest
  | .plain text :: rest => do addAll (← g.addProgram text) rest
  | .separator :: .plain text :: rest => do addAll (← g.addProgram text) rest
  | .separator :: _ => none
  | .long .debugFile (some path) :: rest => addAll { g with debugFile := path } rest
  | .long .debugFile none :: .plain path :: rest => addAll { g with debugFile := path } rest
  | .long .dump none :: rest => addAll { g with dump := true } rest
  | .long .emit none :: rest => addAll { g with emit := true } rest
  | .long _ _ :: _ => none
  | .short .verbose letters :: rest => do addAll (← g.addLetters ('v' :: letters)) rest
  | .short _ _ :: _ => none

/-- A program is needed, and its tree is either printed or written, not both. -/
def finish (g : Gathered) : Option Options :=
  match g.program, g.dump, g.emit with
  | none, _, _ | some _, true, true => none
  | some program, true, false => some ⟨program, .dump, g.level, g.debugFile⟩
  | some program, false, true => some ⟨program, .emit, g.level, g.debugFile⟩
  | some program, false, false => some ⟨program, .run, g.level, g.debugFile⟩

end Gathered

namespace Options

/-- The options that a command line asks for; none if it is not well formed. -/
def parse? (argv : List String) : Option Options := do
  let words ← Word.classifyAll? argv
  let g ← Gathered.addAll {} words
  g.finish

end Options

end TinyScript.Cli
