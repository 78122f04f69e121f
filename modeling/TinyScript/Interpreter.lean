import TinyScript.Eval.Stmt
import TinyScript.Parser
import TinyScript.Tree.Outline

/-!
# Running programs

A run notes its beginning and its end in the log, however it ends, and reports nesting beyond the
limit as a fault of the script. How deep and how high things may be is up to the host: its `Limits`
are parameters throughout, and only the executable sets them.
-/

namespace TinyScript

/-- The limits of the host. -/
structure Limits where
  /-- How deep the phrases of a text may be nested. -/
  nesting : Nat
  /-- What runs are granted. -/
  grant : Grant
  /-- How high a tree may be to be shown or exported. -/
  height : Nat
  deriving DecidableEq, Repr

namespace Interpreter

/-- How deep the expressions of a program may be descended into. -/
def maxDepth : Nat := 1000

/-- What runs are granted. The number of passes is a bound that no run lives to reach. -/
def grant : Grant := ⟨maxDepth, 0x4000000000000000⟩

/-- The limits that the executable sets, beyond those of ordinary programs. -/
def limits : Limits where
  nesting := 200
  grant := grant
  height := 1000

/-- Reports nesting beyond the limit in the name of `scope`. -/
def reportDepth {α : Type} (scope : String) (p : Exec α) : Exec α := fun w =>
  match p w with
  | .error (.fault (.limit .nesting)) w => .error (.fault (.script (.tooDeep scope))) w
  | r => r

/-- Runs a program. -/
def run (g : Grant) (program : Block) : Exec Unit := do
  Exec.note 1 ("run: " ++ program.length.repr ++ " top-level statements")
  Exec.ensuring (reportDepth "Interpreter.run" (Stmt.execAll g program))
    fun w => { w with log := w.log.note 1 "run: done" }

/-- The outline of a program no higher than `limit`, as a line to print. -/
def dump (limit : Nat) (program : Block) : Except Fault String :=
  match (Node.stmt (.block program)).describe limit with
  | .ok text => .ok (text ++ "\n")
  | .error (.limit .nesting) => .error (.script (.tooDeep "Interpreter.dump"))
  | .error f => .error f

/-- The world in which a program starts: nothing bound, nothing printed. -/
def start (log : Log) : World := { env := .empty, log := log }

end Interpreter

/-- How running a text ended. -/
inductive RunEnd where
  | finished
  | unparsed (e : ParseError)
  | stopped (s : Stop)

/-- Parses a text and runs the program. -/
def runProgram (l : Limits) (source : String) (w : World) : RunEnd × World :=
  match parseProgram l.nesting source w.log with
  | (.error e, log) => (.unparsed e, { w with log })
  | (.ok program, log) =>
    match Interpreter.run l.grant program { w with log } with
    | .ok _ w => (.finished, w)
    | .error s w => (.stopped s, w)

end TinyScript
