import TinyScript.Env
import TinyScript.Trace

/-!
# Effects of a run

What statements act on: the environment, the text printed so far and the trace. A step either ends
normally or stops, and in both cases the world it reached is kept. Besides faults, a run stops at a
`return`, and when a loop uses up the passes that it was granted.
-/

namespace TinyScript

/-- What a run can change. -/
structure World where
  env : Env
  output : String := ""
  log : Log
  /-- Whether the environment reports to the log. -/
  traced : Bool := true

/-- Why a run stops before its end. -/
inductive Stop where
  | fault (f : Fault)
  | returned (v : Value)
  /-- A loop has used up its passes. -/
  | exhausted

/-- A step of a run. -/
abbrev Exec := EStateM Stop World

namespace Exec

/-- A computation that has no effect but may fail. -/
def ofExcept {α : Type} : Except Fault α → Exec α
  | .ok a => pure a
  | .error f => throw (.fault f)

/-- What the environment tells. -/
def ask {α : Type} (query : Env → Except Fault α) : Exec α := fun w =>
  match query w.env with
  | .ok a => .ok a w
  | .error f => .error (.fault f) w

/-- Changes the environment. -/
def change (f : Env → Env) : Exec Unit := fun w => .ok () { w with env := f w.env }

/-- Changes the environment, unless the change fails. -/
def tryChange (f : Env → Except Fault Env) : Exec Unit := fun w =>
  match f w.env with
  | .ok env => .ok () { w with env }
  | .error e => .error (.fault e) w

/-- Prints a text. -/
def print (text : String) : Exec Unit := fun w => .ok () { w with output := w.output ++ text }

/-- Offers a message to the log. -/
def note (level : Int) (text : Thunk String) : Exec Unit := fun w =>
  .ok () { w with log := w.log.note level text }

/-- Offers a message to the log on behalf of the environment. -/
def trace (level : Int) (text : Thunk String) : Exec Unit := fun w =>
  .ok () (if w.traced then { w with log := w.log.note level text } else w)

/-- Runs a step and then, however it ends, a change of the world. -/
def ensuring {α : Type} (p : Exec α) (change : World → World) : Exec α := fun w =>
  match p w with
  | .ok a w => .ok a (change w)
  | .error e w => .error e (change w)

/-- Runs `pass` as long as `test` holds, but at most `passes` times. -/
def repeatWhile (test : Exec Bool) (pass : Exec Unit) : (passes : Nat) → Exec Unit
  | 0 => do if ← test then throw .exhausted
  | passes + 1 => do
    if ← test then
      pass
      repeatWhile test pass passes

end Exec

end TinyScript
