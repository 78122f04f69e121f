import TinyScript.Eval.Expr
import TinyScript.Eval.World

/-!
# Counted loops

A loop counts from `start` towards `stop` by `step`. It goes up if `start` lies below `stop` and the
step is positive, down if `start` lies above and the step is negative, makes no pass if they are
equal, and is refused otherwise. Its variable must be unbound before the loop, is advanced in place
after each pass, and is unbound again after the loop, however the loop ends.
-/

namespace TinyScript

/-- The numbers between which a loop counts. -/
structure Bounds where
  start : Int
  stop : Option Int
  step : Int
  deriving DecidableEq, Repr

namespace Bounds

/-- One argument is the end, two are start and end, and a third is the step. -/
def ofList : List Int → Bounds
  | [] => ⟨0, none, 1⟩
  | [stop] => ⟨0, some stop, 1⟩
  | [start, stop] => ⟨start, some stop, 1⟩
  | start :: stop :: step :: _ => ⟨start, some stop, step⟩

end Bounds

/-- Which way a loop goes. -/
inductive Direction where
  | up | down | nowhere
  deriving DecidableEq, Repr

namespace Direction

/-- The way from `start` to `stop` by `step`; none if the step does not lead there. -/
def of? (start stop step : Int) : Option Direction :=
  if stop < start ∧ step < 0 then some down
  else if start < stop ∧ 1 ≤ step then some up
  else if start = stop then some nowhere
  else none

/-- Whether a loop that stands at `n` has another pass to make. -/
def continues : Direction → (n stop : Int) → Bool
  | up, n, stop => n < stop
  | down, n, stop => stop < n
  | nowhere, _, _ => false

end Direction

namespace Loop

/-- The bounds of a loop. Each argument is evaluated and must be an integer before the next one is
looked at. -/
def bounds (env : Env) (room : Nat) (args : List Expr) : Except Fault Bounds :=
  if maxArguments < args.length then .error (.loop (.tooManyArguments args.length))
  else (args.mapM (Expr.evalInt env room)).map Bounds.ofList

/-- The trace shows the bounds of a loop, so they must keep to the limit on digits. -/
def checkBounds (start stop step : Int) : Except Fault Unit :=
  if [start, stop, step].all Number.fits then .ok () else .error (.limit .digits)

/-- What the trace says about a loop. -/
def headline (x : String) (start stop step : Int) : String :=
  "for " ++ x ++ ": start=" ++ Number.intText start ++ " end=" ++ Number.intText stop ++
    " step=" ++ Number.intText step

/-- Whether the loop variable allows another pass. -/
def test (x : String) (direction : Direction) (stop : Int) : Exec Bool := do
  let n ← Exec.ask fun env => do (← env.get x).toInt
  return direction.continues n stop

/-- The passes of a loop whose variable is bound. -/
def run (x : String) (start stop step : Int) (pass : Exec Unit) (passes : Nat) : Exec Unit :=
  match Direction.of? start stop step with
  | none => throw (.fault (.loop (.badRange start stop step)))
  | some .nowhere => pure ()
  | some direction =>
    Exec.repeatWhile (test x direction stop) (do
      pass
      Exec.tryChange (·.increment x step)) passes

/-- What a loop does before its first pass: it finds its bounds and binds its variable. -/
def enter (room : Nat) (x : String) (args : List Expr) : Exec (Bounds × Int) := do
  let bounds ← Exec.ask fun env => Loop.bounds env room args
  if (← get).env.exists? x then throw (.fault (.loop (.variableTaken x)))
  match bounds.stop with
  | none => throw (.fault (.loop .missingEnd))
  | some stop =>
    Exec.ofExcept (checkBounds bounds.start stop bounds.step)
    Exec.trace 2 (headline x bounds.start stop bounds.step)
    Exec.tryChange (·.create x bounds.start)
    return (bounds, stop)

/-- What is left of a loop once its variable is bound. -/
def passes (x : String) (b : Bounds) (stop : Int) (pass : Exec Unit) (passes : Nat) : Exec Unit :=
  Exec.ensuring (run x b.start stop b.step pass passes) fun w => { w with env := w.env.erase x }

end Loop

/-- A whole loop over the variable `x`, whose passes run `pass`. -/
def runLoop (room passes : Nat) (x : String) (args : List Expr) (pass : Exec Unit) : Exec Unit := do
  let (bounds, stop) ← Loop.enter room x args
  Loop.passes x bounds stop pass passes

end TinyScript
