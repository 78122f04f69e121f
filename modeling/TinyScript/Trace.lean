/-!
# Trace

A log of what the program does, in levels of detail: 1 for the start and end of a run, 2 for
statements and bindings, 3 for the parsing of statements and for branches, 4 for the parsing of
expressions. A log takes the messages whose level does not exceed its own; the others leave it as
it is.
-/

namespace TinyScript

/-- A message and its level of detail. -/
structure TraceEntry where
  level : Int
  text : String
  deriving DecidableEq, Repr

/-- The messages taken so far by a log of a given level. -/
structure Log where
  level : Int
  entries : Array TraceEntry := #[]
  deriving DecidableEq, Repr

namespace Log

def enabled (log : Log) (level : Int) : Bool := level ≤ log.level

/-- Offers a message to the log. The message is made up only if the log takes it. -/
def note (log : Log) (level : Int) (text : Thunk String) : Log :=
  if log.enabled level then { log with entries := log.entries.push ⟨level, text.get⟩ } else log

/-- The messages, each on a line. -/
def text (log : Log) : String := log.entries.foldl (fun acc e => acc ++ e.text ++ "\n") ""

@[simp] theorem level_note (log : Log) (level : Int) (text : Thunk String) :
    (log.note level text).level = log.level := by
  unfold note
  split <;> rfl

theorem note_of_le {log : Log} {level : Int} (h : level ≤ log.level) (text : Thunk String) :
    (log.note level text).entries = log.entries.push ⟨level, text.get⟩ := by
  simp [note, enabled, h]

theorem note_of_lt {log : Log} {level : Int} (h : log.level < level) (text : Thunk String) :
    log.note level text = log := by
  simp [note, enabled, Int.not_le.2 h]

end Log

end TinyScript
