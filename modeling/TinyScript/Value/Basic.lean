import TinyScript.Fault
import TinyScript.Text.Lines

/-!
# Asking values

The type of a value, its text, its truth and its integer. A foreign integer has none of these.
-/

namespace TinyScript.Value

/-- The fault of a foreign integer. It names the integer, which must therefore have a text. -/
def notValue (n : Int) : Fault := if Number.fits n then .notValue n else .limit .digits

/-- The type of a value. -/
def typeName : Value → Except Fault TypeName
  | int _ => .ok .integer
  | float _ => .ok .float
  | bool _ => .ok .boolean
  | str _ => .ok .string
  | foreign n => .error (notValue n)

/-- What a variable gives when it is read: a value of its own. -/
def copy : Value → Except Fault Value
  | foreign _ => .error .noPayload
  | v => .ok v

/-- The text that `print` shows. -/
def text : Value → String
  | bool b => if b then "True" else "False"
  | int n | foreign n => Number.intText n
  | float x => Number.floatText x
  | str s => s

/-- What keeps a value from being shown. -/
def textFault? : Value → Option Fault
  | int n => if Number.fits n then none else some (.limit .digits)
  | foreign n => some (notValue n)
  | bool _ | float _ | str _ => none

/-- Fails if the value cannot be shown. -/
def checkText (v : Value) : Except Fault Unit :=
  match v.textFault? with
  | some f => .error f
  | none => .ok ()

/-- The text of a value that can be shown. -/
def toText (v : Value) : Except Fault String := v.checkText.map fun _ => v.text

/-- The line that `print` writes: the texts of the values, with blanks between. -/
def printLine (vs : List Value) : Except Fault String :=
  (vs.mapM toText).map fun texts => Text.joinWith " " texts ++ "\n"

/-- Zero and the empty text count as false. -/
def toBool : Value → Except Fault Bool
  | bool b => .ok b
  | int n => .ok (n ≠ 0)
  | float x => .ok (x != 0.0)
  | str s => .ok (s ≠ "")
  | foreign n => .error (notValue n)

/-- The integer of an integer or a truth value. -/
def toInt (v : Value) : Except Fault Int :=
  match v with
  | bool b => .ok (if b then 1 else 0)
  | int n => .ok n
  | float _ | str _ | foreign _ => do throw (.script (.notInteger (← v.typeName)))

/-- A value increased by an integer. Only integers can be; a truth value is none. -/
def increment (amount : Int) (v : Value) : Except Fault Value :=
  match v with
  | int n => .ok (int (n + amount))
  | bool _ | float _ | str _ | foreign _ => do throw (.script (.notIncrementable (← v.typeName)))

end TinyScript.Value
