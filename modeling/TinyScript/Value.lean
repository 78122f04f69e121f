/-!
# Values

What expressions evaluate to: integers without bound, floats, truth values and texts. A foreign
integer is none of these. It comes from outside the language, has no type there, and every operation
that asks for its type refuses it.
-/

namespace TinyScript

inductive Value where
  | int (n : Int)
  | float (x : Float)
  | bool (b : Bool)
  | str (s : String)
  | foreign (n : Int)
  deriving DecidableEq

namespace Value

/-- Whether the value belongs to the language. -/
def isProper : Value → Bool
  | foreign _ => false
  | _ => true

/-- The types of the language. -/
inductive TypeName where
  | integer | float | boolean | string
  deriving DecidableEq, Repr

def TypeName.text : TypeName → String
  | integer => "Integer"
  | float => "Float"
  | boolean => "Boolean"
  | string => "String"

end Value

end TinyScript
