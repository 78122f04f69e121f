import TinyScript.Text.Lines
import TinyScript.Token

/-!
# Diagnostics

What the program tells about a failure: the scope that failed, a message, the token at fault where
one is known, and the tokens that had been read by then.
-/

namespace TinyScript

structure Diagnostic where
  scope : String
  message : String
  token : Option Token
  history : List Token
  deriving DecidableEq, Repr

namespace Diagnostic

/-- The diagnostic in one line. -/
def headline (d : Diagnostic) : String := d.scope ++ ": " ++ d.message

/-- A token on a line of its own. -/
def tokenLine (t : Token) : String := "    " ++ t.describe

/-- The whole diagnostic, line by line. -/
def lines (d : Diagnostic) : List String :=
  let token := d.token.toList.map tokenLine
  let history :=
    if d.history = [] then []
    else
      "" :: "The following is a list of tokens that have been identified up to this point." ::
        d.history.map tokenLine
  (d.scope ++ " " ++ d.message) :: (token ++ history)

def render (d : Diagnostic) : String := Text.joinWith "\n" d.lines

end Diagnostic

end TinyScript
