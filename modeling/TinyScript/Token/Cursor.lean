import TinyScript.Token

/-!
# Token cursors

A cursor reads a list of tokens that ends with the end of the input. It looks at the next token,
steps over it, and takes back one step at a time: a second step back needs a step forward first.
Past the end it keeps giving the last token.
-/

namespace TinyScript

/-- A place in a non-empty sequence of tokens. The place may lie past the end. -/
structure Cursor where
  tokens : Array Token
  nonempty : 0 < tokens.size
  pos : Nat
  /-- Whether the last step may be taken back. -/
  canPushBack : Bool

namespace Cursor

/-- The tokens, with the end of the input added where the last of them is not it. -/
def terminated (ts : List Token) : List Token :=
  match ts.getLast? with
  | none => [Token.eofAt Position.start]
  | some last => if last.kind = .eof then ts else ts ++ [Token.eofAt last.position]

theorem terminated_ne_nil (ts : List Token) : terminated ts ≠ [] := by
  unfold terminated
  cases h : ts.getLast? with
  | none => simp
  | some last =>
    have : ts ≠ [] := by rintro rfl; simp at h
    dsimp only
    split <;> simp [this]

/-- A cursor before the first token. -/
def ofTokens (ts : List Token) : Cursor where
  tokens := (terminated ts).toArray
  nonempty := by simpa using List.length_pos_iff.2 (terminated_ne_nil ts)
  pos := 0
  canPushBack := false

/-- The next token. -/
def peek (c : Cursor) : Token :=
  have : min c.pos (c.tokens.size - 1) < c.tokens.size := by have := c.nonempty; omega
  c.tokens[min c.pos (c.tokens.size - 1)]

/-- Steps over the next token. -/
def next (c : Cursor) : Cursor := { c with pos := c.pos + 1, canPushBack := true }

/-- Takes the last step back, if it has not been taken back yet. -/
def pushBack? (c : Cursor) : Option Cursor :=
  if c.canPushBack then some { c with pos := c.pos - 1, canPushBack := false } else none

/-- The tokens that have been stepped over. -/
def history (c : Cursor) : List Token := c.tokens.toList.take c.pos

/-- How many tokens are left. -/
def remaining (c : Cursor) : Nat := c.tokens.size - c.pos

/-- Said when a step is taken back twice. -/
def pushBackMessage : String := "only one token of pushback is available"

@[simp] theorem tokens_next (c : Cursor) : c.next.tokens = c.tokens := rfl
@[simp] theorem pos_next (c : Cursor) : c.next.pos = c.pos + 1 := rfl
@[simp] theorem pos_ofTokens (ts : List Token) : (ofTokens ts).pos = 0 := rfl

end Cursor

end TinyScript
