import TinyScript.Token
import TinyScript.Token.Terminal

/-!
# Lexemes

A text is cut into lexemes from left to right, each taken by the first terminal that finds one.
Cutting stops at the end of the text or at a character with which no lexeme begins. It ends because
no lexeme is empty. Lexemes keep everything: what the language ignores is dropped only later.
-/

namespace TinyScript

/-- A piece of text, the class it belongs to, and its place. -/
structure Lexeme where
  terminal : Terminal
  text : List Char
  position : Position
  deriving DecidableEq, Repr

/-- The result of cutting a text: the lexemes, and the character that stopped the cutting, if one
did. -/
structure Cut where
  lexemes : List Lexeme
  stop : Option (Char × Position)
  deriving DecidableEq, Repr

namespace Cut

def cons (l : Lexeme) (c : Cut) : Cut := { c with lexemes := l :: c.lexemes }

/-- Cuts a text that begins at `p`. -/
def ofChars (p : Position) (cs : List Char) : Cut :=
  match cs with
  | [] => ⟨[], none⟩
  | c :: rest =>
    match _h : Terminal.first? (c :: rest) with
    | none => ⟨[], some (c, p)⟩
    | some (t, n) =>
      let text := (c :: rest).take n
      cons ⟨t, text, p⟩ (ofChars (p.after text) ((c :: rest).drop n))
termination_by cs.length
decreasing_by
  have := (Terminal.scan_of_first? _h).2
  simp only [List.length_drop, List.length_cons]
  omega

@[simp] theorem ofChars_nil (p : Position) : ofChars p [] = ⟨[], none⟩ := by
  rw [ofChars]

theorem ofChars_of_none {p : Position} {c : Char} {rest : List Char}
    (h : Terminal.first? (c :: rest) = none) : ofChars p (c :: rest) = ⟨[], some (c, p)⟩ := by
  rw [ofChars]
  split <;> simp_all

theorem ofChars_of_some {p : Position} {cs : List Char} {t : Terminal} {n : Nat}
    (h : Terminal.first? cs = some (t, n)) :
    ofChars p cs =
      cons ⟨t, cs.take n, p⟩ (ofChars (p.after (cs.take n)) (cs.drop n)) := by
  cases cs with
  | nil => simp at h
  | cons c rest =>
    rw [ofChars]
    split <;> simp_all

end Cut

end TinyScript
