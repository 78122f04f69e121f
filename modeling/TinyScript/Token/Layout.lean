import TinyScript.Token.Lexeme

/-!
# Layout

Blocks are marked by indentation. Every line end carries the margin of the line that follows it; a
wider margin than that of the innermost open block opens a block, a narrower one closes blocks, and
must then meet the margin of one that is still open. The open blocks are kept as the list of their
widths, innermost first; the outermost level, of width zero, is not listed.

`tokenize` is the whole way from a text to its tokens.
-/

namespace TinyScript

namespace Layout

/-- A tab counts as so many blanks. -/
def tabWidth : Nat := 8

/-- The margin that a line end leaves in front of the next line. -/
def margin (text : List Char) : List Char :=
  (text.reverse.takeWhile (· ≠ '\n')).reverse

/-- The width of a margin. -/
def width (margin : List Char) : Nat :=
  margin.count ' ' + tabWidth * margin.count '\t'

/-- The width of the innermost open level. -/
def top (levels : List Nat) : Nat := levels.headD 0

/-- A margin that meets no open level. -/
structure Mismatch where
  width : Nat
  expected : Nat
  deriving DecidableEq, Repr

/-- The kinds that a margin puts into the token list, and the levels that are open after it. -/
def shift (levels : List Nat) (w : Nat) : List Kind × Except Mismatch (List Nat) :=
  if top levels < w then ([.indent], .ok (w :: levels))
  else
    let kept := levels.dropWhile (w < ·)
    let closed := List.replicate (levels.takeWhile (w < ·)).length Kind.dedent
    (closed, if top kept = w then .ok kept else .error ⟨w, top kept⟩)

end Layout

namespace Lexeme

/-- The kind of token that a lexeme makes; none for what the language ignores. -/
def kind? (l : Lexeme) : Option Kind :=
  match l.terminal with
  | .float => some .float
  | .string => some .string
  | .newline => some .newline
  | .continuation => none
  | .name =>
    match Keyword.ofText? (String.ofList l.text) with
    | some k => some (.keyword k)
    | none => some .name
  | .blank => none
  | .number => some .number
  | .symbol s => some (.symbol s)

end Lexeme

namespace Layout

/-- The tokens of one lexeme, and the levels that are open after it or the margin that met none.
Tokens for indentation carry the margin, and the place of the line end before it. -/
def place (levels : List Nat) (l : Lexeme) : List Token × Except Mismatch (List Nat) :=
  match l.kind? with
  | none => ([], .ok levels)
  | some kind =>
    let token : Token := ⟨kind, String.ofList l.text, l.position⟩
    if kind = .newline then
      let space := margin l.text
      let (kinds, outcome) := shift levels (width space)
      (token :: kinds.map fun k => ⟨k, String.ofList space, l.position⟩, outcome)
    else ([token], .ok levels)

/-- The tokens of a list of lexemes, and the levels open at their end or the margin that met
none. -/
def arrange (levels : List Nat) : List Lexeme → List Token × Except Mismatch (List Nat)
  | [] => ([], .ok levels)
  | l :: ls =>
    match place levels l with
    | (tokens, .error e) => (tokens, .error e)
    | (tokens, .ok levels) =>
      let (others, final) := arrange levels ls
      (tokens ++ others, final)

theorem arrange_cons_of_error {levels : List Nat} {l : Lexeme} {ls : List Lexeme} {e : Mismatch}
    (h : (place levels l).2 = .error e) :
    arrange levels (l :: ls) = ((place levels l).1, .error e) := by
  rw [arrange]
  generalize place levels l = placed at h ⊢
  obtain ⟨tokens, outcome⟩ := placed
  cases h
  rfl

theorem arrange_cons_of_ok {levels levels' : List Nat} {l : Lexeme} {ls : List Lexeme}
    (h : (place levels l).2 = .ok levels') :
    arrange levels (l :: ls) =
      ((place levels l).1 ++ (arrange levels' ls).1, (arrange levels' ls).2) := by
  rw [arrange]
  generalize place levels l = placed at h ⊢
  obtain ⟨tokens, outcome⟩ := placed
  cases h
  rfl

end Layout

/-- Why a text has no tokens. -/
inductive LexicalCause where
  | unexpected (c : Char) (p : Position)
  | mismatch (e : Layout.Mismatch)
  deriving DecidableEq, Repr

def LexicalCause.message : LexicalCause → String
  | .unexpected c p =>
    "unexpected character " ++ Text.quote (String.singleton c) ++ " at " ++ p.text
  | .mismatch e =>
    "Unexpected dedent to column " ++ e.width.repr ++ ". Expected dedent to " ++ e.expected.repr

/-- A text that cannot be cut into tokens: the cause, and the tokens before it. -/
structure LexicalError where
  cause : LexicalCause
  history : List Token
  deriving DecidableEq, Repr

namespace Source

/-- Whether the last line of a text is continued: a backslash stands before blanks and line ends. -/
def dangling (cs : List Char) : Bool :=
  ((cs.reverse.dropWhile fun c => c = '\r' || c = '\n').dropWhile Terminal.isBlank).head? =
    some '\\'

/-- A text whose last line is ended, also when a continuation takes its line end. -/
def padded (cs : List Char) : List Char :=
  let cs := if cs.getLast? = some '\n' then cs else cs ++ ['\n']
  if dangling cs then cs ++ ['\n'] else cs

end Source

/-- The tokens of a text, the end of the input included. -/
def tokenize (source : String) : Except LexicalError (List Token) :=
  let cut := Cut.ofChars Position.start (Source.padded source.toList)
  let (tokens, outcome) := Layout.arrange [] cut.lexemes
  match outcome, cut.stop with
  | .error e, _ => .error ⟨.mismatch e, tokens⟩
  | .ok _, some (c, p) => .error ⟨.unexpected c p, tokens⟩
  | .ok levels, none =>
    let last := Token.lastPosition tokens
    .ok (tokens ++ levels.map (fun _ => ⟨.dedent, "", last⟩) ++ [Token.eofAt last])

end TinyScript
