import TinyScript.Text.Digit
import TinyScript.Text.Word
import TinyScript.Token.Kind

/-!
# Terminals

The classes of lexemes. Each class measures how many characters at the front of a text belong to
one lexeme of it, zero if there is none. At every place of a text the first class of `order` that
finds something is taken.
-/

namespace TinyScript

open Text (isDigit isWord)

/-- The classes of lexemes. -/
inductive Terminal where
  | float
  | string
  /-- Line ends, with the margin of the next line, blank lines and comments. -/
  | newline
  /-- A backslash at the end of a line, which joins it to the next. -/
  | continuation
  | name
  | blank
  | number
  | symbol (s : Symbol)
  deriving DecidableEq, Repr

namespace Terminal

/-- Blanks inside a line. -/
def isBlank (c : Char) : Bool := c = '\t' || c = ' ' || c = '\x0c'

/-- Blanks that count for the margin of a line. -/
def isMargin (c : Char) : Bool := c = '\t' || c = ' '

/-- The length of the longest run of characters of a class. -/
def run (p : Char → Bool) (cs : List Char) : Nat := (cs.takeWhile p).length

/-- Digits, a point and perhaps more digits; or a point and digits. -/
def scanFloat (cs : List Char) : Nat :=
  let whole := run isDigit cs
  match cs.drop whole with
  | '.' :: rest =>
    let fraction := run isDigit rest
    if whole = 0 ∧ fraction = 0 then 0 else whole + 1 + fraction
  | _ => 0

/-- The length of the rest of a string after its opening mark, with the closing mark; none if the
line ends first. A backslash takes the next character with it. -/
def scanStringRest (mark : Char) : List Char → Option Nat
  | [] => none
  | c :: cs =>
    if c = mark then some 1
    else if c = '\n' then none
    else if c = '\\' then
      match cs with
      | [] => none
      | d :: cs => if d = '\n' then none else (scanStringRest mark cs).map (· + 2)
    else (scanStringRest mark cs).map (· + 1)

def scanString : List Char → Nat
  | [] => 0
  | c :: cs =>
    if c = '"' ∨ c = '\'' then ((scanStringRest c cs).map (· + 1)).getD 0 else 0

/-- Where the reading of line ends stands: before the first, in the margin after one, or inside a
comment. -/
inductive Margin where
  | outside
  | inside
  | comment
  deriving DecidableEq, Repr

/-- Line ends and comments as far as they go. -/
def scanBreaks (state : Margin) : List Char → Nat
  | [] => 0
  | c :: cs =>
    if c = '\n' then scanBreaks .inside cs + 1
    else if state = .comment then scanBreaks .comment cs + 1
    else if c = '#' then scanBreaks .comment cs + 1
    else if state = .inside ∧ isMargin c then scanBreaks .inside cs + 1
    else if c = '\r' then
      match cs with
      | [] => 0
      | d :: cs => if d = '\n' then scanBreaks .inside cs + 2 else 0
    else 0

/-- A backslash, blanks and a line end. -/
def scanContinuation : List Char → Nat
  | '\\' :: cs =>
    let blanks := run isBlank cs
    match cs.drop blanks with
    | '\n' :: _ => blanks + 2
    | '\r' :: '\n' :: _ => blanks + 3
    | _ => 0
  | _ => 0

/-- Word characters, of which the first is no digit. -/
def scanName : List Char → Nat
  | [] => 0
  | c :: cs => if isWord c && !isDigit c then run isWord cs + 1 else 0

def scanSymbol (s : Symbol) (cs : List Char) : Nat :=
  if s.chars.isPrefixOf cs then s.chars.length else 0

/-- How many characters at the front belong to one lexeme of the class. -/
def scan : Terminal → List Char → Nat
  | float => scanFloat
  | string => scanString
  | newline => scanBreaks .outside
  | continuation => scanContinuation
  | name => scanName
  | blank => run isBlank
  | number => run isDigit
  | symbol s => scanSymbol s

/-- The order in which the classes are tried. -/
def order : List Terminal :=
  [float, string, newline, continuation, name, blank, number] ++ Symbol.all.map symbol

/-- The first class that finds a lexeme at the front, and the length of that lexeme. -/
def first? (cs : List Char) : Option (Terminal × Nat) :=
  order.findSome? fun t => if t.scan cs = 0 then none else some (t, t.scan cs)

theorem mem_order (t : Terminal) : t ∈ order := by
  cases t with
  | symbol s => exact List.mem_append_right _ (List.mem_map_of_mem (Symbol.mem_all s))
  | _ => decide

/-- A class is chosen for what it finds, and that is not nothing. -/
theorem scan_of_first? {cs : List Char} {t : Terminal} {n : Nat} (h : first? cs = some (t, n)) :
    t.scan cs = n ∧ 0 < n := by
  obtain ⟨u, -, hu⟩ := List.exists_of_findSome?_eq_some h
  split at hu
  · simp at hu
  · simp only [Option.some.injEq, Prod.mk.injEq] at hu
    obtain ⟨rfl, rfl⟩ := hu
    exact ⟨rfl, by omega⟩

/-- No class is chosen exactly when none finds anything. -/
theorem first?_eq_none_iff (cs : List Char) : first? cs = none ↔ ∀ t : Terminal, t.scan cs = 0 := by
  unfold first?
  rw [List.findSome?_eq_none_iff]
  constructor
  · intro h t
    have := h t (mem_order t)
    split at this
    · assumption
    · simp at this
  · intro h t _
    simp [h t]

@[simp] theorem scan_nil (t : Terminal) : t.scan [] = 0 := by
  cases t with
  | symbol s => cases s <;> rfl
  | _ => rfl

@[simp] theorem first?_nil : first? [] = none := (first?_eq_none_iff []).2 scan_nil

end Terminal

end TinyScript
