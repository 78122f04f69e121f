import TinyScript.Json
import TinyScript.Number.Read
import TinyScript.Table
import TinyScript.Text.Literal

/-!
# Reading JSON

A text is cut into pieces, and the pieces are put together to a value. A piece is a mark of
punctuation or a value that has no parts; white space between pieces is skipped.

A string may hold any characters but controls, and escapes. A number without fraction and exponent
is an integer, which must keep to the limit on digits, and any other number is a float. The floats
that are no numbers are known by name, as are the truth values and null. When a name occurs twice
in an object, the later member takes the place of the earlier one.
-/

namespace TinyScript.Json

open Number (readInt readFloat splitSign)
open Text.Literal (hexRun hexRun_length charAt?)

/-- The character that an escape of one letter stands for. -/
def control? (c : Char) : Option Char :=
  if c = '"' ∨ c = '\\' ∨ c = '/' then some c
  else if c = 'n' then some '\n'
  else if c = 'r' then some '\r'
  else if c = 't' then some '\t'
  else if c = 'b' then some '\x08'
  else if c = 'f' then some '\x0c'
  else none

/-- The code point of a hexadecimal escape, read after its letter. One that does not fit into four
digits is written as a pair of surrogates, each in an escape of its own. -/
def codePoint? (cs : List Char) : Option (Nat × List Char) :=
  (hexRun 4 0 cs).bind fun (high, rest) =>
    if 0xd800 ≤ high ∧ high < 0xdc00 then
      match rest with
      | '\\' :: 'u' :: more =>
        (hexRun 4 0 more).bind fun (low, rest) =>
          if 0xdc00 ≤ low ∧ low < 0xe000 then
            some (0x10000 + 0x400 * (high - 0xd800) + (low - 0xdc00), rest)
          else none
      | _ => none
    else some (high, rest)

/-- What an escape stands for, read after its backslash, and the rest. -/
def unescape? : List Char → Option (Char × List Char)
  | [] => none
  | c :: cs =>
    if c = 'u' then (codePoint? cs).bind fun (n, rest) => (charAt? n).map fun d => (d, rest)
    else (control? c).map fun d => (d, cs)

theorem codePoint?_length {cs rest : List Char} {n : Nat} (h : codePoint? cs = some (n, rest)) :
    rest.length ≤ cs.length := by
  obtain ⟨⟨high, rest'⟩, hhigh, h⟩ := Option.bind_eq_some_iff.mp h
  have hlength := hexRun_length hhigh
  dsimp only at h
  split at h
  · split at h
    · obtain ⟨⟨low, rest''⟩, hlow, h⟩ := Option.bind_eq_some_iff.mp h
      have hmore := hexRun_length hlow
      dsimp only at h
      split at h
      · obtain ⟨-, rfl⟩ := Prod.mk.inj (Option.some.inj h)
        simp only [List.length_cons] at hlength
        omega
      · cases h
    · cases h
  · cases h
    exact hlength

/-- An escape takes at least one character after its backslash. -/
theorem unescape?_length {cs rest : List Char} {d : Char} (h : unescape? cs = some (d, rest)) :
    rest.length < cs.length := by
  cases cs with
  | nil => cases h
  | cons c cs =>
    rw [unescape?] at h
    apply Nat.lt_succ_of_le
    split at h
    · obtain ⟨⟨n, rest'⟩, hpoint, h⟩ := Option.bind_eq_some_iff.mp h
      obtain ⟨d', -, h⟩ := Option.map_eq_some_iff.mp h
      cases h
      exact codePoint?_length hpoint
    · obtain ⟨d', -, h⟩ := Option.map_eq_some_iff.mp h
      cases h
      exact Nat.le_refl _

/-- The characters up to the mark that ends a string, and what follows it. -/
def unquote (cs : List Char) : Option (List Char × List Char) :=
  match cs with
  | [] => none
  | c :: rest =>
    if c = '"' then some ([], rest)
    else if c = '\\' then
      match _h : unescape? rest with
      | none => none
      | some (d, rest') => (unquote rest').map fun (ds, after) => (d :: ds, after)
    else if c.toNat < 0x20 then none
    else (unquote rest).map fun (ds, after) => (c :: ds, after)
termination_by cs.length
decreasing_by
  · exact Nat.lt_succ_of_lt (unescape?_length _h)
  · exact Nat.lt_succ_self _

theorem unquote_length {cs ds rest : List Char} (h : unquote cs = some (ds, rest)) :
    rest.length < cs.length := by
  fun_induction unquote cs generalizing ds with
  | case1 => cases h
  | case2 rest' =>
    cases h
    exact Nat.lt_succ_self _
  | case3 => cases h
  | case4 rest' d rest'' hescape _ ih =>
    obtain ⟨⟨ds', after⟩, hmore, h⟩ := Option.map_eq_some_iff.mp h
    cases h
    have hlength := unescape?_length hescape
    have hafter := ih hmore
    simp only [List.length_cons]
    omega
  | case5 => cases h
  | case6 c rest' hquote hslash hcontrol ih =>
    obtain ⟨⟨ds', after⟩, hmore, h⟩ := Option.map_eq_some_iff.mp h
    cases h
    exact Nat.lt_succ_of_lt (ih hmore)

/-- Whether the text is nothing or an exponent. -/
def isExponent : List Char → Bool
  | [] => true
  | c :: cs => (c = 'e' || c = 'E') && (splitSign cs).2 ≠ [] && (splitSign cs).2.all Char.isDigit

/-- Whether the text is a fraction, an exponent, or one after the other. -/
def isFraction : List Char → Bool
  | '.' :: cs => cs.takeWhile Char.isDigit ≠ [] && isExponent (cs.dropWhile Char.isDigit)
  | cs => isExponent cs

/-- A number without its sign. -/
def unsigned (w : List Char) : List Char := if w.head? = some '-' then w.tail else w

/-- A number. Its whole part has no zeros in front. -/
def number? (w : List Char) : Option Json :=
  let whole := (unsigned w).takeWhile Char.isDigit
  let rest := (unsigned w).dropWhile Char.isDigit
  if whole = [] ∨ whole.head? = some '0' ∧ whole ≠ ['0'] then none
  else if rest = [] then (readInt (String.ofList w)).toOption.map int
  else if isFraction rest then (readFloat (String.ofList w)).toOption.map float
  else none

/-- The values that have a name. -/
def names : List (String × Json) :=
  [("null", null), ("true", bool true), ("false", bool false), ("Infinity", float (1.0 / 0.0)),
    ("-Infinity", float (-(1.0 / 0.0))), ("NaN", float (0.0 / 0.0))]

/-- The value that a word stands for. -/
def word? (w : List Char) : Option Json := (Table.findIn (String.ofList w) names).or (number? w)

/-- A mark of punctuation, or a value without parts. -/
inductive Piece where
  | mark (c : Char)
  | scalar (j : Json)

def isBlank (c : Char) : Bool := c = ' ' || c = '\t' || c = '\n' || c = '\r'

/-- The marks of punctuation. A brace is given by its code. -/
def isMark (c : Char) : Bool :=
  c = '[' || c = ']' || c = '\x7b' || c = '\x7d' || c = ',' || c = ':'

/-- The characters of numbers and names. -/
def isInner (c : Char) : Bool := c.isAlphanum || c = '+' || c = '-' || c = '.'

/-- Cuts a text into pieces. -/
def pieces (cs : List Char) : Option (List Piece) :=
  match cs with
  | [] => some []
  | c :: rest =>
    if isBlank c then pieces rest
    else if isMark c then (pieces rest).map (.mark c :: ·)
    else if c = '"' then
      match _h : unquote rest with
      | none => none
      | some (ds, rest') => (pieces rest').map (.scalar (str (String.ofList ds)) :: ·)
    else
      match word? (c :: rest.takeWhile isInner) with
      | none => none
      | some j => (pieces (rest.dropWhile isInner)).map (.scalar j :: ·)
termination_by cs.length
decreasing_by
  · exact Nat.lt_succ_self _
  · exact Nat.lt_succ_self _
  · exact Nat.lt_succ_of_lt (unquote_length _h)
  · exact Nat.lt_succ_of_le (List.dropWhile_suffix isInner).length_le

/-- The members of an object in order; a later member takes the place of an earlier one. -/
def gather (members : List (String × Json)) : List (String × Json) :=
  members.foldl (fun found member => Table.insertIn member.1 member.2 found) []

mutual

/-- The value at the front of the pieces, and what follows it. A value of `n` pieces takes no more
than `n` steps. -/
def value : (steps : Nat) → List Piece → Option (Json × List Piece)
  | _ + 1, .scalar j :: ps => some (j, ps)
  | _ + 1, .mark '[' :: .mark ']' :: ps => some (arr [], ps)
  | steps + 1, .mark '[' :: ps => (items steps ps).map fun (js, rest) => (arr js, rest)
  | _ + 1, .mark '\x7b' :: .mark '\x7d' :: ps => some (obj [], ps)
  | steps + 1, .mark '\x7b' :: ps =>
    (members steps ps).map fun (ms, rest) => (obj (gather ms), rest)
  | _, _ => none

/-- The items of an array up to its end, at least one. -/
def items : (steps : Nat) → List Piece → Option (List Json × List Piece)
  | 0, _ => none
  | steps + 1, ps =>
    match value steps ps with
    | some (j, .mark ']' :: rest) => some ([j], rest)
    | some (j, .mark ',' :: rest) => (items steps rest).map fun (js, rest) => (j :: js, rest)
    | _ => none

/-- The members of an object up to its end, at least one. -/
def members : (steps : Nat) → List Piece → Option (List (String × Json) × List Piece)
  | steps + 1, .scalar (str key) :: .mark ':' :: ps =>
    match value steps ps with
    | some (j, .mark '\x7d' :: rest) => some ([(key, j)], rest)
    | some (j, .mark ',' :: rest) =>
      (members steps rest).map fun (ms, rest) => ((key, j) :: ms, rest)
    | _ => none
  | _, _ => none

end

/-- The value that a text stands for. -/
def read (text : String) : Option Json :=
  match (pieces text.toList).bind fun ps => value ps.length ps with
  | some (j, []) => some j
  | _ => none

end TinyScript.Json
