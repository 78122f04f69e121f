import TinyScript.Text.Printable

/-!
# Quoted texts

The form in which a text is shown inside other output: between quotes, on one line, with every
character that cannot be shown written as an escape. The apostrophe is the preferred mark; a text
that holds an apostrophe and no quotation mark is put between quotation marks instead.
-/

namespace TinyScript.Text

/-- The lower-case digit of a value below sixteen. -/
def hexDigit (n : Nat) : Char :=
  if n < 10 then Char.ofNat (48 + n) else Char.ofNat (87 + n)

/-- The last `width` hexadecimal digits of a number, padded with zeros. -/
def hexText : (width n : Nat) → List Char
  | 0, _ => []
  | width + 1, n => hexText width (n / 16) ++ [hexDigit (n % 16)]

@[simp] theorem length_hexText (width n : Nat) : (hexText width n).length = width := by
  induction width generalizing n with
  | zero => rfl
  | succ width ih => simp [hexText, ih]

namespace Quoted

/-- The mark around a text: the apostrophe, unless only the quotation mark is free of use. -/
def mark (cs : List Char) : Char :=
  if cs.contains '\'' && !cs.contains '"' then '"' else '\''

/-- One character inside quotes. The mark and the backslash are escaped, three controls have a
letter, and what cannot be printed is written by its code point in two, four or eight digits. -/
def escape (quote c : Char) : List Char :=
  if c = quote ∨ c = '\\' then ['\\', c]
  else if c = '\n' then ['\\', 'n']
  else if c = '\r' then ['\\', 'r']
  else if c = '\t' then ['\\', 't']
  else if isPrintable c then [c]
  else if c.toNat < 0x100 then '\\' :: 'x' :: hexText 2 c.toNat
  else if c.toNat < 0x10000 then '\\' :: 'u' :: hexText 4 c.toNat
  else '\\' :: 'U' :: hexText 8 c.toNat

/-- A text between its marks. -/
def encode (cs : List Char) : List Char :=
  mark cs :: (cs.flatMap (escape (mark cs)) ++ [mark cs])

end Quoted

/-- The quoted form of a text. -/
def quote (text : String) : String :=
  String.ofList (Quoted.encode text.toList)

end TinyScript.Text
