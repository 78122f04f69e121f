import TinyScript.Text.Lines
import TinyScript.Text.Quoted

/-!
# Reading UTF-8

A text file is a sequence of octets. Decoding is strict: it stops at the first octet that no
character allows there, and says which octets it gave up on and why. Every character takes at least
one octet, so decoding ends.
-/

namespace TinyScript.Text.Utf8

/-- Why decoding stopped. -/
inductive Reason where
  /-- No character starts with this octet. -/
  | badStart
  /-- The next octet does not continue the character that was started. -/
  | badContinuation
  /-- The text ends inside a character. -/
  | endOfData
  deriving DecidableEq, Repr

def Reason.text : Reason → String
  | .badStart => "invalid start byte"
  | .badContinuation => "invalid continuation byte"
  | .endOfData => "unexpected end of data"

/-- A refusal: the first octet given up on, where it stands, and how many octets are meant. -/
structure Refusal where
  reason : Reason
  octet : UInt8
  start : Nat
  length : Nat
  deriving DecidableEq, Repr

def Refusal.message (r : Refusal) : String :=
  let range :=
    if r.length = 1 then
      "byte 0x" ++ String.ofList (hexText 2 r.octet.toNat) ++ " in position " ++ r.start.repr
    else "bytes in position " ++ r.start.repr ++ "-" ++ (r.start + r.length - 1).repr
  "'utf-8' codec can't decode " ++ range ++ ": " ++ r.reason.text

/-- Reads `count` continuation octets onto `code`. The first one lies between `low` and `high`, the
others anywhere among the continuations. A failure counts the octets that were in order. -/
def tails (low high : UInt8) : (count code good : Nat) → List UInt8 → Except (Reason × Nat) Nat
  | 0, code, _, _ => .ok code
  | _ + 1, _, good, [] => .error (.endOfData, good)
  | count + 1, code, good, b :: bs =>
    if low ≤ b ∧ b ≤ high then
      tails 0x80 0xbf count (64 * code + (b.toNat - 0x80)) (good + 1) bs
    else .error (.badContinuation, good)

/-- The number of continuation octets after a first octet, the payload of that octet, and the range
of the second one. Overlong forms, surrogates and code points past the last plane are excluded
here. -/
def lead? (b : UInt8) : Option (Nat × Nat × UInt8 × UInt8) :=
  if b < 0x80 then some (0, b.toNat, 0x80, 0xbf)
  else if b < 0xc2 then none
  else if b < 0xe0 then some (1, b.toNat - 0xc0, 0x80, 0xbf)
  else if b < 0xf0 then
    some (2, b.toNat - 0xe0, if b = 0xe0 then 0xa0 else 0x80, if b = 0xed then 0x9f else 0xbf)
  else if b < 0xf5 then
    some (3, b.toNat - 0xf0, if b = 0xf0 then 0x90 else 0x80, if b = 0xf4 then 0x8f else 0xbf)
  else none

/-- Decodes octets that start at offset `start` of the text, after the characters `done`, which are
kept in reverse. -/
def decodeFrom (start : Nat) (done : List Char) : List UInt8 → Except Refusal (List Char)
  | [] => .ok done.reverse
  | b :: bs =>
    match lead? b with
    | none => .error ⟨.badStart, b, start, 1⟩
    | some (count, code, low, high) =>
      match tails low high count code 1 bs with
      | .error (reason, good) => .error ⟨reason, b, start, good⟩
      | .ok code => decodeFrom (start + 1 + count) (Char.ofNat code :: done) (bs.drop count)
termination_by bs => bs.length
decreasing_by simp only [List.length_drop, List.length_cons]; omega

/-- The characters that the octets encode. -/
def decode (octets : List UInt8) : Except Refusal (List Char) :=
  decodeFrom 0 [] octets

/-- The text of a file, with its line ends unified. -/
def readText (octets : List UInt8) : Except Refusal String :=
  (decode octets).map fun cs => String.ofList (unifyNewlines cs)

end TinyScript.Text.Utf8
