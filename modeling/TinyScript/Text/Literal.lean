import TinyScript.Text.Lines

/-!
# String literals

The text that a string literal stands for. A literal is written between apostrophes or quotation
marks, once or three times; only the tripled form may hold line ends. A backslash starts an escape:
a control letter, one to three octal digits, or two, four or eight hexadecimal digits after `x`, `u`
and `U`. A backslash before a line end removes both, and an unknown escape stands for itself. A
letter `r` in front turns escapes off, and literals that stand side by side are joined.

Texts are sequences of Unicode characters. Two sorts of escapes are well formed and yet not read
here: one that gives the code point of a surrogate, which is no character, and one that asks for a
character by its name, since the names are not known. Both are refused as `beyond` what texts hold,
apart from literals that are malformed. The language at large takes them; what is said of programs
that hold such literals is therefore said of this library alone.

Reading ends because every step leaves a shorter rest (`unescape_length`, `body_length`).
-/

namespace TinyScript.Text.Literal

/-- Why a literal is not read. -/
inductive Refusal where
  | malformed
  /-- An escape asks for a surrogate, or for a character by its name. -/
  | beyond
  deriving DecidableEq, Repr

/-- The value of a hexadecimal digit of either case. -/
def hexValue? (c : Char) : Option Nat :=
  if '0' ≤ c ∧ c ≤ '9' then some (c.toNat - 48)
  else if 'a' ≤ c ∧ c ≤ 'f' then some (c.toNat - 87)
  else if 'A' ≤ c ∧ c ≤ 'F' then some (c.toNat - 55)
  else none

/-- Reads exactly `count` hexadecimal digits onto `acc`. -/
def hexRun : (count acc : Nat) → List Char → Option (Nat × List Char)
  | 0, acc, cs => some (acc, cs)
  | _ + 1, _, [] => none
  | count + 1, acc, c :: cs => (hexValue? c).bind fun d => hexRun count (16 * acc + d) cs

def isOctal (c : Char) : Bool := '0' ≤ c && c ≤ '7'

/-- Reads at most `count` octal digits onto `acc`. -/
def octalRun : (count acc : Nat) → List Char → Nat × List Char
  | 0, acc, cs => (acc, cs)
  | _ + 1, acc, [] => (acc, [])
  | count + 1, acc, c :: cs =>
    if isOctal c then octalRun count (8 * acc + (c.toNat - 48)) cs else (acc, c :: cs)

/-- The control character that a letter names. -/
def control? (c : Char) : Option Char :=
  if c = 'a' then some '\x07'
  else if c = 'b' then some '\x08'
  else if c = 'f' then some '\x0c'
  else if c = 'n' then some '\n'
  else if c = 'r' then some '\r'
  else if c = 't' then some '\t'
  else if c = 'v' then some '\x0b'
  else none

/-- How many digits follow the letter of a hexadecimal escape. -/
def hexWidth? (c : Char) : Option Nat :=
  if c = 'x' then some 2
  else if c = 'u' then some 4
  else if c = 'U' then some 8
  else none

/-- The character at a code point, if there is one. -/
def charAt? (n : Nat) : Option Char :=
  if n.isValidChar then some (Char.ofNat n) else none

/-- The character at a code point. A code point without one is that of a surrogate, or there is no
such code point. -/
def charAt (n : Nat) : Except Refusal Char :=
  match charAt? n with
  | some c => .ok c
  | none => .error (if n < 0x110000 then .beyond else .malformed)

/-- What a hexadecimal escape of so many digits stands for, and the rest. -/
def unescapeHex (width : Nat) (cs : List Char) : Except Refusal (List Char × List Char) :=
  match hexRun width 0 cs with
  | some (n, rest) => (charAt n).map fun c => ([c], rest)
  | none => .error .malformed

/-- What an escape stands for, read after its backslash, and the rest. -/
def unescape : List Char → Except Refusal (List Char × List Char)
  | [] => .error .malformed
  | c :: cs =>
    if c = '\n' then .ok ([], cs)
    else if c = '\\' ∨ c = '\'' ∨ c = '"' then .ok ([c], cs)
    else if isOctal c then
      let (n, rest) := octalRun 2 (c.toNat - 48) cs
      .ok ([Char.ofNat n], rest)
    else if c = 'N' then .error (if cs.head? = some '\x7b' then .beyond else .malformed)
    else
      match control? c, hexWidth? c with
      | some d, _ => .ok ([d], cs)
      | none, some width => unescapeHex width cs
      | none, none => .ok (['\\', c], cs)

theorem hexRun_length {count acc n : Nat} {cs rest : List Char}
    (h : hexRun count acc cs = some (n, rest)) : rest.length ≤ cs.length := by
  fun_induction hexRun count acc cs with
  | case1 => simp_all
  | case2 => simp at h
  | case3 acc count c cs ih =>
    obtain ⟨d, -, hd⟩ := Option.bind_eq_some_iff.1 h
    exact Nat.le_succ_of_le (ih d hd)

theorem octalRun_length (count acc : Nat) (cs : List Char) :
    (octalRun count acc cs).2.length ≤ cs.length := by
  fun_induction octalRun count acc cs with
  | case1 | case2 | case4 => exact Nat.le_refl _
  | case3 _ _ _ _ _ ih => exact Nat.le_succ_of_le ih

theorem unescapeHex_length {width : Nat} {cs out rest : List Char}
    (h : unescapeHex width cs = .ok (out, rest)) : rest.length ≤ cs.length := by
  unfold unescapeHex at h
  split at h
  · next n r hr =>
    cases hc : charAt n with
    | error e => simp [hc, Except.map] at h
    | ok c =>
      have := hexRun_length hr
      simp_all [Except.map]
  · cases h

/-- An escape takes at least one character after its backslash. -/
theorem unescape_length {cs out rest : List Char} (h : unescape cs = .ok (out, rest)) :
    rest.length < cs.length := by
  cases cs with
  | nil => simp [unescape] at h
  | cons c cs =>
    suffices rest.length ≤ cs.length from Nat.lt_succ_of_le this
    simp only [unescape] at h
    split at h
    · simp_all
    split at h
    · simp_all
    split at h
    · have := octalRun_length 2 (c.toNat - 48) cs
      simp_all
    split at h
    · simp at h
    split at h
    · simp_all
    · exact unescapeHex_length h
    · simp_all

/-- How a literal is written: its mark, whether the mark is tripled, whether escapes are off. -/
structure Style where
  mark : Char
  triple : Bool
  raw : Bool

/-- The rest after the closing mark, if the literal closes here. -/
def Style.close? (style : Style) : List Char → Option (List Char)
  | [] => none
  | c :: cs =>
    if c ≠ style.mark then none
    else if style.triple then (if cs.take 2 = [c, c] then some (cs.drop 2) else none)
    else some cs

theorem Style.close?_length {style : Style} {cs rest : List Char}
    (h : style.close? cs = some rest) : rest.length < cs.length := by
  cases cs with
  | nil => simp [Style.close?] at h
  | cons c cs => grind [Style.close?]

/-- The text of a literal whose opening mark has been read, and the rest after its closing mark. -/
def body (style : Style) (cs : List Char) : Except Refusal (List Char × List Char) :=
  match style.close? cs with
  | some rest => .ok ([], rest)
  | none =>
    match cs with
    | [] => .error .malformed
    | c :: cs =>
      if c = '\n' ∧ ¬style.triple then .error .malformed
      else if c ≠ '\\' then (body style cs).map fun (text, rest) => (c :: text, rest)
      else if style.raw then
        match cs with
        | [] => .error .malformed
        | d :: cs => (body style cs).map fun (text, rest) => (c :: d :: text, rest)
      else
        match _h : unescape cs with
        | .error r => .error r
        | .ok (out, cs') => (body style cs').map fun (text, rest) => (out ++ text, rest)
termination_by cs.length
decreasing_by
  · exact Nat.lt_succ_self _
  · exact Nat.lt_succ_of_lt (Nat.lt_succ_self _)
  · exact Nat.lt_succ_of_lt (unescape_length _h)

theorem ok_of_map {ε α β : Type} {f : α → β} {x : Except ε α} {b : β} (h : x.map f = .ok b) :
    ∃ a, x = .ok a ∧ f a = b := by
  cases x with
  | error e => cases h
  | ok a => exact ⟨a, rfl, Except.ok.inj h⟩

/-- A literal takes at least its closing mark. -/
theorem body_length {style : Style} {cs text rest : List Char}
    (h : body style cs = .ok (text, rest)) : rest.length < cs.length := by
  fun_induction body style cs generalizing text with
  | case1 cs rest' hc =>
    cases h
    exact Style.close?_length hc
  | case2 => cases h
  | case3 => cases h
  | case4 _ _ _ _ _ ih =>
    obtain ⟨⟨t, r⟩, hr, he⟩ := ok_of_map h
    cases he
    exact Nat.lt_succ_of_lt (ih hr)
  | case5 => cases h
  | case6 _ _ _ _ _ _ _ ih =>
    obtain ⟨⟨t, r⟩, hr, he⟩ := ok_of_map h
    cases he
    exact Nat.lt_succ_of_lt (Nat.lt_succ_of_lt (ih hr))
  | case7 => cases h
  | case8 _ _ _ _ _ _ _ hu _ ih =>
    obtain ⟨⟨t, r⟩, hr, he⟩ := ok_of_map h
    cases he
    exact Nat.lt_succ_of_lt (Nat.lt_trans (ih hr) (unescape_length hu))

/-- The style that an opening announces, and the rest after it. -/
def open? (raw : Bool) : List Char → Option (Style × List Char)
  | [] => none
  | c :: cs =>
    if c ≠ '\'' ∧ c ≠ '"' then none
    else if cs.take 2 = [c, c] then some (⟨c, true, raw⟩, cs.drop 2)
    else some (⟨c, false, raw⟩, cs)

theorem open?_length {raw : Bool} {cs rest : List Char} {style : Style}
    (h : open? raw cs = some (style, rest)) : rest.length < cs.length := by
  cases cs with
  | nil => simp [open?] at h
  | cons c cs => grind [open?]

/-- One literal: a letter that may stand in front, the opening and the text. -/
def segment : List Char → Except Refusal (List Char × List Char)
  | [] => .error .malformed
  | c :: cs =>
    let start :=
      if c = 'r' ∨ c = 'R' then open? true cs
      else if c = 'u' ∨ c = 'U' then open? false cs
      else open? false (c :: cs)
    match start with
    | some (style, rest) => body style rest
    | none => .error .malformed

theorem segment_length {cs text rest : List Char} (h : segment cs = .ok (text, rest)) :
    rest.length < cs.length := by
  cases cs with
  | nil => cases h
  | cons c cs =>
    simp only [segment] at h
    split at h
    · next style r hs =>
      have hr : r.length ≤ cs.length := by
        split at hs
        · exact Nat.le_of_lt (open?_length hs)
        split at hs
        · exact Nat.le_of_lt (open?_length hs)
        · exact Nat.le_of_lt_succ (open?_length hs)
      exact Nat.lt_succ_of_le (Nat.le_trans (Nat.le_of_lt (body_length h)) hr)
    · cases h

/-- Blanks between tokens of one line. -/
def isBlank (c : Char) : Bool := c = ' ' || c = '\t' || c = '\x0c'

/-- The joined text of literals side by side, up to the end of the text. -/
def segments (cs : List Char) : Except Refusal (List Char) :=
  match _h : segment cs with
  | .error r => .error r
  | .ok (text, rest) =>
    let rest' := rest.dropWhile isBlank
    if rest'.all (· = '\n') then .ok text else (segments rest').map (text ++ ·)
termination_by cs.length
decreasing_by
  have := segment_length _h
  have := (List.dropWhile_suffix isBlank (l := rest)).length_le
  omega

/-- The text that a literal stands for. -/
def decode (literal : List Char) : Except Refusal (List Char) :=
  if literal.contains '\x00' then .error .malformed
  else segments (unifyNewlines (literal.dropWhile fun c => c = ' ' || c = '\t'))

end TinyScript.Text.Literal
