import Mathlib.Algebra.Group.Nat.Defs
import TinyScript.Text.Literal
import TinyScript.Text.Quoted
import TinyScript.Token.Terminal

/-!
# Quoted texts read back

The quoted form of a text is one string literal, whatever comes after it (`scanString_encode`), and
the literal stands for the text (`decode_encode`). The proofs go through the text character by
character: one escape is read back as the character it was made from.
-/

namespace TinyScript.Text

/-- A property of the characters of a list is decided one character after the other. -/
theorem forall_mem_of_all {P : Char → Prop} [DecidablePred P] {cs : List Char}
    (h : cs.all (fun c => decide (P c)) = true) : ∀ c ∈ cs, P c :=
  fun c hc => of_decide_eq_true (List.all_eq_true.mp h c hc)

namespace Quoted

open Literal (hexRun hexValue? unescape body segments decode)
open Terminal (scanString scanStringRest)

theorem hexValue?_hexDigit {n : Nat} (h : n < 16) : hexValue? (hexDigit n) = some n := by
  have hall : ∀ n < 16, hexValue? (hexDigit n) = some n := by decide
  exact hall n h

/-- Digits written by `hexText` are read back, onto what has been read before. -/
theorem hexRun_hexText (width more n acc : Nat) (rest : List Char) :
    hexRun (width + more) acc (hexText width n ++ rest) =
      hexRun more (16 ^ width * acc + n % 16 ^ width) rest := by
  induction width generalizing more n rest with
  | zero => simp [hexText, Nat.mod_one]
  | succ width ih =>
    have hlast : n % 16 < 16 := Nat.mod_lt n (by decide)
    have hvalue : 16 * (16 ^ width * acc + n / 16 % 16 ^ width) + n % 16 =
        16 ^ (width + 1) * acc + n % 16 ^ (width + 1) := by
      rw [Nat.pow_succ', Nat.mod_mul, Nat.mul_add, Nat.mul_assoc]
      omega
    rw [hexText, List.append_assoc, Nat.add_right_comm width 1 more, Nat.add_assoc, ih]
    simp only [List.singleton_append, hexRun, hexValue?_hexDigit hlast, Option.bind_some, hvalue]

/-- A hexadecimal escape of the right width gives the character back. -/
theorem hexRun_char {width : Nat} {c : Char} (h : c.toNat < 16 ^ width) (rest : List Char) :
    hexRun width 0 (hexText width c.toNat ++ rest) = some (c.toNat, rest) := by
  have hread := hexRun_hexText width 0 c.toNat 0 rest
  simpa [hexRun, Nat.mod_eq_of_lt h] using hread

theorem charAt?_toNat (c : Char) : Literal.charAt? c.toNat = some c := by
  have hvalid : c.toNat.isValidChar := c.valid
  simp [Literal.charAt?, hvalid, Char.ofNat_toNat]

/-- What marks a literal: an apostrophe or a quotation mark. -/
def IsMark (m : Char) : Prop := m = '\'' ∨ m = '"'

theorem isMark_mark (cs : List Char) : IsMark (mark cs) := by
  unfold mark
  split
  · exact .inr rfl
  · exact .inl rfl

/-- The characters that an escape is made of, apart from a character shown as itself. -/
def isPlain (c : Char) : Bool := ('a' ≤ c && c ≤ 'z') || ('0' ≤ c && c ≤ '9') || c = 'U'

theorem isPlain_hexDigit {n : Nat} (h : n < 16) : isPlain (hexDigit n) = true := by
  have hall : ∀ n < 16, isPlain (hexDigit n) = true := by decide
  exact hall n h

theorem isPlain_of_mem_hexText {width n : Nat} {d : Char} (h : d ∈ hexText width n) :
    isPlain d = true := by
  induction width generalizing n with
  | zero => cases h
  | succ width ih =>
    rcases List.mem_append.mp h with h | h
    · exact ih h
    · rw [List.mem_singleton.mp h]
      exact isPlain_hexDigit (Nat.mod_lt n (by decide))

/-- A hexadecimal escape is read back. -/
theorem unescape_hexText {letter c : Char} {width : Nat} {rest : List Char}
    (hletter : ∀ cs, unescape (letter :: cs) = Literal.unescapeHex width cs)
    (h : c.toNat < 16 ^ width) :
    unescape (letter :: hexText width c.toNat ++ rest) = .ok ([c], rest) := by
  rw [List.cons_append, hletter, Literal.unescapeHex, hexRun_char h]
  simp [Literal.charAt, charAt?_toNat, Except.map]

theorem isPlain_hexEscape {letter : Char} (hletter : isPlain letter = true) (width n : Nat) :
    ∀ x ∈ letter :: hexText width n, isPlain x = true := by
  intro x hx
  rcases List.mem_cons.mp hx with rfl | hx
  · exact hletter
  · exact isPlain_of_mem_hexText hx

/-- The two shapes of an escape: the character itself, or a backslash and plain characters. The mark
and the backslash stand after a backslash of their own. -/
theorem escape_cases {m : Char} (c : Char) :
    (escape m c = [c] ∧ c ≠ m ∧ c ≠ '\\' ∧ c ≠ '\n' ∧ isPrintable c = true) ∨
      (escape m c = ['\\', c] ∧ (c = m ∨ c = '\\')) ∨
      ∃ d ds, escape m c = '\\' :: d :: ds ∧ (∀ x ∈ d :: ds, isPlain x = true) ∧
        ∀ rest, unescape (d :: ds ++ rest) = .ok ([c], rest) := by
  unfold escape
  split
  · next h => exact .inr (.inl ⟨rfl, h⟩)
  split
  · next h => exact .inr (.inr ⟨_, _, rfl, forall_mem_of_all (by decide), fun rest => h ▸ rfl⟩)
  split
  · next h => exact .inr (.inr ⟨_, _, rfl, forall_mem_of_all (by decide), fun rest => h ▸ rfl⟩)
  split
  · next h => exact .inr (.inr ⟨_, _, rfl, forall_mem_of_all (by decide), fun rest => h ▸ rfl⟩)
  split
  · next hm hn hr ht hp => exact .inl ⟨rfl, fun h => hm (.inl h), fun h => hm (.inr h), hn, hp⟩
  split
  · next h =>
    exact .inr (.inr ⟨_, _, rfl, isPlain_hexEscape (by decide) 2 c.toNat, fun rest =>
      unescape_hexText (fun _ => rfl) h⟩)
  split
  · next h =>
    exact .inr (.inr ⟨_, _, rfl, isPlain_hexEscape (by decide) 4 c.toNat, fun rest =>
      unescape_hexText (fun _ => rfl) h⟩)
  · have hlarge : c.toNat < 16 ^ 8 := Nat.lt_of_lt_of_le c.val.toNat_lt (by decide)
    exact .inr (.inr ⟨_, _, rfl, isPlain_hexEscape (by decide) 8 c.toNat, fun rest =>
      unescape_hexText (fun _ => rfl) hlarge⟩)

/-- The style of a quoted text. -/
def style (m : Char) : Literal.Style := ⟨m, false, false⟩

theorem close?_of_ne {m c : Char} (h : c ≠ m) (cs : List Char) :
    (style m).close? (c :: cs) = none := by
  simp [Literal.Style.close?, style, h]

theorem body_cons {m c : Char} (hm : c ≠ m) (hn : c ≠ '\n') (hb : c ≠ '\\') (cs : List Char) :
    body (style m) (c :: cs) = (body (style m) cs).map fun (text, rest) => (c :: text, rest) := by
  rw [body.eq_def, close?_of_ne hm]
  simp [hn, hb]

theorem body_backslash {m : Char} {cs out rest : List Char} (hm : IsMark m)
    (h : unescape cs = .ok (out, rest)) :
    body (style m) ('\\' :: cs) =
      (body (style m) rest).map fun (text, rest) => (out ++ text, rest) := by
  have hne : '\\' ≠ m := by rcases hm with rfl | rfl <;> decide
  rw [body.eq_def, close?_of_ne hne]
  have hline : ¬('\\' = '\n' ∧ ¬(style m).triple) := fun hc => absurd hc.1 (by decide)
  dsimp only
  rw [if_neg hline, if_neg (not_not_intro rfl), if_neg (by simp [style])]
  split <;> simp_all

theorem body_escape {m : Char} (hm : IsMark m) (c : Char) (tail : List Char) :
    body (style m) (escape m c ++ tail) =
      (body (style m) tail).map fun (text, rest) => (c :: text, rest) := by
  rcases escape_cases (m := m) c with ⟨h, hcm, hb, hn, -⟩ | ⟨h, hc⟩ | ⟨d, ds, h, -, hu⟩
  · rw [h]
    exact body_cons hcm hn hb tail
  · have hu : unescape (c :: tail) = .ok ([c], tail) := by
      rcases hc with rfl | rfl
      · rcases hm with rfl | rfl <;> rfl
      · rfl
    rw [h]
    exact body_backslash hm hu
  · rw [h]
    exact body_backslash hm (hu tail)

/-- The escapes of a text, closed by the mark, are read back as the text. -/
theorem body_escapes {m : Char} (hm : IsMark m) (cs rest : List Char) :
    body (style m) (cs.flatMap (escape m) ++ m :: rest) = .ok (cs, rest) := by
  induction cs with
  | nil =>
    rw [List.flatMap_nil, List.nil_append, body.eq_def]
    simp [Literal.Style.close?, style]
  | cons c cs ih =>
    rw [List.flatMap_cons, List.append_assoc, body_escape hm, ih]
    rfl

theorem isPrintable_of_isPlain {c : Char} (h : isPlain c = true) : isPrintable c = true := by
  have hall : ∀ n < 0x80, isPlain (Char.ofNat n) = true → isPrintable (Char.ofNat n) = true := by
    decide
  have hrange : c.toNat < 0x80 := by
    simp only [isPlain, Bool.or_eq_true, Bool.and_eq_true, decide_eq_true_eq] at h
    obtain (⟨-, hz⟩ | ⟨-, hnine⟩) | rfl := h
    · exact Nat.lt_of_le_of_lt (show c.toNat ≤ 122 from hz) (by omega)
    · exact Nat.lt_of_le_of_lt (show c.toNat ≤ 57 from hnine) (by omega)
    · decide
  have hc := hall c.toNat hrange
  rw [Char.ofNat_toNat] at hc
  exact hc h

/-- An escape shows printable characters only. -/
theorem isPrintable_of_mem_escape {m c d : Char} (hm : IsMark m) (h : d ∈ escape m c) :
    isPrintable d = true := by
  rcases escape_cases (m := m) c with ⟨he, -, -, -, hp⟩ | ⟨he, hc⟩ | ⟨x, xs, he, hx, -⟩
  · rw [he, List.mem_singleton] at h
    rw [h]
    exact hp
  · have hc' : c = '\'' ∨ c = '"' ∨ c = '\\' := by
      rcases hc with rfl | hc
      · exact hm.imp_right .inl
      · exact .inr (.inr hc)
    rw [he] at h
    rcases List.mem_cons.mp h with rfl | h
    · decide
    · rw [List.mem_singleton.mp h]
      rcases hc' with rfl | rfl | rfl <;> decide
  · rw [he] at h
    rcases List.mem_cons.mp h with rfl | h
    · decide
    · exact isPrintable_of_isPlain (hx d h)

/-- A quoted text shows printable characters only, so it is one line. -/
theorem isPrintable_of_mem_encode {cs : List Char} {d : Char} (h : d ∈ encode cs) :
    isPrintable d = true := by
  have hmark : isPrintable (mark cs) = true := by
    rcases isMark_mark cs with hm | hm <;> rw [hm] <;> decide
  rcases List.mem_cons.mp h with rfl | h
  · exact hmark
  rcases List.mem_append.mp h with h | h
  · obtain ⟨c, -, hc⟩ := List.mem_flatMap.mp h
    exact isPrintable_of_mem_escape (isMark_mark cs) hc
  · rw [List.mem_singleton.mp h]
    exact hmark

theorem unifyNewlines_of_notMem {cs : List Char} (h : '\r' ∉ cs) : unifyNewlines cs = cs := by
  induction cs with
  | nil => rfl
  | cons c cs ih =>
    have hc : c ≠ '\r' := fun hc => h (hc ▸ List.mem_cons_self)
    rw [unifyNewlines.eq_4 c cs (fun _ hc' => absurd hc' hc) hc,
      ih fun hm => h (List.mem_cons_of_mem _ hm)]

/-- A quoted text has none of the characters that are treated before a literal is read. -/
theorem ne_of_mem_encode {cs : List Char} {d : Char} (h : d ∈ encode cs) :
    d ≠ '\r' ∧ d ≠ '\x00' := by
  have hd := isPrintable_of_mem_encode h
  constructor <;> rintro rfl <;> exact absurd hd (by decide)

/-- No escape begins with the mark. -/
theorem escape_head {m : Char} (hm : IsMark m) (c : Char) :
    ∃ d ds, escape m c = d :: ds ∧ d ≠ m := by
  have hbackslash : '\\' ≠ m := by rcases hm with rfl | rfl <;> decide
  rcases escape_cases (m := m) c with ⟨h, hc, -⟩ | ⟨h, -⟩ | ⟨d, ds, h, -⟩
  · exact ⟨c, [], h, hc⟩
  · exact ⟨_, _, h, hbackslash⟩
  · exact ⟨_, _, h, hbackslash⟩

/-- The opening of a quoted text is not a tripled mark. -/
theorem open?_encode (cs : List Char) :
    Literal.open? false (encode cs) =
      some (style (mark cs), cs.flatMap (escape (mark cs)) ++ [mark cs]) := by
  have hm := isMark_mark cs
  have hmark : ¬(mark cs ≠ '\'' ∧ mark cs ≠ '"') := fun h => hm.elim h.1 h.2
  have htriple : (cs.flatMap (escape (mark cs)) ++ [mark cs]).take 2 ≠ [mark cs, mark cs] := by
    -- The mark differs with the text, so it is fixed before the text is taken apart.
    generalize mark cs = m at hm
    cases cs with
    | nil => simp
    | cons c cs =>
      obtain ⟨d, ds, hd, hne⟩ := escape_head hm c
      rw [List.flatMap_cons, hd]
      intro htake
      exact hne (List.cons.inj htake).1
  rw [encode, Literal.open?, if_neg hmark, if_neg htriple]
  rfl

theorem segment_encode (cs : List Char) : Literal.segment (encode cs) = .ok (cs, []) := by
  have hm := isMark_mark cs
  have hraw : ¬(mark cs = 'r' ∨ mark cs = 'R') := by
    rcases hm with h | h <;> rw [h] <;> decide
  have hletter : ¬(mark cs = 'u' ∨ mark cs = 'U') := by
    rcases hm with h | h <;> rw [h] <;> decide
  rw [encode, Literal.segment, if_neg hraw, if_neg hletter, ← encode, open?_encode]
  exact body_escapes hm cs []

/-- A quoted text stands for the text. -/
theorem decode_encode (cs : List Char) : decode (encode cs) = .ok cs := by
  have hzero : (encode cs).contains '\x00' = false := by
    rw [List.contains_eq_mem, decide_eq_false_iff_not]
    exact fun h => (ne_of_mem_encode h).2 rfl
  have hstart : (encode cs).dropWhile (fun c => c = ' ' || c = '\t') = encode cs := by
    rw [encode, List.dropWhile_cons_of_neg]
    rcases isMark_mark cs with h | h <;> rw [h] <;> decide
  have hlines : unifyNewlines (encode cs) = encode cs :=
    unifyNewlines_of_notMem fun h => (ne_of_mem_encode h).1 rfl
  rw [decode, hzero, hstart, hlines, segments.eq_def]
  simp only [Bool.false_eq_true, if_false]
  split
  · next h => simp [segment_encode] at h
  · next text rest h =>
    rw [segment_encode] at h
    cases h
    rfl

theorem scanStringRest_cons {m c : Char} (hm : c ≠ m) (hn : c ≠ '\n') (hb : c ≠ '\\')
    (cs : List Char) : scanStringRest m (c :: cs) = (scanStringRest m cs).map (· + 1) := by
  cases cs with
  | nil => simp only [scanStringRest, if_neg hm, if_neg hn, if_neg hb]
  | cons d cs => rw [scanStringRest, if_neg hm, if_neg hn, if_neg hb]

theorem scanStringRest_backslash {m d : Char} (hm : IsMark m) (hd : d ≠ '\n') (cs : List Char) :
    scanStringRest m ('\\' :: d :: cs) = (scanStringRest m cs).map (· + 2) := by
  have hne : '\\' ≠ m := by rcases hm with rfl | rfl <;> decide
  rw [scanStringRest, if_neg hne, if_neg (by decide), if_pos rfl]
  exact if_neg hd

theorem ne_of_isPlain {m c : Char} (hm : IsMark m) (h : isPlain c = true) :
    c ≠ m ∧ c ≠ '\n' ∧ c ≠ '\\' := by
  refine ⟨?_, ?_, ?_⟩
  · rintro rfl
    rcases hm with rfl | rfl <;> exact absurd h (by decide)
  · rintro rfl
    exact absurd h (by decide)
  · rintro rfl
    exact absurd h (by decide)

theorem scanStringRest_plain {m : Char} (hm : IsMark m) {xs : List Char}
    (h : ∀ x ∈ xs, isPlain x = true) (tail : List Char) :
    scanStringRest m (xs ++ tail) = (scanStringRest m tail).map (· + xs.length) := by
  induction xs with
  | nil => simp
  | cons x xs ih =>
    obtain ⟨hxm, hxn, hxb⟩ := ne_of_isPlain hm (h x List.mem_cons_self)
    rw [List.cons_append, scanStringRest_cons hxm hxn hxb,
      ih fun y hy => h y (List.mem_cons_of_mem _ hy), Option.map_map]
    rfl

/-- An escape is passed over, and no literal ends inside it. -/
theorem scanStringRest_escape {m : Char} (hm : IsMark m) (c : Char) (tail : List Char) :
    scanStringRest m (escape m c ++ tail) =
      (scanStringRest m tail).map (· + (escape m c).length) := by
  rcases escape_cases (m := m) c with ⟨h, hcm, hb, hn, -⟩ | ⟨h, hc⟩ | ⟨d, ds, h, hplain, -⟩
  · rw [h]
    exact scanStringRest_cons hcm hn hb tail
  · have hn : c ≠ '\n' := by
      rcases hc with rfl | rfl
      · rcases hm with rfl | rfl <;> decide
      · decide
    rw [h]
    exact scanStringRest_backslash hm hn tail
  · have hd : d ≠ '\n' := (ne_of_isPlain hm (hplain d List.mem_cons_self)).2.1
    have hds := scanStringRest_plain hm (fun x hx => hplain x (List.mem_cons_of_mem _ hx)) tail
    rw [h, List.cons_append, List.cons_append, scanStringRest_backslash hm hd, hds,
      Option.map_map]
    rfl

theorem scanStringRest_escapes {m : Char} (hm : IsMark m) (cs rest : List Char) :
    scanStringRest m (cs.flatMap (escape m) ++ m :: rest) =
      some ((cs.flatMap (escape m)).length + 1) := by
  induction cs with
  | nil =>
    rw [List.flatMap_nil, List.nil_append]
    cases rest with
    | nil => rw [scanStringRest, if_pos rfl]; rfl
    | cons d rest => rw [scanStringRest, if_pos rfl]; rfl
  | cons c cs ih =>
    rw [List.flatMap_cons, List.append_assoc, scanStringRest_escape hm, ih, List.length_append]
    simp only [Option.map_some, Option.some.injEq]
    omega

/-- A quoted text is one string literal, whatever comes after it. -/
theorem scanString_encode (cs rest : List Char) :
    scanString (encode cs ++ rest) = (encode cs).length := by
  have hm := isMark_mark cs
  have hrest := scanStringRest_escapes hm cs rest
  rw [encode, List.cons_append, scanString, if_pos hm.symm, List.append_assoc,
    List.singleton_append, hrest]
  simp

end Quoted

end TinyScript.Text
