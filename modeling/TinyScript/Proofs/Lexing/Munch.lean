import Mathlib.Data.List.MinMax
import TinyScript.Proofs.Lexing.Boundary
import TinyScript.Proofs.Lexing.Indentation

/-!
# The longest match

At every place of a text the classes of lexemes are tried in a fixed order, and the first that finds
something is taken. This class also finds most (`Terminal.scan_lt_of_first?`): a float is tried
before a number and a symbol of two characters before one of a single character, and no other two
classes find something at one place.

An `Alternative` is what may be found at a place: a lexeme of a class, a keyword, or a comment
without its line end. Keywords are also names, and comments also line ends, so the lexeme that is
taken is the longest of all alternatives, and the only one of its length but for a keyword. Taking
the longest alternative at every place therefore gives the same tokens, in whatever order the
alternatives are listed (`tokenize_maximal_munch`).
-/

namespace TinyScript

open Text (isDigit isWord)

/-- What may be found at a place of a text. -/
inductive Alternative where
  | terminal (t : Terminal)
  | keyword (k : Keyword)
  /-- A comment, without the line end behind it. -/
  | comment
  deriving DecidableEq, Repr

namespace Alternative

/-- The text is one of the pattern of the alternative. -/
def Matches : Alternative → List Char → Prop
  | terminal t, w => t.Matches w
  | keyword k, w => w = k.text.toList
  | comment, w => ∃ cs, w = '#' :: cs ∧ ∀ c ∈ cs, c ≠ '\n'

/-- How many characters at the front belong to the alternative. -/
def scan : Alternative → List Char → Nat
  | terminal t, cs => t.scan cs
  | keyword k, cs => if k.text.toList.isPrefixOf cs then k.text.toList.length else 0
  | comment, '#' :: cs => Terminal.run (· ≠ '\n') cs + 1
  | comment, _ => 0

/-- The class of its lexemes. Keywords are told from other names by their spelling only. -/
def toTerminal : Alternative → Terminal
  | terminal t => t
  | keyword _ => .name
  | comment => .newline

def all : List Alternative :=
  Terminal.order.map terminal ++ Keyword.all.map keyword ++ [comment]

theorem mem_all (a : Alternative) : a ∈ all := by
  cases a with
  | terminal t => simp [all, Terminal.mem_order]
  | keyword k => simp [all, Keyword.mem_all]
  | comment => simp [all]

theorem Matches.toTerminal {a : Alternative} {w : List Char} (h : a.Matches w) :
    a.toTerminal.Matches w := by
  cases a with
  | terminal t => exact h
  | keyword k =>
    rw [show w = k.text.toList from h]
    cases k <;> exact ⟨_, _, rfl, by decide, Text.forall_mem_of_all (by decide)⟩
  | comment =>
    obtain ⟨cs, rfl, hcs⟩ := h
    exact ⟨[_], by simp, List.forall_mem_singleton.mpr (.comment hcs), List.flatten_singleton.symm⟩

/-- An alternative finds a text of its pattern. -/
theorem exists_of_scan {a : Alternative} {cs : List Char} (h : 0 < a.scan cs) :
    ∃ w rest, cs = w ++ rest ∧ a.Matches w ∧ a.scan cs = w.length := by
  cases a with
  | terminal t =>
    refine ⟨_, _, (List.take_append_drop _ cs).symm, Terminal.matches_take_scan h, ?_⟩
    exact (List.length_take_of_le (Terminal.scan_le_length t cs)).symm
  | keyword k =>
    simp only [scan] at h ⊢
    split at h
    · next hpre =>
      obtain ⟨rest, rfl⟩ := List.isPrefixOf_iff_prefix.mp hpre
      exact ⟨_, rest, rfl, rfl, if_pos hpre⟩
    · cases h
  | comment =>
    cases cs with
    | nil => cases h
    | cons c cs =>
      by_cases hc : c = '#'
      · subst hc
        refine ⟨'#' :: cs.takeWhile (· ≠ '\n'), cs.drop (Terminal.run (· ≠ '\n') cs), ?_, ?_, rfl⟩
        · rw [List.cons_append, Terminal.takeWhile_append_drop_run]
        · exact ⟨_, rfl, fun c hc => by simpa using Terminal.of_mem_takeWhile hc⟩
      · simp [scan, hc] at h

theorem scan_le_toTerminal (a : Alternative) (cs : List Char) :
    a.scan cs ≤ a.toTerminal.scan cs := by
  obtain hzero | hpos := Nat.eq_zero_or_pos (a.scan cs)
  · rw [hzero]
    exact Nat.zero_le _
  · obtain ⟨w, rest, rfl, hmatch, hscan⟩ := exists_of_scan hpos
    rw [hscan]
    exact hmatch.toTerminal.le_scan rest

end Alternative

namespace Terminal

variable {t u : Terminal} {w rest cs : List Char} {n : Nat}

/-- Every class but the one that is taken finds less. -/
theorem scan_lt_of_first? (h : first? cs = some (t, n)) (hne : u ≠ t) : u.scan cs < n := by
  obtain hzero | hpos := Nat.eq_zero_or_pos (u.scan cs)
  · rw [hzero]
    exact (scan_of_first? h).2
  obtain ⟨w, rest, rfl, hmatch, hscan⟩ := Alternative.exists_of_scan (a := .terminal u) hpos
  rw [show u.scan (w ++ rest) = w.length from hscan]
  -- What is cut off there is not of the class `u`.
  have hother : ∀ k, first? (w ++ rest) ≠ some (u, k) := by
    intro k hu
    rw [hu] at h
    cases h
    exact hne rfl
  by_cases hline : u = .newline
  · subst hline
    exact absurd (first?_of_scanBreaks hpos) (hother _)
  cases rest with
  | nil => exact absurd (hmatch.first?_append hline (by simp)) (hother _)
  | cons c rest =>
    rcases allows_of_scan hmatch hscan with hc | ⟨rfl, rfl⟩ | ⟨s, hs, rfl, rfl⟩
    · exact absurd (hmatch.first?_append hline (by simpa using hc)) (hother _)
    · obtain ⟨hfirst, hlt⟩ := first?_point hmatch.1 hmatch.2 rest
      rw [hfirst] at h
      cases h
      exact hlt
    · rw [show w = s.chars from hmatch] at h ⊢
      simp only [List.mem_cons, List.not_mem_nil, or_false] at hs
      rcases hs with rfl | rfl | rfl <;> cases h <;> exact Nat.lt_succ_self 1

theorem scan_le_of_first? (h : first? cs = some (t, n)) (u : Terminal) : u.scan cs ≤ n := by
  by_cases hu : u = t
  · rw [hu, (scan_of_first? h).1]
  · exact (scan_lt_of_first? h hu).le

theorem eq_of_matches (h : first? (w ++ rest) = some (t, w.length)) (hu : u.Matches w) : u = t := by
  by_contra hne
  exact absurd (hu.le_scan rest) (Nat.not_le.mpr (scan_lt_of_first? h hne))

/-- The class `t` is taken for the text `w` at the front of `w ++ rest`, and of all alternatives
there it is the longest, alone but for a keyword. -/
structure Wins (t : Terminal) (w rest : List Char) : Prop where
  taken : first? (w ++ rest) = some (t, w.length)
  isMatch : t.Matches w
  longest : ∀ (a : Alternative) v, a.Matches v → v <+: w ++ rest → v.length ≤ w.length
  only : ∀ a : Alternative, a.Matches w → a = .terminal t ∨ ∃ k, a = .keyword k ∧ t = .name

/-- What is taken wins, as long as some line ends behind it. -/
theorem wins_of_first? (h : first? (w ++ rest) = some (t, w.length)) (hline : '\n' ∈ w ++ rest) :
    Wins t w rest where
  taken := h
  isMatch := matches_of_first? h
  longest := by
    rintro a v hmatch ⟨more, hv⟩
    have hle := hmatch.toTerminal.le_scan more
    rw [hv] at hle
    exact hle.trans (scan_le_of_first? h a.toTerminal)
  only := by
    intro a hmatch
    have ht : a.toTerminal = t := eq_of_matches h hmatch.toTerminal
    cases a with
    | terminal u => exact .inl (congrArg _ ht)
    | keyword k => exact .inr ⟨k, rfl, ht.symm⟩
    | comment =>
      -- Line ends that begin with a comment go on to the end of the line.
      subst ht
      obtain ⟨hscan, hpos⟩ := scan_of_first? h
      rw [← hscan] at hpos
      have hmem := mem_take_scanBreaks hline hpos
      rw [show scanBreaks .outside (w ++ rest) = w.length from hscan, List.take_left] at hmem
      obtain ⟨cs, rfl, hcs⟩ := hmatch
      simp only [List.mem_cons, Char.reduceEq, false_or] at hmem
      exact absurd rfl (hcs _ hmem)

end Terminal

open Terminal

/-- The alternative that finds most, the first of the list if there are several. -/
def Alternative.longest? (alts : List Alternative) (cs : List Char) : Option Alternative :=
  (alts.argmax (·.scan cs)).filter (0 < ·.scan cs)

theorem Alternative.scan_pos_of_longest? {alts : List Alternative} {cs : List Char}
    {a : Alternative} (h : longest? alts cs = some a) : 0 < a.scan cs := by
  simpa using (Option.filter_eq_some_iff.mp h).2

namespace Cut

/-- Cuts a text that begins at `p` by the longest alternatives. -/
def munch (alts : List Alternative) (p : Position) (cs : List Char) : Cut :=
  match cs with
  | [] => ⟨[], none⟩
  | c :: rest =>
    match _h : Alternative.longest? alts (c :: rest) with
    | none => ⟨[], some (c, p)⟩
    | some a =>
      let text := (c :: rest).take (a.scan (c :: rest))
      cons ⟨a.toTerminal, text, p⟩
        (munch alts (p.after text) ((c :: rest).drop (a.scan (c :: rest))))
termination_by cs.length
decreasing_by
  have := Alternative.scan_pos_of_longest? _h
  simp only [List.length_drop, List.length_cons]
  omega

theorem munch_of_none {alts : List Alternative} {p : Position} {c : Char} {rest : List Char}
    (h : Alternative.longest? alts (c :: rest) = none) :
    munch alts p (c :: rest) = ⟨[], some (c, p)⟩ := by
  rw [munch]
  split <;> simp_all

theorem munch_of_some {alts : List Alternative} {p : Position} {c : Char} {rest : List Char}
    {a : Alternative} (h : Alternative.longest? alts (c :: rest) = some a) :
    munch alts p (c :: rest) =
      cons ⟨a.toTerminal, (c :: rest).take (a.scan (c :: rest)), p⟩
        (munch alts (p.after ((c :: rest).take (a.scan (c :: rest))))
          ((c :: rest).drop (a.scan (c :: rest)))) := by
  rw [munch]
  split <;> simp_all

/-- The tokens of a text that was cut so. -/
def tokens (cut : Cut) : Except LexicalError (List Token) :=
  let (tokens, outcome) := Layout.arrange [] cut.lexemes
  match outcome, cut.stop with
  | .error e, _ => .error ⟨.mismatch e, tokens⟩
  | .ok _, some (c, p) => .error ⟨.unexpected c p, tokens⟩
  | .ok levels, none =>
    let last := Token.lastPosition tokens
    .ok (tokens ++ levels.map (fun _ => ⟨.dedent, "", last⟩) ++ [Token.eofAt last])

end Cut

theorem tokenize_eq_tokens (source : String) : tokenize source = (Source.cut source).tokens := rfl

section Munch

variable {alts : List Alternative} {cs : List Char} {t : Terminal} {n : Nat}

theorem Alternative.longest?_of_none (h : first? cs = none) : longest? alts cs = none := by
  have hnone : ∀ a : Alternative, a.scan cs = 0 := by
    intro a
    have hle := a.scan_le_toTerminal cs
    rw [(first?_eq_none_iff cs).mp h] at hle
    exact Nat.le_zero.mp hle
  simp [longest?, hnone]

/-- The longest alternative is of the class that is taken first. -/
theorem Alternative.longest?_of_some (halts : ∀ a, a ∈ alts) (h : first? cs = some (t, n))
    (hline : '\n' ∈ cs) :
    ∃ a, longest? alts cs = some a ∧ a.toTerminal = t ∧ a.scan cs = n := by
  cases hmax : alts.argmax (·.scan cs) with
  | none =>
    rw [List.argmax_eq_none.mp hmax] at halts
    exact absurd (halts .comment) List.not_mem_nil
  | some a =>
    obtain ⟨hscan, hpos⟩ := scan_of_first? h
    have hle : n ≤ a.scan cs := by
      rw [← hscan]
      exact List.le_of_mem_argmax (f := (scan · cs)) (halts (.terminal t)) hmax
    have heq : a.scan cs = n :=
      Nat.le_antisymm ((a.scan_le_toTerminal cs).trans (scan_le_of_first? h _)) hle
    refine ⟨a, ?_, ?_, heq⟩
    · simp [longest?, hmax, heq, hpos]
    · obtain ⟨w, rest, rfl, hmatch, hlength⟩ := exists_of_scan (hpos.trans_le hle)
      rw [← heq, hlength] at h
      exact eq_of_matches h hmatch.toTerminal

/-- Taking the longest alternative cuts an ended text as taking the first class does. -/
theorem Cut.munch_eq (halts : ∀ a, a ∈ alts) (p : Position) (cs : List Char)
    (hend : cs ≠ [] → Source.Ended cs) : munch alts p cs = ofChars p cs := by
  fun_induction Cut.ofChars p cs with
  | case1 p => rw [munch]
  | case2 p c rest hnone => exact munch_of_none (Alternative.longest?_of_none hnone)
  | case3 p c rest t n hfirst text ih =>
    have hended := hend (List.cons_ne_nil c rest)
    obtain ⟨a, hlongest, rfl, rfl⟩ :=
      Alternative.longest?_of_some halts hfirst (List.mem_of_getLast? hended.line)
    rw [munch_of_some hlongest, ih fun hne => hended.of_suffix (List.drop_suffix _ _) hne]

/-- A lexeme of a cut is what is taken at its place, behind those before it. -/
theorem Cut.first?_of_lexemes (done cs : List Char) (before : List Lexeme) {after : List Lexeme}
    {l : Lexeme} (h : (ofChars (.ofText done) cs).lexemes = before ++ l :: after) :
    ∃ rest, cs = before.flatMap Lexeme.text ++ (l.text ++ rest) ∧
      l.position = .ofText (done ++ before.flatMap Lexeme.text) ∧
      first? (l.text ++ rest) = some (l.terminal, l.text.length) := by
  generalize hp : Position.ofText done = p at h
  fun_induction Cut.ofChars p cs generalizing done before with
  | case1 => simp at h
  | case2 => simp at h
  | case3 p c rest t n hfirst text ih =>
    have hlength : text.length = n := List.length_take_of_le (le_length_of_first? hfirst)
    have hcut : text ++ (c :: rest).drop n = c :: rest := List.take_append_drop n _
    cases before with
    | nil =>
      cases h
      refine ⟨(c :: rest).drop n, hcut.symm, ?_, ?_⟩
      · rw [List.flatMap_nil, List.append_nil]
        exact hp.symm
      · rw [hcut, hlength]
        exact hfirst
    | cons m before =>
      obtain ⟨rfl, hrest⟩ := List.cons.inj h
      obtain ⟨rest', hdrop, hplace, htaken⟩ :=
        ih (done ++ text) before (by rw [← Position.after_ofText, hp]) hrest
      refine ⟨rest', ?_, ?_, htaken⟩
      · rw [List.flatMap_cons, List.append_assoc, ← hdrop, hcut]
      · rw [hplace, List.flatMap_cons, List.append_assoc]

end Munch

theorem Lexeme.ofText?_of_name {l : Lexeme} (h : l.kind? = some .name) :
    Keyword.ofText? (String.ofList l.text) = none := by
  unfold Lexeme.kind? at h
  repeat' split at h
  all_goals simp_all

theorem Lexeme.ofText?_of_keyword {l : Lexeme} {k : Keyword} (h : l.kind? = some (.keyword k)) :
    Keyword.ofText? (String.ofList l.text) = some k := by
  unfold Lexeme.kind? at h
  repeat' split at h
  all_goals simp_all

/-- A token that is no mark and not the end of the input comes from a lexeme. -/
theorem exists_lexeme_of_produced {source : String} {t : Token}
    (h : t ∈ produced (tokenize source)) (hkind : t.kind ∉ [.indent, .dedent, .eof]) :
    ∃ l ∈ (Source.cut source).lexemes, l.token? = some t := by
  simp only [List.mem_cons, List.not_mem_nil, or_false, not_or] at hkind
  obtain ⟨rest, hproduced, hrest⟩ := produced_tokenize source
  rw [hproduced] at h
  rcases List.mem_append.mp h with h | h
  · exact (Layout.mem_arrange h).resolve_right (not_or.mpr ⟨hkind.1, hkind.2.1⟩)
  · exact absurd (hrest t h) hkind.2.2

/-- Every lexeme of a text wins at its place. -/
theorem wins_of_lexemes {source : String} {before after : List Lexeme} {l : Lexeme}
    (h : (Source.cut source).lexemes = before ++ l :: after) :
    ∃ rest, Source.padded source.toList = before.flatMap Lexeme.text ++ (l.text ++ rest) ∧
      l.position = .ofText (before.flatMap Lexeme.text) ∧ Wins l.terminal l.text rest := by
  obtain ⟨rest, hcut, hplace, htaken⟩ := Cut.first?_of_lexemes [] _ _ h
  refine ⟨rest, hcut, hplace, wins_of_first? htaken ?_⟩
  have hne : l.text ++ rest ≠ [] := by
    intro hnil
    rw [hnil, first?_nil] at htaken
    cases htaken
  have hended := (Source.ended_padded source.toList).of_suffix ⟨_, hcut.symm⟩ hne
  exact List.mem_of_getLast? hended.line

/-- Every lexeme of a text, whether it gives a token or is ignored, is the longest alternative at
its place, and no other is as long but a keyword against a name. So the tokens are those that come
from taking the longest alternative, in whatever order the alternatives are listed. No name is spelt
as a keyword, and no keyword is the beginning of a longer name. -/
theorem tokenize_maximal_munch (source : String) :
    (∀ before l after, (Source.cut source).lexemes = before ++ l :: after →
      ∃ rest, Source.padded source.toList = before.flatMap Lexeme.text ++ (l.text ++ rest) ∧
        l.position = .ofText (before.flatMap Lexeme.text) ∧ Wins l.terminal l.text rest) ∧
    (∀ alts : List Alternative, (∀ a, a ∈ alts) →
      (Cut.munch alts .start (Source.padded source.toList)).tokens = tokenize source) ∧
    ∀ t ∈ produced (tokenize source),
      (t.kind = .name → ∀ k : Keyword, t.text ≠ k.text) ∧
      ∀ k, t.kind = .keyword k → t.text = k.text ∧
        ∃ done rest, Source.padded source.toList = done ++ (t.text.toList ++ rest) ∧
          t.position = .ofText done ∧
          ∀ v, Terminal.name.Matches v → v <+: t.text.toList ++ rest →
            v.length ≤ t.text.toList.length := by
  refine ⟨fun before l after h => wins_of_lexemes h, fun alts halts => ?_, fun t ht => ⟨?_, ?_⟩⟩
  · rw [Cut.munch_eq halts _ _ fun _ => Source.ended_padded _, tokenize_eq_tokens]
    rfl
  · intro hname k hk
    obtain ⟨l, -, htoken⟩ := exists_lexeme_of_produced ht (by simp [hname])
    obtain ⟨kind, hkind, rfl⟩ := Option.map_eq_some_iff.mp htoken
    have hnone := Lexeme.ofText?_of_name (hkind.trans (congrArg some hname))
    rw [show String.ofList l.text = k.text from hk, Keyword.ofText?_text] at hnone
    cases hnone
  · intro k hkeyword
    obtain ⟨l, hl, htoken⟩ := exists_lexeme_of_produced ht (by simp [hkeyword])
    obtain ⟨kind, hkind, rfl⟩ := Option.map_eq_some_iff.mp htoken
    have hsome := Lexeme.ofText?_of_keyword (hkind.trans (congrArg some hkeyword))
    refine ⟨(Keyword.text_of_ofText? hsome).symm, ?_⟩
    obtain ⟨before, after, hcut⟩ := List.append_of_mem hl
    obtain ⟨rest, htext, hplace, hwins⟩ := wins_of_lexemes hcut
    rw [String.toList_ofList]
    exact ⟨_, rest, htext, hplace, fun v => hwins.longest (.terminal .name) v⟩

/-- Names that begin with keywords, a float that begins with a number, and a comment. -/
def crowdedText : String := "if iffy<=1.5:#no\n print printer"

def crowdedTokens : List Token :=
  [⟨.keyword .ifWord, "if", ⟨1, 1⟩⟩, ⟨.name, "iffy", ⟨1, 4⟩⟩, ⟨.symbol .le, "<=", ⟨1, 8⟩⟩,
    ⟨.float, "1.5", ⟨1, 10⟩⟩, ⟨.symbol .colon, ":", ⟨1, 13⟩⟩, ⟨.newline, "#no\n ", ⟨1, 14⟩⟩,
    ⟨.indent, " ", ⟨1, 14⟩⟩, ⟨.keyword .printWord, "print", ⟨2, 2⟩⟩, ⟨.name, "printer", ⟨2, 8⟩⟩,
    ⟨.newline, "\n", ⟨2, 15⟩⟩, ⟨.dedent, "", ⟨2, 15⟩⟩, ⟨.eof, "", ⟨2, 15⟩⟩]

/-- The order of the alternatives may be turned around. -/
theorem tokenize_crowdedText_munch :
    (Cut.munch Alternative.all.reverse .start (Source.padded crowdedText.toList)).tokens =
        .ok crowdedTokens ∧
      ∃ done rest, Source.padded crowdedText.toList = done ++ ("print".toList ++ rest) ∧
        Position.ofText done = ⟨2, 2⟩ ∧
        ∀ v, Terminal.name.Matches v → v <+: "print".toList ++ rest → v.length ≤ 5 := by
  have htokens : tokenize crowdedText = .ok crowdedTokens := by decide +kernel
  obtain ⟨-, hmunch, hwords⟩ := tokenize_maximal_munch crowdedText
  constructor
  · rw [hmunch _ fun a => List.mem_reverse.mpr a.mem_all, htokens]
  · obtain ⟨-, done, rest, htext, hplace, hlongest⟩ :=
      (hwords ⟨.keyword .printWord, "print", ⟨2, 2⟩⟩ (by rw [htokens]; decide)).2 .printWord rfl
    exact ⟨done, rest, htext, hplace.symm, hlongest⟩

end TinyScript
