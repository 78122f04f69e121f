import TinyScript.Proofs.Lexing.Lines

/-!
# Tokens cover their text

The tokens of a text, one after the other, are the text: what stands between them is ignored by
the language, and each stands in its place. A place is counted anew from the text before it
(`Position.ofText`), not step by step. Marks of indentation have no text of their own; they stand
behind a line end, in its place.

The lexemes of a text cover it by construction (`Cut.cover`); arranging them drops what is ignored
and adds marks (`Layout.cover_arrange`).
-/

namespace TinyScript

open Terminal (first?)

/-- The place behind a text: one line more than it has line ends, and one column more than it has
characters in its last line. -/
def Position.ofText (before : List Char) : Position where
  line := 1 + before.count '\n'
  column := 1 + (before.reverse.takeWhile (· ≠ '\n')).length

theorem Position.next_ofText (before : List Char) (c : Char) :
    (Position.ofText before).next c = Position.ofText (before ++ [c]) := by
  by_cases hc : c = '\n'
  · simp only [Position.next, hc, Position.ofText]
    simp
    omega
  · simp [Position.next, Position.ofText, hc]
    omega

theorem Position.after_ofText (before cs : List Char) :
    (Position.ofText before).after cs = Position.ofText (before ++ cs) := by
  induction cs generalizing before with
  | nil => simp
  | cons c cs ih =>
    have hstep := ih (before ++ [c])
    rw [← Position.next_ofText, List.append_assoc] at hstep
    exact hstep

/-- The lexemes are the text that follows `before`, each of its class and in its place. -/
inductive Lexeme.Cover : List Char → List Lexeme → List Char → Prop where
  | nil {before : List Char} : Cover before [] []
  | cons {before cs : List Char} {l : Lexeme} {ls : List Lexeme}
      (hmatch : l.terminal.Matches l.text) (hplace : l.position = .ofText before)
      (rest : Cover (before ++ l.text) ls cs) : Cover before (l :: ls) (l.text ++ cs)

/-- The lexemes of a cut cover the text, up to a place where no lexeme begins. -/
theorem Cut.cover (before cs : List Char) :
    ∃ done rest, cs = done ++ rest ∧
      Lexeme.Cover before (Cut.ofChars (.ofText before) cs).lexemes done ∧
      (Cut.ofChars (.ofText before) cs).stop =
        rest.head?.map (fun c => (c, Position.ofText (before ++ done))) ∧
      first? rest = none := by
  generalize hp : Position.ofText before = p
  fun_induction Cut.ofChars p cs generalizing before with
  | case1 => exact ⟨[], [], rfl, .nil, rfl, Terminal.first?_nil⟩
  | case2 p c rest hnone => exact ⟨[], c :: rest, rfl, .nil, by simp [hp], hnone⟩
  | case3 p c rest t n hfirst text ih =>
    obtain ⟨hscan, hpos⟩ := Terminal.scan_of_first? hfirst
    obtain ⟨done, left, hcut, hcover, hstop, hnone⟩ :=
      ih (before ++ text) (by rw [← hp, Position.after_ofText])
    refine ⟨text ++ done, left, ?_, .cons ?_ hp.symm hcover, ?_, hnone⟩
    · rw [List.append_assoc, ← hcut, List.take_append_drop]
    · subst hscan
      exact Terminal.matches_take_scan hpos
    · rw [← List.append_assoc]
      exact hstop

/-- A text that is cut to its end is covered as a whole. -/
theorem Cut.cover_of_stop {cs : List Char} (h : (Cut.ofChars .start cs).stop = none) :
    Lexeme.Cover [] (Cut.ofChars .start cs).lexemes cs := by
  obtain ⟨done, rest, hcut, hcover, hstop, -⟩ := Cut.cover [] cs
  have hstart : Position.ofText [] = Position.start := rfl
  rw [hstart, h] at hstop
  have hrest : rest = [] := by simpa using hstop.symm
  rw [hrest, List.append_nil] at hcut
  subst hcut
  exact hcover

theorem Lexeme.Cover.eq_nil {before : List Char} {ls : List Lexeme}
    (h : Lexeme.Cover before ls []) : ls = [] := by
  generalize hcs : ([] : List Char) = cs at h
  cases h with
  | nil => rfl
  | cons hmatch _ _ => exact absurd (List.append_eq_nil_iff.mp hcs.symm).1 hmatch.ne_nil

/-- The last lexeme of an ended text is a line end without a margin. -/
theorem Lexeme.Cover.last_line {before cs : List Char} {ls : List Lexeme}
    (h : Lexeme.Cover before ls cs) (hend : Source.Ended cs) :
    ∃ ms l, ls = ms ++ [l] ∧ l.terminal = .newline ∧ l.text.getLast? = some '\n' := by
  induction h with
  | nil => exact absurd rfl hend.ne_nil
  | @cons before cs l ls hmatch hplace rest ih =>
    by_cases hcs : cs = []
    · subst hcs
      rw [List.append_nil] at hend
      refine ⟨[], l, by rw [rest.eq_nil]; rfl, ?_, hend.line⟩
      rcases hmatch.of_mem_newline (List.mem_of_getLast? hend.line) with hl | hl
      · exact hl
      · exact absurd (hl ▸ hmatch) (hend.free _ (List.suffix_refl _))
    · obtain ⟨ms, l', rfl, hl'⟩ := ih (hend.of_suffix (List.suffix_append _ _) hcs)
      exact ⟨l :: ms, l', rfl, hl'⟩

/-- What the language ignores: blanks, or a line end behind a backslash. -/
def Ignored (w : List Char) : Prop := Terminal.blank.Matches w ∨ Terminal.continuation.Matches w

/-- The tokens are the text that follows `before`, each in its place, with ignored pieces between
them. Marks of indentation have the place of the line end before them. -/
inductive Token.Cover : List Char → List Token → List Char → Prop where
  | nil {before : List Char} : Cover before [] []
  | ignored {before piece cs : List Char} {ts : List Token} (hpiece : Ignored piece)
      (rest : Cover (before ++ piece) ts cs) : Cover before ts (piece ++ cs)
  | token {before cs : List Char} {t : Token} {marks ts : List Token}
      (hkind : t.kind ∉ [.indent, .dedent, .eof]) (htext : t.text ≠ "")
      (hplace : t.position = .ofText before)
      (hmarks : ∀ m ∈ marks, t.kind = .newline ∧ m.kind ∈ [.indent, .dedent] ∧
        m.position = t.position)
      (rest : Cover (before ++ t.text.toList) ts cs) :
      Cover before (t :: (marks ++ ts)) (t.text.toList ++ cs)

/-- What gives no token is ignored. -/
theorem Lexeme.ignored_of_kind? {l : Lexeme} (hmatch : l.terminal.Matches l.text)
    (h : l.kind? = none) : Ignored l.text := by
  unfold Lexeme.kind? at h
  split at h
  case h_4 hl => exact .inr (hl ▸ hmatch)
  case h_6 hl => exact .inl (hl ▸ hmatch)
  case h_5 => split at h <;> cases h
  all_goals cases h

theorem Lexeme.kind_not_mem {l : Lexeme} {k : Kind} (h : l.kind? = some k) :
    k ∉ [.indent, .dedent, .eof] := by
  unfold Lexeme.kind? at h
  split at h
  case h_5 => split at h <;> (cases h; simp)
  all_goals (cases h; try simp)

/-- The tokens of one lexeme are its text. -/
theorem Layout.cover_place {levels : List Nat} {before cs : List Char} {l : Lexeme}
    {ts : List Token} (hmatch : l.terminal.Matches l.text) (hplace : l.position = .ofText before)
    (h : Token.Cover (before ++ l.text) ts cs) :
    Token.Cover before ((Layout.place levels l).1 ++ ts) (l.text ++ cs) := by
  cases hk : l.kind? with
  | none =>
    simp only [Layout.place, hk]
    exact .ignored (Lexeme.ignored_of_kind? hmatch hk) h
  | some k =>
    have htext : String.ofList l.text ≠ "" := by simpa using hmatch.ne_nil
    have htoken : ∀ marks : List Token, (∀ m ∈ marks, k = .newline ∧ m.kind ∈ [.indent, .dedent] ∧
        m.position = l.position) →
        Token.Cover before (⟨k, String.ofList l.text, l.position⟩ :: (marks ++ ts))
          (l.text ++ cs) := by
      intro marks hmarks
      have hcover := Token.Cover.token (t := ⟨k, String.ofList l.text, l.position⟩)
        (Lexeme.kind_not_mem hk) htext hplace hmarks (by simpa using h)
      simpa using hcover
    by_cases hline : k = .newline
    · simp only [Layout.place, hk, hline, if_true]
      rw [← hline]
      refine htoken _ fun m hm => ?_
      obtain ⟨k', hk', rfl⟩ := List.mem_map.mp hm
      exact ⟨hline, by simpa using Layout.kind_of_mem_shift hk', rfl⟩
    · simp only [Layout.place, hk, hline, if_false]
      exact htoken [] (by simp)

/-- The tokens of lexemes that cover a text cover it, unless a margin meets no level. -/
theorem Layout.cover_arrange {levels levels' : List Nat} {before cs : List Char} {ls : List Lexeme}
    (h : Lexeme.Cover before ls cs) (harrange : (Layout.arrange levels ls).2 = .ok levels') :
    Token.Cover before (Layout.arrange levels ls).1 cs := by
  induction h generalizing levels with
  | nil => exact .nil
  | @cons before cs l ls hmatch hplace rest ih =>
    cases hout : (Layout.place levels l).2 with
    | error e =>
      rw [Layout.arrange_cons_of_error hout] at harrange
      cases harrange
    | ok levels'' =>
      rw [Layout.arrange_cons_of_ok hout] at harrange ⊢
      exact Layout.cover_place hmatch hplace (ih harrange)

/-- The last lexeme of an ended text closes every level. -/
theorem Layout.arrange_last_line {before cs : List Char} {ls : List Lexeme} {levels : List Nat}
    (h : Lexeme.Cover before ls cs) (hend : Source.Ended cs)
    (harrange : (Layout.arrange [] ls).2 = .ok levels) :
    levels = [] ∧ ∃ us line n, (Layout.arrange [] ls).1 =
      us ++ line :: List.replicate n ⟨.dedent, "", line.position⟩ ∧ line.kind = .newline := by
  obtain ⟨ms, l, rfl, hl, hlast⟩ := h.last_line hend
  cases hms : (Layout.arrange [] ms).2 with
  | error e =>
    rw [Layout.arrange_append_of_error hms] at harrange
    cases harrange
  | ok levels' =>
    have hplace := Layout.place_line (Layout.pos_of_arrange (by simp) hms) hl hlast
    rw [Layout.arrange_append_of_ok hms, Layout.arrange_cons_of_ok (congrArg Prod.snd hplace),
      hplace] at harrange ⊢
    cases harrange
    exact ⟨rfl, _, _, _, by rw [Layout.arrange, List.append_nil], rfl⟩

/-- After the lexemes of an ended text no level is open, and they give some token. -/
theorem Layout.arrange_ended {before cs : List Char} {ls : List Lexeme} {levels : List Nat}
    (h : Lexeme.Cover before ls cs) (hend : Source.Ended cs)
    (harrange : (Layout.arrange [] ls).2 = .ok levels) :
    levels = [] ∧ (Layout.arrange [] ls).1 ≠ [] := by
  obtain ⟨hlevels, us, line, n, htokens, -⟩ := Layout.arrange_last_line h hend harrange
  exact ⟨hlevels, by simp [htokens]⟩

/-- A text has tokens if it is cut to its end and every margin meets a level. No level is left open
at the end. -/
theorem tokenize_eq_ok_iff {source : String} {ts : List Token} :
    tokenize source = .ok ts ↔
      (Cut.ofChars .start (Source.padded source.toList)).stop = none ∧
      (Layout.arrange [] (Cut.ofChars .start (Source.padded source.toList)).lexemes).2 = .ok [] ∧
      ts = (Layout.arrange [] (Cut.ofChars .start (Source.padded source.toList)).lexemes).1 ++
        [Token.eofAt (Token.lastPosition
          (Layout.arrange [] (Cut.ofChars .start (Source.padded source.toList)).lexemes).1)] := by
  unfold tokenize
  simp only
  constructor
  · intro h
    split at h
    · cases h
    · cases h
    · next levels hok hnone =>
      have hcover := Cut.cover_of_stop hnone
      obtain ⟨rfl, -⟩ := Layout.arrange_ended hcover (Source.ended_padded _) hok
      cases h
      exact ⟨hnone, hok, by simp⟩
  · rintro ⟨hnone, hok, rfl⟩
    rw [hok, hnone]
    simp

/-- The tokens of a text cover it, padded: nothing is lost, nothing is made up, and every token is
in its place. A text in which some character begins no lexeme is covered up to that character, by
the tokens before it. -/
theorem tokenize_covers (source : String) :
    (∀ ts, tokenize source = .ok ts →
      ∃ us last, ts = us ++ [last, Token.eofAt last.position] ∧
        Token.Cover [] (us ++ [last]) (Source.padded source.toList)) ∧
    (∀ c p history, tokenize source = .error ⟨.unexpected c p, history⟩ →
      ∃ before rest, Source.padded source.toList = before ++ c :: rest ∧
        Token.Cover [] history before ∧ p = .ofText before ∧
        ∀ (t : Terminal) (w : List Char), w <+: c :: rest → ¬ t.Matches w) := by
  constructor
  · intro ts h
    obtain ⟨hstop, hok, rfl⟩ := tokenize_eq_ok_iff.mp h
    have hcover := Cut.cover_of_stop hstop
    obtain ⟨-, hne⟩ := Layout.arrange_ended hcover (Source.ended_padded _) hok
    obtain ⟨us, last, hus⟩ := (List.eq_nil_or_concat' _).resolve_left hne
    refine ⟨us, last, ?_, ?_⟩
    · simp [hus, Token.lastPosition]
    · rw [← hus]
      exact Layout.cover_arrange hcover hok
  · intro c p history h
    obtain ⟨done, rest, hcut, hcover, hstop, hnone⟩ := Cut.cover [] (Source.padded source.toList)
    have hstart : Position.ofText [] = Position.start := rfl
    rw [hstart] at hcover hstop
    unfold tokenize at h
    simp only at h
    split at h
    · cases h
    · next levels c' p' hok hstop' =>
      cases h
      rw [hstop'] at hstop
      obtain ⟨c', hc', hplace⟩ := Option.map_eq_some_iff.mp hstop.symm
      cases hplace
      obtain ⟨rest', rfl⟩ := List.head?_eq_some_iff.mp hc'
      exact ⟨done, rest', hcut, Layout.cover_arrange hcover hok, rfl,
        (Terminal.first?_eq_none_iff_matches _).mp hnone⟩
    · cases h

/-- A block with a comment and a continued line. -/
def blockText : String := "if a: # b\n\tx = \\\n\t'?'"

def blockTokens : List Token :=
  [⟨.keyword .ifWord, "if", ⟨1, 1⟩⟩, ⟨.name, "a", ⟨1, 4⟩⟩, ⟨.symbol .colon, ":", ⟨1, 5⟩⟩,
    ⟨.newline, "# b\n\t", ⟨1, 7⟩⟩, ⟨.indent, "\t", ⟨1, 7⟩⟩, ⟨.name, "x", ⟨2, 2⟩⟩,
    ⟨.symbol .assign, "=", ⟨2, 4⟩⟩, ⟨.string, "'?'", ⟨3, 2⟩⟩, ⟨.newline, "\n", ⟨3, 5⟩⟩]

/-- The tokens before the unknown character of `a ⏎ ⏎ ⇥ b ?`. -/
def strayTokens : List Token :=
  [⟨.name, "a", ⟨1, 1⟩⟩, ⟨.newline, "\n\n\t", ⟨1, 2⟩⟩, ⟨.indent, "\t", ⟨1, 2⟩⟩,
    ⟨.name, "b", ⟨3, 2⟩⟩]

/-- The tokens of a block, and those before an unknown character in the third line of a text. -/
theorem tokenize_block_covers :
    (∃ us last, blockTokens ++ [⟨.dedent, "", ⟨3, 5⟩⟩, Token.eofAt ⟨3, 5⟩] =
        us ++ [last, Token.eofAt last.position] ∧
      Token.Cover [] (us ++ [last]) (Source.padded blockText.toList)) ∧
    (∃ before rest, Source.padded "a\n\n\tb ?".toList = before ++ '?' :: rest ∧
      Token.Cover [] strayTokens before ∧ Position.ofText before = ⟨3, 4⟩) := by
  constructor
  · exact (tokenize_covers blockText).1 _ (by decide +kernel)
  · obtain ⟨before, rest, htext, hcover, hplace, -⟩ :=
      (tokenize_covers "a\n\n\tb ?").2 '?' ⟨3, 4⟩ strayTokens (by decide +kernel)
    exact ⟨before, rest, htext, hcover, hplace.symm⟩

end TinyScript
