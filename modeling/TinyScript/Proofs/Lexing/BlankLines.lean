import TinyScript.Proofs.Parsing.Alike

/-!
# Lines that say nothing

A line that is empty or holds a comment only may stand between any two lines of a text, with any
margin of its own. The line end before it takes it in, together with the line ends that follow, and
the margin it leaves is still that of the next line (`Cut.ofChars_alike_of_blankLine`). The last
line of a text is ended anew if such a line makes it look continued, and that line end is taken in
as well. So the tokens are alike, and the program is the same (`parseProgram_ignores_blankLine`).
-/

namespace TinyScript

open Text (forall_mem_of_all)
open Terminal (scanBreaks isMargin isBlank IsLineEnd)

/-- A margin, perhaps a comment, and a line end. -/
inductive BlankLine : List Char → Prop where
  | empty {margin e : List Char} (hmargin : ∀ c ∈ margin, isMargin c = true) (he : IsLineEnd e) :
      BlankLine (margin ++ e)
  | comment {margin text e : List Char} (hmargin : ∀ c ∈ margin, isMargin c = true)
      (htext : ∀ c ∈ text, c ≠ '\n') (he : IsLineEnd e) : BlankLine (margin ++ '#' :: (text ++ e))

theorem Terminal.scanBreaks_lineEnd {e : List Char} (he : IsLineEnd e) (state : Margin)
    (cs : List Char) : scanBreaks state (e ++ cs) = e.length + scanBreaks .inside cs := by
  rcases he with rfl | rfl
  · exact (scanBreaks_line state cs).trans (Nat.add_comm _ _)
  · exact (scanBreaks_return state cs).trans (Nat.add_comm _ _)

namespace BlankLine

variable {line : List Char}

/-- Line ends go on through such a line. -/
theorem scanBreaks_append (h : BlankLine line) (cs : List Char) :
    scanBreaks .inside (line ++ cs) = line.length + scanBreaks .inside cs := by
  cases h with
  | empty hmargin he =>
    rw [List.append_assoc, Terminal.scanBreaks_margin _ hmargin, Terminal.scanBreaks_lineEnd he,
      List.length_append]
    omega
  | @comment margin text e hmargin htext he =>
    have hcomment : scanBreaks .inside ('#' :: (text ++ (e ++ cs))) =
        text.length + (e.length + scanBreaks .inside cs) + 1 := by
      rw [Terminal.scanBreaks_hash, Terminal.scanBreaks_comment _ htext,
        Terminal.scanBreaks_lineEnd he]
    rw [List.append_assoc, List.cons_append, List.append_assoc,
      Terminal.scanBreaks_margin _ hmargin, hcomment]
    simp only [List.length_append, List.length_cons]
    omega

theorem getLast? (h : BlankLine line) : line.getLast? = some '\n' := by
  have hend : ∀ {e : List Char}, IsLineEnd e → e ≠ [] ∧ e.getLast? = some '\n' := by
    rintro e (rfl | rfl) <;> decide
  cases h with
  | empty _ he => rw [List.getLast?_append_of_ne_nil _ (hend he).1, (hend he).2]
  | @comment margin text _ _ _ he =>
    rw [← List.cons_append, ← List.append_assoc, List.getLast?_append_of_ne_nil _ (hend he).1,
      (hend he).2]

end BlankLine

theorem Token.Alike.trans {t u v : Token} (h : t.Alike u) (h' : u.Alike v) : t.Alike v := by
  refine ⟨h'.1.trans h.1, ?_⟩
  rcases h.2 with hk | htext
  · exact .inl hk
  · exact h'.2.imp (fun hk => h.1 ▸ hk) (fun htext' => htext'.trans htext)

/-- The lexemes of the cuts give alike tokens, and both reach the ends of their texts or neither
does. -/
structure Cut.Alike (a b : Cut) : Prop where
  lexemes : List.Forall₂ (Lexeme.Related Token.Alike) a.lexemes b.lexemes
  stop : b.stop = none ↔ a.stop = none

namespace Cut

theorem alike_refl (a : Cut) : a.Alike a :=
  ⟨List.forall₂_same.mpr fun l _ => .refl Token.alike_refl l, .rfl⟩

theorem Alike.trans {a b c : Cut} (h : a.Alike b) (h' : b.Alike c) : a.Alike c := by
  refine ⟨?_, h'.stop.trans h.stop⟩
  obtain ⟨hlen, hget⟩ := List.forall₂_iff_get.mp h.lexemes
  obtain ⟨hlen', hget'⟩ := List.forall₂_iff_get.mp h'.lexemes
  refine List.forall₂_iff_get.mpr ⟨hlen.trans hlen', fun i hi hi' => ?_⟩
  exact .trans (fun h h' => h.trans h') (hget i hi (hlen ▸ hi)) (hget' i (hlen ▸ hi) hi')

theorem Alike.prepend {a b : Cut} {ls ms : List Lexeme} (h : a.Alike b)
    (hls : List.Forall₂ (Lexeme.Related Token.Alike) ls ms) : (a.prepend ls).Alike (b.prepend ms) :=
  ⟨List.rel_append hls h.lexemes, h.stop⟩

/-- Wherever a text begins, its cuts are alike. -/
theorem ofChars_alike_anywhere (p q : Position) (cs : List Char) :
    (ofChars p cs).Alike (ofChars q cs) where
  lexemes := (ofChars_alike p q cs).1.imp fun _ _ =>
    Lexeme.Alike.related fun _ _ _ _ => ⟨rfl, .inr rfl⟩
  stop := ⟨(ofChars_alike q p cs).2, (ofChars_alike p q cs).2⟩

end Cut

/-- The margin behind a line end does not depend on the lines before it. -/
theorem Layout.margin_append_of_getLast? {text : List Char} (h : text.getLast? = some '\n')
    (more : List Char) : Layout.margin (text ++ more) = Layout.margin ('\n' :: more) := by
  obtain ⟨text, rfl⟩ := List.getLast?_eq_some_iff.mp h
  rw [List.append_assoc, List.singleton_append, Layout.margin_append List.mem_cons_self]

/-- A line end takes in such a line without a change of its margin. -/
theorem Lexeme.extend_related {l : Lexeme} (hl : l.terminal = .newline)
    (hlast : l.text.getLast? = some '\n') {line : List Char} (hline : BlankLine line)
    (more : List Char) : (l.extend more).Related Token.Alike (l.extend (line ++ more)) where
  kind := by
    rw [Lexeme.kind?_of_newline (l := l.extend more) hl]
    exact Lexeme.kind?_of_newline hl
  token k hk := by
    obtain rfl : Kind.newline = k :=
      Option.some.inj ((Lexeme.kind?_of_newline (l := l.extend more) hl).symm.trans hk)
    exact ⟨rfl, .inl (by simp)⟩
  margin _ := by
    have hlast' : (l.text ++ line).getLast? = some '\n' := by
      rw [List.getLast?_append, hline.getLast?, Option.some_or]
    simp only [Lexeme.extend]
    rw [← List.append_assoc, Layout.margin_append_of_getLast? hlast',
      Layout.margin_append_of_getLast? hlast]
  mark _ _ _ := ⟨rfl, .inr rfl⟩

/-- Behind an ended text, a line that says nothing leaves the cut of the whole as it is. -/
theorem Cut.ofChars_alike_of_blankLine {cs line : List Char} (hend : Source.Ended cs)
    (hline : BlankLine line) (ds : List Char) :
    (Cut.ofChars .start (cs ++ ds)).Alike (Cut.ofChars .start (cs ++ (line ++ ds))) := by
  by_cases hstop : (Cut.ofChars .start cs).stop = none
  · obtain ⟨ls, l, q, hls, hl, hlast, hcut⟩ := Cut.ofChars_append hend hstop ds
    obtain ⟨ls', l', q', hls', -, -, hcut'⟩ := Cut.ofChars_append hend hstop (line ++ ds)
    obtain ⟨rfl, hl'⟩ := List.append_inj' (hls.symm.trans hls') rfl
    obtain rfl := (List.cons.inj hl').1
    rw [hcut, hcut', hline.scanBreaks_append, List.take_length_add_append,
      List.drop_length_add_append]
    refine (Cut.ofChars_alike_anywhere q q' _).prepend (List.rel_append ?_ (.cons ?_ .nil))
    · exact List.forall₂_same.mpr fun l _ => .refl Token.alike_refl l
    · exact Lexeme.extend_related hl hlast hline _
  · rw [Cut.ofChars_append_of_stop hend.line hstop, Cut.ofChars_append_of_stop hend.line hstop]
    exact Cut.alike_refl _

namespace Source

theorem dangling_append_of_dangling {ds : List Char} (h : dangling ds = true) (cs : List Char) :
    dangling (cs ++ ds) = true := by
  simp only [dangling, List.reverse_append, decide_eq_true_eq] at h ⊢
  have hne : ((ds.reverse.dropWhile fun c => c = '\r' || c = '\n').dropWhile isBlank) ≠ [] := by
    intro hnil
    simp [hnil] at h
  have hne' : (ds.reverse.dropWhile fun c => c = '\r' || c = '\n') ≠ [] := by
    intro hnil
    simp [hnil] at hne
  rw [List.dropWhile_append, if_neg (by simpa using hne'), List.dropWhile_append,
    if_neg (by simpa using hne), List.head?_append_of_ne_nil _ hne, h]

/-- A line in front leaves the padding of a text as it is, or makes it longer by a line end. -/
theorem padded_append_cases (line : List Char) {ds : List Char} (hds : ds ≠ []) :
    padded (line ++ ds) = line ++ padded ds ∨
      padded (line ++ ds) = line ++ (padded ds ++ ['\n']) := by
  simp only [padded_eq, padding, List.getLast?_append_of_ne_nil _ hds]
  cases hds : dangling ds with
  | true =>
    rw [dangling_append_of_dangling hds]
    exact .inl (by simp)
  | false =>
    cases dangling (line ++ ds) with
    | true => exact .inr (by simp)
    | false => exact .inl (by simp)

theorem padded_insert {cs line : List Char} (hlast : cs.getLast? = some '\n')
    (hfree : dangling cs = false) (hline : line.getLast? = some '\n') (ds : List Char) :
    ∃ es, padded (cs ++ ds) = cs ++ es ∧
      (padded (cs ++ (line ++ ds)) = cs ++ (line ++ es) ∨
        padded (cs ++ (line ++ ds)) = cs ++ (line ++ (es ++ ['\n']))) := by
  have hne : line ++ ds ≠ [] := by
    intro hnil
    rw [(List.append_eq_nil_iff.mp hnil).1] at hline
    cases hline
  rw [padded_append hlast hfree hne]
  by_cases hds : ds = []
  · subst hds
    refine ⟨[], by rw [List.append_nil, padded_eq_self hlast hfree], ?_⟩
    simp only [List.append_nil, List.nil_append, padded, hline, if_true]
    cases dangling line with
    | true => exact .inr rfl
    | false => exact .inl rfl
  · refine ⟨padded ds, padded_append hlast hfree hds, ?_⟩
    rcases padded_append_cases line hds with hcase | hcase
    · exact .inl (congrArg (cs ++ ·) hcase)
    · exact .inr (congrArg (cs ++ ·) hcase)

/-- The cut of a whole text is alike with and without such a line. -/
theorem cut_alike_of_blankLine {u line v : String} (hlast : u.toList.getLast? = some '\n')
    (hfree : dangling u.toList = false) (hline : BlankLine line.toList) :
    (cut (u ++ v)).Alike (cut (u ++ line ++ v)) := by
  have hend := ended_of_not_dangling hlast hfree
  obtain ⟨es, hes, hpadded⟩ := padded_insert hlast hfree hline.getLast? v.toList
  simp only [cut, String.toList_append, List.append_assoc]
  rw [hes]
  rcases hpadded with hpadded | hpadded
  · rw [hpadded]
    exact Cut.ofChars_alike_of_blankLine hend hline es
  · rw [hpadded]
    have hwhole : Ended (u.toList ++ es) := hes ▸ ended_padded _
    have hempty : BlankLine ([] ++ ['\n']) := .empty (by simp) (.inl rfl)
    have hmore := Cut.ofChars_alike_of_blankLine hwhole hempty []
    rw [List.append_nil, List.append_nil, List.nil_append, List.append_assoc] at hmore
    exact hmore.trans (Cut.ofChars_alike_of_blankLine hend hline _)

end Source

/-- Texts whose cuts are alike have alike tokens. -/
theorem tokenize_of_cut_alike {a b : String} (h : (Source.cut a).Alike (Source.cut b)) :
    SameTokens Token.Alike (fun _ _ => True) (tokenize a) (tokenize b) := by
  obtain ⟨htokens, hlevels⟩ := Layout.arrange_related [] h.lexemes
  refine tokenize_related (fun _ _ _ => ⟨rfl, .inr rfl⟩) (fun _ => trivial) htokens hlevels ?_
  have hstop := h.stop
  cases hx : (Source.cut a).stop with
  | none =>
    rw [hstop.mpr hx]
    exact .none
  | some x =>
    obtain ⟨y, hy⟩ := Option.ne_none_iff_exists'.mp fun hy => by
      rw [hstop.mp hy] at hx
      cases hx
    rw [hy]
    exact .some trivial

/-- A line that is empty or holds a comment only may be put between any two lines of a program: the
program stays the same, or is refused with an error of the same class. The line before it must not
look continued. -/
theorem parseProgram_ignores_blankLine {u line v : String} (hlast : u.toList.getLast? = some '\n')
    (hfree : Source.dangling u.toList = false) (hline : BlankLine line.toList) (room : Nat)
    (log log' : Log) :
    SameOutcome (parseProgram room (u ++ v) log).1 (parseProgram room (u ++ line ++ v) log').1 :=
  parseProgram_of_alike (tokenize_of_cut_alike (Source.cut_alike_of_blankLine hlast hfree hline))
    room log log'

/-- The first arm of a branch. -/
def firstArm : String := "if a:\n  print b\n"

/-- A comment with a margin of its own, an open quotation and a backslash at its end. -/
def remarkLine : String := " \t# say \"no \\\r\n"

def secondArm : String := "elif c:\n  print d"

/-- A comment between the arms of a branch. -/
theorem parseProgram_ignores_remarkLine :
    Source.dangling firstArm.toList = false ∧ BlankLine remarkLine.toList ∧
      ∃ program, (parseProgram 200 (firstArm ++ secondArm) ⟨0, #[]⟩).1 = .ok program ∧
        (parseProgram 200 (firstArm ++ remarkLine ++ secondArm) ⟨0, #[]⟩).1 = .ok program := by
  have hfree : Source.dangling firstArm.toList = false := by decide +kernel
  have hline : BlankLine remarkLine.toList := by
    have htext : remarkLine.toList =
        [' ', '\t'] ++ '#' :: (" say \"no \\".toList ++ ['\r', '\n']) := by decide +kernel
    rw [htext]
    exact .comment (forall_mem_of_all (by decide)) (forall_mem_of_all (by decide +kernel))
      (.inr rfl)
  have hread : (parseProgram 200 (firstArm ++ secondArm) ⟨0, #[]⟩).1.isOk = true := by
    decide +kernel
  have hsame := parseProgram_ignores_blankLine (v := secondArm) (by decide +kernel) hfree hline
    200 ⟨0, #[]⟩ ⟨0, #[]⟩
  exact ⟨hfree, hline, hsame.exists_of_isOk hread⟩

end TinyScript
