import TinyScript.Proofs.Lexing.Boundary

/-!
# Blanks between tokens

Blanks may be put behind any token of a line. The lexemes before them stay, because each depends on
one character behind it (`Terminal.first?_congr`) and blanks may follow any of them that is a token;
the lexemes behind them stay, because blanks at the front of a text are skipped
(`Cut.content_skip`). So the cut of the text has the same content: the classes and texts of all that
the language does not ignore (`Cut.content_insert`).
-/

namespace TinyScript

open Text (isDigit isWord forall_mem_of_all)
open Terminal (run isBlank first?)

namespace Cut

/-- The classes and texts of what is not ignored, and whether the text is cut to its end. -/
def content (c : Cut) : List (Terminal × List Char) × Bool :=
  ((c.lexemes.filter (·.kind?.isSome)).map fun l => (l.terminal, l.text), c.stop.isNone)

variable {c d : Cut} {l m : Lexeme}

theorem content_cons_ignored (h : l.kind? = none) (c : Cut) : (cons l c).content = c.content := by
  simp [content, cons, h]

theorem content_cons_congr (hl : l.Alike m) (h : c.content = d.content) :
    (cons l c).content = (cons m d).content := by
  have hkind : m.kind? = l.kind? := by simp only [Lexeme.kind?, hl.1, hl.2]
  obtain ⟨hlexemes, hstop⟩ := Prod.mk.inj h
  refine Prod.ext ?_ hstop
  simp only [content, cons, List.filter_cons, hkind]
  split
  · rw [List.map_cons, List.map_cons, hlexemes, hl.1, hl.2]
  · exact hlexemes

/-- The content does not depend on where the text begins. -/
theorem content_anywhere (p q : Position) (cs : List Char) :
    (ofChars p cs).content = (ofChars q cs).content := by
  fun_induction ofChars p cs generalizing q with
  | case1 => rw [ofChars_nil]
  | case2 p c rest hnone =>
    rw [ofChars_of_none hnone]
    rfl
  | case3 p c rest t n hfirst text ih =>
    rw [ofChars_of_some hfirst]
    exact content_cons_congr ⟨rfl, rfl⟩ (ih _)

/-- Blanks at the front are skipped. -/
theorem content_skip (p q : Position) (cs : List Char) :
    (ofChars p cs).content = (ofChars q (cs.dropWhile isBlank)).content := by
  have hcs := List.takeWhile_append_dropWhile (p := isBlank) (l := cs)
  by_cases hnil : cs.takeWhile isBlank = []
  · rw [hnil, List.nil_append] at hcs
    rw [hcs]
    exact content_anywhere p q cs
  · have hmatch : Terminal.blank.Matches (cs.takeWhile isBlank) :=
      ⟨hnil, fun c hc => Terminal.of_mem_takeWhile hc⟩
    have hrest : ∀ c ∈ (cs.dropWhile isBlank).head?, Terminal.blank.allows c = true := by
      intro c hc
      have hstop := List.head?_dropWhile_not isBlank cs
      rw [hc] at hstop
      simpa [Terminal.allows] using hstop
    have hfirst := hmatch.first?_append (by decide) hrest
    calc (ofChars p cs).content
        = (ofChars p (cs.takeWhile isBlank ++ cs.dropWhile isBlank)).content := by rw [hcs]
      _ = (ofChars _ (cs.dropWhile isBlank)).content := by
          rw [ofChars_of_some hfirst, content_cons_ignored rfl, List.drop_left]
      _ = (ofChars q (cs.dropWhile isBlank)).content := content_anywhere _ q _

theorem content_blanks (p q : Position) {blanks : List Char}
    (h : ∀ c ∈ blanks, isBlank c = true) (cs : List Char) :
    (ofChars p (blanks ++ cs)).content = (ofChars q cs).content := by
  rw [content_skip p .start, List.dropWhile_append_of_pos h]
  exact (content_skip q .start cs).symm

/-- Where a text that is cut to its end goes on, a lexeme begins. -/
theorem first?_of_stop {p : Position} {cs : List Char} (h : (ofChars p cs).stop = none) :
    cs = [] ∨ first? cs ≠ none := by
  cases cs with
  | nil => exact .inl rfl
  | cons c rest =>
    refine .inr fun hnone => ?_
    rw [ofChars_of_none hnone] at h
    cases h

/-- The same lexeme is cut off two texts that go on with the same content. -/
theorem content_of_first? {p q : Position} {t : Terminal} {w x y : List Char}
    (hy : first? (w ++ y) = some (t, w.length))
    (h : (ofChars (p.after w) y).content = (ofChars q x).content) :
    (ofChars p (w ++ y)).content = (cons ⟨t, w, p⟩ (ofChars q x)).content := by
  rw [ofChars_of_some hy, List.take_left, List.drop_left]
  exact content_cons_congr ⟨rfl, rfl⟩ h

/-- Blanks behind a token leave the content of the cut as it is. -/
theorem content_insert (p : Position) (cs : List Char) (ls : List Lexeme) {ms : List Lexeme}
    (hstop : (ofChars p cs).stop = none) (hls : (ofChars p cs).lexemes = ls ++ l :: ms)
    (hkind : l.kind? ≠ none) (hline : l.terminal ≠ .newline) :
    ∃ pre post, cs = pre ++ (l.text ++ post) ∧ l.position = p.after pre ∧
      l.terminal.Matches l.text ∧ ∀ blanks, (∀ c ∈ blanks, isBlank c = true) →
        (ofChars p (pre ++ (l.text ++ (blanks ++ post)))).content = (ofChars p cs).content := by
  -- The induction goes along the lexemes before the token, each of which stays what it is.
  fun_induction ofChars p cs generalizing ls with
  | case1 => simp at hls
  | case2 => simp at hls
  | case3 p c rest t n hfirst text ih =>
    have hcut : text ++ (c :: rest).drop n = c :: rest := List.take_append_drop n _
    have hwhole : first? (text ++ (c :: rest).drop n) = some (t, text.length) := by
      rw [hcut, List.length_take_of_le (Terminal.le_length_of_first? hfirst), hfirst]
    cases ls with
    | nil =>
      obtain ⟨rfl, -⟩ := List.cons.inj hls
      have hmatch := Terminal.matches_of_first? hwhole
      refine ⟨[], (c :: rest).drop n, hcut.symm, rfl, hmatch, fun blanks hblanks => ?_⟩
      refine content_of_first? ?_ (content_blanks _ _ hblanks _)
      cases blanks with
      | nil => exact hwhole
      | cons b blanks =>
        refine hmatch.first?_append hline fun d hd => ?_
        rw [← Option.some.inj hd]
        refine Terminal.allows_of_isBlank (hblanks b List.mem_cons_self) ?_
        rintro rfl
        exact hkind rfl
    | cons m ls =>
      obtain ⟨-, hls⟩ := List.cons.inj hls
      obtain ⟨pre, post, hrest, hplace, hmatch, hinsert⟩ := ih ls hstop hls
      have hhead : ∀ es, (pre ++ (l.text ++ es)).head? = (pre ++ l.text).head? := by
        intro es
        rw [← List.append_assoc, List.head?_append_of_ne_nil]
        exact fun hnil => hmatch.ne_nil (List.append_eq_nil_iff.mp hnil).2
      refine ⟨text ++ pre, post, ?_, ?_, hmatch, fun blanks hblanks => ?_⟩
      · rw [List.append_assoc, ← hrest, hcut]
      · rw [hplace, Position.after_append]
      · rw [List.append_assoc]
        refine content_of_first? ?_ (hinsert blanks hblanks)
        refine Terminal.first?_congr hwhole (first?_of_stop hstop) ?_
        rw [hrest, hhead, hhead]

end Cut

/-- A place in a text is the place behind one beginning of it only. -/
theorem Position.eq_of_ofText {a b c d : List Char} (htext : a ++ b = c ++ d)
    (h : Position.ofText a = Position.ofText c) : a = c := by
  have hnil : ∀ {e w : List Char}, Position.ofText (e ++ w) = Position.ofText e → w = [] := by
    intro e w h
    obtain ⟨hline, hcolumn⟩ := Position.mk.inj h
    have hfree : '\n' ∉ w := by
      rw [← List.count_eq_zero]
      rw [List.count_append] at hline
      omega
    rw [List.reverse_append, List.takeWhile_append_of_pos, List.length_append] at hcolumn
    · refine List.length_eq_zero_iff.mp ?_
      rw [List.length_reverse] at hcolumn
      omega
    · intro x hx
      refine decide_eq_true fun hnew => hfree ?_
      rw [← hnew]
      exact List.mem_reverse.mp hx
  rcases List.append_eq_append_iff.mp htext with ⟨w, rfl, -⟩ | ⟨w, rfl, -⟩
  · rw [hnil h.symm, List.append_nil]
  · rw [hnil h, List.append_nil]

/-- The last character of a token is solid. -/
theorem Terminal.Matches.last_solid {t : Terminal} {w : List Char} (h : t.Matches w)
    (ht : t ∉ [.newline, .continuation, .blank]) :
    ∃ a x, w = a ++ [x] ∧ isSolid x = true := by
  have hdigit : ∀ {c : Char}, isDigit c = true → isSolid c = true := fun hc =>
    isSolid_of_class hc (forall_mem_of_all (by decide))
  obtain ⟨a, x, rfl⟩ := (List.eq_nil_or_concat' w).resolve_left h.ne_nil
  refine ⟨a, x, rfl, ?_⟩
  have hx : x ∈ a ++ [x] := by simp
  cases t with
  | float =>
    obtain ⟨whole, fraction, hw, hwhole, hfraction, -⟩ := h
    rw [hw] at hx
    simp only [List.mem_append, List.mem_cons] at hx
    rcases hx with hx | rfl | hx
    · exact hdigit (hwhole x hx)
    · rfl
    · exact hdigit (hfraction x hx)
  | string =>
    obtain ⟨mark, body, hmark, -, hw⟩ := h
    rw [← List.cons_append] at hw
    obtain ⟨-, hlast⟩ := List.append_inj' hw rfl
    rw [(List.cons.inj hlast).1]
    rcases hmark with rfl | rfl <;> rfl
  | name =>
    obtain ⟨c, cs, hw, -, hword⟩ := h
    exact isSolid_of_class (hword x (hw ▸ hx)) (forall_mem_of_all (by decide))
  | number => exact hdigit (h.2 x hx)
  | symbol s =>
    rw [show a ++ [x] = s.chars from h] at hx
    have hsolid : ∀ c ∈ s.chars, isSolid c = true := by
      cases s <;> exact forall_mem_of_all (by decide)
    exact hsolid x hx
  | _ => simp at ht

namespace Source

variable {a blanks : List Char} {x : Char}

theorem ne_of_isSolid (hx : isSolid x = true) :
    isBlank x = false ∧ x ≠ '\r' ∧ x ≠ '\n' ∧ x ≠ '\\' := by
  simpa [isSolid, and_assoc] using hx

/-- Whether a text is continued is seen behind its last solid character. -/
theorem dangling_of_solid (hx : isSolid x = true) (hblanks : ∀ c ∈ blanks, isBlank c = true)
    (post : List Char) : dangling (a ++ [x] ++ (blanks ++ post)) = dangling post := by
  obtain ⟨hblank, hr, hn, hslash⟩ := ne_of_isSolid hx
  have hends : (blanks.reverse ++ ([x].reverse ++ a.reverse)).dropWhile
      (fun c => c = '\r' || c = '\n') = blanks.reverse ++ ([x].reverse ++ a.reverse) :=
    dropWhile_ends_blanks hblanks (by simp [hr, hn])
  have hskip : (blanks.reverse ++ ([x].reverse ++ a.reverse)).dropWhile isBlank =
      x :: a.reverse := by
    rw [List.dropWhile_append_of_pos fun c hc => hblanks c (List.mem_reverse.mp hc)]
    simp [hblank]
  simp only [dangling, List.reverse_append, List.append_assoc]
  rw [List.dropWhile_append]
  split
  · next hempty =>
    rw [hends, hskip, List.isEmpty_iff.mp hempty]
    simp [hslash]
  · rw [List.dropWhile_append]
    split
    · next hempty =>
      rw [hskip, List.isEmpty_iff.mp hempty]
      simp [hslash]
    · next hsome => rw [List.head?_append_of_ne_nil _ (by simpa using hsome)]

/-- A text is padded for what stands behind its last solid character and blanks. -/
theorem padding_of_solid (hx : isSolid x = true) (hblanks : ∀ c ∈ blanks, isBlank c = true)
    (post : List Char) : padding (a ++ [x] ++ (blanks ++ post)) = padding post := by
  have hlast : (a ++ [x] ++ (blanks ++ post)).getLast? = some '\n' ↔ post.getLast? = some '\n' := by
    rw [List.getLast?_append, List.getLast?_append, List.getLast?_append]
    cases hpost : post.getLast? with
    | some c => simp
    | none =>
      cases hlast : blanks.getLast? with
      | some b =>
        have hb := hblanks b (List.mem_of_getLast? hlast)
        have hne : b ≠ '\n' := Terminal.ne_of_class hb rfl
        simp [hne]
      | none => simp [(ne_of_isSolid hx).2.2.1]
  simp only [padding, hlast, dangling_of_solid hx hblanks]

/-- A text with a solid end that stands in a padded text stands before the padding. -/
theorem exists_of_padded {cs pre w rest : List Char} (hw : w = a ++ [x]) (hx : isSolid x = true)
    (h : padded cs = pre ++ (w ++ rest)) :
    ∃ post, cs = pre ++ (w ++ post) ∧ rest = post ++ padding cs := by
  rw [padded_eq, ← List.append_assoc] at h
  rcases List.append_eq_append_iff.mp h with ⟨bs, hpre, hpadding⟩ | ⟨bs, hcs, hrest⟩
  · rcases List.eq_nil_or_concat' bs with rfl | ⟨bs, y, rfl⟩
    · exact ⟨[], by simpa using hpre.symm, hpadding.symm⟩
    · have hmem : y ∈ padding cs := by simp [hpadding]
      have hy := eq_of_mem_padding hmem
      rw [hw, ← List.append_assoc, ← List.append_assoc] at hpre
      have hxy := (List.cons.inj (List.append_inj' hpre rfl).2).1
      exact absurd (hxy.trans hy) (ne_of_isSolid hx).2.2.1
  · exact ⟨bs, by rw [hcs, List.append_assoc], hrest⟩

end Source

/-- Tokens of one kind and text. -/
def Token.SameWord (t u : Token) : Prop := u.kind = t.kind ∧ u.text = t.text

theorem Layout.arrange_of_content {a b : Cut} (h : b.content = a.content) :
    List.Forall₂ Token.SameWord (Layout.arrange [] a.lexemes).1 (Layout.arrange [] b.lexemes).1 ∧
      (Layout.arrange [] b.lexemes).2 = (Layout.arrange [] a.lexemes).2 := by
  rw [← Layout.arrange_filter [] a.lexemes, ← Layout.arrange_filter [] b.lexemes]
  refine Layout.arrange_related [] ?_
  have hmap := (Prod.mk.inj h).1
  rw [← List.forall₂_eq_eq_eq, List.forall₂_map_left_iff, List.forall₂_map_right_iff] at hmap
  refine (List.Forall₂.flip hmap).imp fun l m hlm => ?_
  exact Lexeme.Alike.related (fun _ _ _ _ => ⟨rfl, rfl⟩) (Prod.mk.inj hlm)

/-- A lexeme that is no line end stands in its place, and blanks behind it change nothing. -/
theorem Source.exists_insert {source : String} {l : Lexeme} (hstop : (cut source).stop = none)
    (hl : l ∈ (cut source).lexemes) (hkind : l.kind? ≠ none) (hline : l.terminal ≠ .newline) :
    ∃ pre post, source.toList = pre ++ (l.text ++ post) ∧ l.position = .ofText pre ∧
      ∀ blanks : String, (∀ c ∈ blanks.toList, isBlank c = true) →
        ∀ result : String, result.toList = pre ++ (l.text ++ (blanks.toList ++ post)) →
          (cut result).content = (cut source).content := by
  obtain ⟨ls, ms, hls⟩ := List.append_of_mem hl
  obtain ⟨pre, rest, htext, hplace, hmatch, hinsert⟩ :=
    Cut.content_insert .start _ ls hstop hls hkind hline
  have hterminal : l.terminal ∉ [.newline, .continuation, .blank] := by
    intro hmem
    simp only [List.mem_cons, List.not_mem_nil, or_false] at hmem
    rcases hmem with ht | ht | ht
    · exact hline ht
    · exact hkind (by simp [Lexeme.kind?, ht])
    · exact hkind (by simp [Lexeme.kind?, ht])
  obtain ⟨a, x, hlast, hx⟩ := hmatch.last_solid hterminal
  obtain ⟨post, hsource, rfl⟩ := exists_of_padded hlast hx htext
  have hpadding : ∀ blanks : List Char, (∀ c ∈ blanks, isBlank c = true) →
      padding (pre ++ (l.text ++ (blanks ++ post))) = padding post := by
    intro blanks hblanks
    have hsolid := padding_of_solid (a := pre ++ a) hx hblanks post
    simpa only [hlast, List.append_assoc] using hsolid
  refine ⟨pre, post, hsource, hplace.trans (Position.after_ofText [] pre), ?_⟩
  intro blanks hblanks result hresult
  have hsame : padding source.toList = padding post := by
    rw [hsource]
    exact hpadding [] (by simp)
  have hcontent := hinsert blanks.toList hblanks
  simp only [cut]
  rw [hresult, padded_eq, hpadding _ hblanks, ← hsame]
  simpa only [List.append_assoc] using hcontent

theorem tokenize_of_content {a b : String} (hstop : (Source.cut a).stop = none)
    (h : (Source.cut b).content = (Source.cut a).content) :
    SameTokens Token.SameWord Eq (tokenize a) (tokenize b) := by
  obtain ⟨htokens, hlevels⟩ := Layout.arrange_of_content h
  refine tokenize_related (fun _ _ _ => ⟨rfl, rfl⟩) (fun _ => rfl) htokens hlevels ?_
  have hnone : (Source.cut b).stop = none := by
    have hend := (Prod.mk.inj h).2
    rw [hstop] at hend
    exact Option.isNone_iff_eq_none.mp hend
  rw [hstop, hnone]
  exact .none

/-- A token with a text, other than a line end, is that of a lexeme. -/
theorem Source.exists_lexeme {source : String} {ts : List Token} {t : Token}
    (h : tokenize source = .ok ts) (ht : t ∈ ts)
    (hkind : t.kind ∉ [.newline, .indent, .dedent, .eof]) :
    ∃ l ∈ (cut source).lexemes, l.terminal ≠ .newline ∧ l.token? = some t := by
  simp only [List.mem_cons, List.not_mem_nil, or_false, not_or] at hkind
  obtain ⟨hline, hindent, hdedent, heof⟩ := hkind
  obtain ⟨-, -, hts⟩ := tokenize_eq_ok_iff.mp h
  have hmem : t ∈ (arranged source).1 := by
    rw [hts] at ht
    refine (List.mem_append.mp ht).resolve_right fun hlast => heof ?_
    rw [List.mem_singleton.mp hlast]
    rfl
  obtain ⟨l, hl, htoken⟩ := (Layout.mem_arrange hmem).resolve_right (not_or.mpr ⟨hindent, hdedent⟩)
  refine ⟨l, hl, fun hterminal => hline ?_, htoken⟩
  rw [Lexeme.token?, Lexeme.kind?_of_newline hterminal] at htoken
  cases htoken
  rfl

/-- Blanks may be put behind any token but a line end: the kinds and texts of all tokens stay. Marks
of indentation and the end of the input have no text to put them behind. -/
theorem tokenize_insert_blanks {source : String} {ts : List Token} {t : Token}
    (h : tokenize source = .ok ts) (ht : t ∈ ts)
    (hkind : t.kind ∉ [.newline, .indent, .dedent, .eof]) :
    (∃ pre post, source = pre ++ t.text ++ post ∧ t.position = .ofText pre.toList) ∧
      ∀ pre post blanks : String, source = pre ++ t.text ++ post →
        t.position = .ofText pre.toList → (∀ c ∈ blanks.toList, isBlank c = true) →
        ∃ us, tokenize (pre ++ t.text ++ blanks ++ post) = .ok us ∧
          List.Forall₂ Token.SameWord ts us := by
  obtain ⟨hstop, -, -⟩ := tokenize_eq_ok_iff.mp h
  obtain ⟨l, hl, hline, htoken⟩ := Source.exists_lexeme h ht hkind
  obtain ⟨k, hk, rfl⟩ := Option.map_eq_some_iff.mp htoken
  obtain ⟨pre, post, hsource, hplace, hinsert⟩ :=
    Source.exists_insert hstop hl (by simp [hk]) hline
  constructor
  · refine ⟨String.ofList pre, String.ofList post, ?_, by simpa using hplace⟩
    apply String.toList_inj.mp
    simpa using hsource
  · intro pre' post' blanks hsource' hplace' hblanks
    have htext := congrArg String.toList hsource'
    rw [hsource, String.toList_append, String.toList_append, String.toList_ofList,
      List.append_assoc] at htext
    have hpre := Position.eq_of_ofText htext (hplace.symm.trans hplace')
    rw [hpre] at htext
    have hpost := List.append_cancel_left (List.append_cancel_left htext)
    have hcontent := hinsert blanks hblanks (pre' ++ String.ofList l.text ++ blanks ++ post')
      (by simp [hpre, hpost])
    have htokens := tokenize_of_content hstop hcontent
    rw [h] at htokens
    generalize tokenize (pre' ++ String.ofList l.text ++ blanks ++ post') = r at htokens
    cases htokens with
    | ok hus => exact ⟨_, rfl, hus⟩

/-- Tokens with nothing between them, a continued line and a comment. -/
def gluedText : String := "x=" ++ "1." ++ "-.5\\\n==a#b"

def gluedTokens : List Token :=
  [⟨.name, "x", ⟨1, 1⟩⟩, ⟨.symbol .assign, "=", ⟨1, 2⟩⟩, ⟨.float, "1.", ⟨1, 3⟩⟩,
    ⟨.symbol .minus, "-", ⟨1, 5⟩⟩, ⟨.float, ".5", ⟨1, 6⟩⟩, ⟨.symbol .eq, "==", ⟨2, 1⟩⟩,
    ⟨.name, "a", ⟨2, 3⟩⟩, ⟨.newline, "#b\n", ⟨2, 4⟩⟩, Token.eofAt ⟨2, 4⟩]

/-- Blanks behind the first float of this text. -/
theorem tokenize_gluedText_insert :
    tokenize gluedText = .ok gluedTokens ∧
      ∃ us, tokenize ("x=" ++ "1." ++ " \t\x0c" ++ "-.5\\\n==a#b") = .ok us ∧
        List.Forall₂ Token.SameWord gluedTokens us := by
  have htokens : tokenize gluedText = .ok gluedTokens := by decide +kernel
  have hmem : (⟨.float, "1.", ⟨1, 3⟩⟩ : Token) ∈ gluedTokens := by decide
  refine ⟨htokens, ?_⟩
  exact (tokenize_insert_blanks htokens hmem (by decide)).2 "x=" "-.5\\\n==a#b" " \t\x0c" rfl
    (by decide +kernel) (forall_mem_of_all (by decide +kernel))

end TinyScript
