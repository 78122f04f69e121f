import TinyScript.Proofs.Lexing.Related

/-!
# Texts one after the other

A text whose last line is ended keeps its lexemes when a second text comes after it: no lexeme but
a line end reaches over a line end, and there the line ends that begin the second text are added to
the last lexeme of the first. The second text, from there on, is cut as it is on its own.
-/

namespace TinyScript

open Text (isDigit isWord)
open Terminal (run scanFloat scanString scanStringRest scanBreaks scanContinuation scanName
  scanSymbol isBlank isMargin first?)

namespace Terminal

variable {cs : List Char} (ds : List Char)

theorem mem_drop_run {p : Char → Bool} (hp : p '\n' = false) (h : '\n' ∈ cs) :
    '\n' ∈ cs.drop (run p cs) := by
  rw [← takeWhile_append_drop_run p cs] at h
  refine (List.mem_append.mp h).resolve_left fun hmem => ?_
  rw [of_mem_takeWhile hmem] at hp
  cases hp

theorem run_append_of_mem {p : Char → Bool} (hp : p '\n' = false) (h : '\n' ∈ cs) :
    run p (cs ++ ds) = run p cs := by
  have hne : (cs.takeWhile p).length ≠ cs.length := by
    intro hlen
    have hdrop := mem_drop_run hp h
    rw [run, hlen, List.drop_length] at hdrop
    cases hdrop
  rw [run, run, List.takeWhile_append, if_neg hne]

theorem drop_run_append (p : Char → Bool) (cs ds : List Char) :
    (cs ++ ds).drop (run p cs) = cs.drop (run p cs) ++ ds :=
  List.drop_append_of_le_length (List.takeWhile_prefix p).length_le

theorem scanFloat_append_of_mem (h : '\n' ∈ cs) : scanFloat (cs ++ ds) = scanFloat cs := by
  have hdigit : isDigit '\n' = false := by decide
  have hmem := mem_drop_run hdigit h
  simp only [scanFloat, run_append_of_mem ds hdigit h, drop_run_append]
  cases hdrop : cs.drop (run isDigit cs) with
  | nil =>
    rw [hdrop] at hmem
    cases hmem
  | cons c rest =>
    rw [hdrop] at hmem
    by_cases hc : c = '.'
    · subst hc
      have hrest : '\n' ∈ rest := by simpa using hmem
      simp [run_append_of_mem ds hdigit hrest]
    · simp [hc]

theorem scanStringRest_append_of_mem {mark : Char} (hmark : Text.Quoted.IsMark mark)
    (h : '\n' ∈ cs) : scanStringRest mark (cs ++ ds) = scanStringRest mark cs := by
  fun_induction scanStringRest mark cs with
  | case1 => cases h
  | case2 cs => exact scanStringRest_mark mark _
  | case3 cs hne => exact scanStringRest_line hne _
  | case4 => simp at h
  | case5 cs hne =>
    rw [List.cons_append, List.cons_append, scanStringRest, if_neg hne, if_neg (by decide),
      if_pos rfl]
    exact if_pos rfl
  | case6 d cs hd _ _ ih =>
    have hcs : '\n' ∈ cs := by simpa [Ne.symm hd] using h
    rw [List.cons_append, List.cons_append, Text.Quoted.scanStringRest_backslash hmark hd, ih hcs]
  | case7 c cs hc hline hslash ih =>
    have hcs : '\n' ∈ cs := by simpa [Ne.symm hline] using h
    rw [List.cons_append, Text.Quoted.scanStringRest_cons hc hline hslash, ih hcs]

theorem scanString_append_of_mem (h : '\n' ∈ cs) : scanString (cs ++ ds) = scanString cs := by
  cases cs with
  | nil => cases h
  | cons c cs =>
    simp only [List.cons_append, scanString]
    split
    · next hmark =>
      have hne : '\n' ≠ c := by rcases hmark with rfl | rfl <;> decide
      have hcs : '\n' ∈ cs := by simpa [hne] using h
      rw [scanStringRest_append_of_mem ds hmark.symm hcs]
    · rfl

theorem scanContinuation_append_of_mem (h : '\n' ∈ cs) :
    scanContinuation (cs ++ ds) = scanContinuation cs := by
  have hblank : isBlank '\n' = false := rfl
  cases cs with
  | nil => cases h
  | cons c cs =>
    by_cases hc : c = '\\'
    · subst hc
      have hcs : '\n' ∈ cs := by simpa using h
      have hmem := mem_drop_run hblank hcs
      simp only [List.cons_append, scanContinuation, run_append_of_mem ds hblank hcs,
        drop_run_append]
      -- The first two characters after the blanks decide, and neither can lie beyond a line end.
      generalize cs.drop (run isBlank cs) = rest at hmem ⊢
      cases rest with
      | nil => cases hmem
      | cons c rest =>
        cases rest with
        | nil =>
          obtain rfl : '\n' = c := by simpa using hmem
          rfl
        | cons d rest =>
          simp only [List.cons_append]
          split <;> simp_all
    · rw [List.cons_append, scanContinuation_cons hc, scanContinuation_cons hc]

theorem scanName_append_of_mem (h : '\n' ∈ cs) : scanName (cs ++ ds) = scanName cs := by
  have hword : isWord '\n' = false := by decide
  cases cs with
  | nil => cases h
  | cons c cs =>
    simp only [List.cons_append, scanName]
    split
    · next hc =>
      have hne : '\n' ≠ c := by
        rintro rfl
        simp [hword] at hc
      have hcs : '\n' ∈ cs := by simpa [hne] using h
      rw [run_append_of_mem ds hword hcs]
    · rfl

theorem scanSymbol_append_of_mem (s : Symbol) (h : '\n' ∈ cs) :
    scanSymbol s (cs ++ ds) = scanSymbol s cs := by
  have hfree : '\n' ∉ s.chars := by cases s <;> decide
  have hiff : s.chars.isPrefixOf (cs ++ ds) = s.chars.isPrefixOf cs := by
    rw [Bool.eq_iff_iff, List.isPrefixOf_iff_prefix, List.isPrefixOf_iff_prefix]
    refine ⟨fun hs => ?_, fun hs => hs.trans (List.prefix_append _ _)⟩
    rcases List.prefix_or_prefix_of_prefix hs (List.prefix_append cs ds) with hs | hs
    · exact hs
    · exact absurd (hs.subset h) hfree
  rw [scanSymbol, scanSymbol, hiff]

/-- What a class finds before a line end does not depend on what comes after it, unless the class
is that of line ends. -/
theorem scan_append_of_mem {t : Terminal} (ht : t ≠ .newline) (h : '\n' ∈ cs) :
    t.scan (cs ++ ds) = t.scan cs := by
  cases t with
  | float => exact scanFloat_append_of_mem ds h
  | string => exact scanString_append_of_mem ds h
  | newline => exact absurd rfl ht
  | continuation => exact scanContinuation_append_of_mem ds h
  | name => exact scanName_append_of_mem ds h
  | blank => exact run_append_of_mem ds rfl h
  | number => exact run_append_of_mem ds (by decide) h
  | symbol s => exact scanSymbol_append_of_mem ds s h

theorem scanBreaks_le (state : Margin) (cs : List Char) : scanBreaks state cs ≤ cs.length := by
  fun_induction scanBreaks state cs <;> grind

/-- Line ends go on into what comes after the text if they are all of it. -/
theorem scanBreaks_append {state : Margin} (hlast : cs.getLast? = some '\n') :
    scanBreaks state (cs ++ ds) =
      if scanBreaks state cs = cs.length then cs.length + scanBreaks .inside ds
      else scanBreaks state cs := by
  have hmore : ∀ {c : Char} {cs : List Char}, c ≠ '\n' → (c :: cs).getLast? = some '\n' →
      cs.getLast? = some '\n' := by
    intro c cs hc hlast
    cases cs with
    | nil => exact absurd (Option.some.inj hlast) hc
    | cons d cs => simpa using hlast
  fun_induction scanBreaks state cs with
  | case1 => cases hlast
  | case2 state cs ih =>
    rw [List.cons_append, scanBreaks_line]
    cases cs with
    | nil => simp [scanBreaks, Nat.add_comm]
    | cons d cs =>
      rw [ih (by simpa using hlast)]
      simp only [List.length_cons, Nat.add_right_cancel_iff]
      split <;> omega
  | case3 c cs hc ih =>
    rw [List.cons_append, scanBreaks_comment_cons _ hc, ih (hmore hc hlast)]
    simp only [List.length_cons, Nat.add_right_cancel_iff]
    split <;> omega
  | case4 state cs hn hstate ih =>
    rw [List.cons_append, scanBreaks_hash, ih (hmore (by decide) hlast)]
    simp only [List.length_cons, Nat.add_right_cancel_iff]
    split <;> omega
  | case5 state c cs hn hstate hc hmargin ih =>
    obtain ⟨rfl, hmargin⟩ := hmargin
    rw [List.cons_append, scanBreaks_margin_cons _ hmargin, ih (hmore hn hlast)]
    simp only [List.length_cons, Nat.add_right_cancel_iff]
    split <;> omega
  | case6 state => simp at hlast
  | case7 state hstate cs _ _ _ ih =>
    rw [List.cons_append, List.cons_append, scanBreaks_return]
    cases cs with
    | nil => simp [scanBreaks, Nat.add_comm]
    | cons d cs =>
      rw [ih (by simpa using hlast)]
      simp only [List.length_cons, Nat.add_right_cancel_iff]
      split <;> omega
  | case8 state hstate hn hc hmargin d cs hd =>
    simp [scanBreaks, hd, hstate, hmargin]
  | case9 state c cs hn hstate hc hmargin hr =>
    have hzero : ∀ es, scanBreaks state (c :: es) = 0 := by
      intro es
      cases es <;> simp [scanBreaks, hn, hstate, hc, hmargin, hr]
    rw [List.cons_append, hzero, if_neg (by simp)]

theorem scanBreaks_of_head {state : Margin} {ds : List Char} (hstate : state ≠ .comment)
    (h : ∀ c ∈ ds.head?, isMargin c = false) :
    scanBreaks state ds = scanBreaks .outside ds := by
  cases ds with
  | nil => rfl
  | cons c ds =>
    have hc := h c rfl
    cases ds <;> simp [scanBreaks, hstate, hc]

theorem mem_take_scanBreaks_comment (h : '\n' ∈ cs) :
    '\n' ∈ cs.take (scanBreaks .comment cs) := by
  induction cs with
  | nil => cases h
  | cons c cs ih =>
    by_cases hc : c = '\n'
    · rw [hc, scanBreaks_line]
      exact List.mem_cons_self
    · rw [scanBreaks_comment_cons _ hc, List.take_succ_cons]
      exact List.mem_cons_of_mem _ (ih (by simpa [Ne.symm hc] using h))

/-- Where line ends begin, one of these characters stands. -/
theorem head_of_scanBreaks (h : 0 < scanBreaks .outside cs) :
    ∃ c rest, cs = c :: rest ∧ (c = '\n' ∨ c = '#' ∨ c = '\r') := by
  cases cs with
  | nil => exact absurd h (Nat.lt_irrefl _)
  | cons c cs =>
    refine ⟨c, cs, rfl, ?_⟩
    by_contra hne
    simp only [not_or] at hne
    rw [scanBreaks_cons hne.1 hne.2.1 hne.2.2] at h
    exact Nat.lt_irrefl _ h

/-- Line ends reach at least to the end of their first line. -/
theorem mem_take_scanBreaks (hmem : '\n' ∈ cs) (h : 0 < scanBreaks .outside cs) :
    '\n' ∈ cs.take (scanBreaks .outside cs) := by
  obtain ⟨c, rest, rfl, rfl | rfl | rfl⟩ := head_of_scanBreaks h
  · rw [scanBreaks_line]
    exact List.mem_cons_self
  · rw [scanBreaks_hash, List.take_succ_cons]
    exact List.mem_cons_of_mem _ (mem_take_scanBreaks_comment (by simpa using hmem))
  · cases rest with
    | nil => simp at hmem
    | cons d rest =>
      by_cases hd : d = '\n'
      · rw [hd, scanBreaks_return]
        simp
      · simp [scanBreaks, hd, isMargin] at h

/-- Where line ends begin, no other class is taken. -/
theorem first?_of_scanBreaks (h : 0 < scanBreaks .outside cs) :
    first? cs = some (.newline, scanBreaks .outside cs) := by
  refine first?_of_order [float, string] rfl ?_ rfl h
  obtain ⟨c, rest, rfl, hc⟩ := head_of_scanBreaks h
  intro u hu
  simp only [List.mem_cons, List.not_mem_nil, or_false] at hu
  rcases hu with rfl | rfl
  · refine scanFloat_cons ?_ ?_ rest <;> rcases hc with rfl | rfl | rfl <;> decide
  · refine scanString_cons ?_ rest
    rcases hc with rfl | rfl | rfl <;> decide

/-- The class that is taken, and those that found nothing before it. -/
theorem order_of_first? {t : Terminal} {n : Nat} (h : first? cs = some (t, n)) :
    ∃ before after, order = before ++ t :: after ∧ (∀ u ∈ before, u.scan cs = 0) ∧
      t.scan cs = n ∧ 0 < n := by
  obtain ⟨before, u, after, horder, hu, hbefore⟩ := List.findSome?_eq_some_iff.mp h
  obtain ⟨hscan, hpos⟩ := scan_of_first? h
  have hut : u = t := by
    split at hu
    · cases hu
    · exact congrArg Prod.fst (Option.some.inj hu)
  refine ⟨before, after, hut ▸ horder, fun v hv => ?_, hscan, hpos⟩
  have hnone := hbefore v hv
  by_contra hne
  rw [if_neg hne] at hnone
  cases hnone

/-- A class that does not find the whole of an ended text finds the same whatever comes after it. -/
theorem scan_append_of_lt {t : Terminal} (hlast : cs.getLast? = some '\n')
    (h : t.scan cs < cs.length) : t.scan (cs ++ ds) = t.scan cs := by
  by_cases hline : t = .newline
  · subst hline
    exact (scanBreaks_append ds hlast).trans (if_neg (Nat.ne_of_lt h))
  · exact scan_append_of_mem ds hline (List.mem_of_getLast? hlast)

theorem scan_append_of_eq_zero {t : Terminal} (hlast : cs.getLast? = some '\n')
    (h : t.scan cs = 0) : t.scan (cs ++ ds) = 0 := by
  have hpos : 0 < cs.length := List.length_pos_of_mem (List.mem_of_getLast? hlast)
  rw [scan_append_of_lt ds hlast (h ▸ hpos), h]

/-- A lexeme that is not the whole of an ended text is found whatever comes after the text. -/
theorem first?_append_of_lt {t : Terminal} {n : Nat} (hlast : cs.getLast? = some '\n')
    (h : first? cs = some (t, n)) (hn : n < cs.length) : first? (cs ++ ds) = some (t, n) := by
  obtain ⟨before, after, horder, hbefore, hscan, hpos⟩ := order_of_first? h
  refine first?_of_order before horder (fun u hu => ?_) ?_ hpos
  · exact scan_append_of_eq_zero ds hlast (hbefore u hu)
  · rw [scan_append_of_lt ds hlast (hscan ▸ hn), hscan]

/-- Where no lexeme of an ended text begins, none begins whatever comes after the text. -/
theorem first?_append_of_none (hlast : cs.getLast? = some '\n') (h : first? cs = none) :
    first? (cs ++ ds) = none :=
  (first?_eq_none_iff _).mpr fun t =>
    scan_append_of_eq_zero ds hlast ((first?_eq_none_iff cs).mp h t)

end Terminal

/-- A lexeme with more text at its end. -/
def Lexeme.extend (l : Lexeme) (more : List Char) : Lexeme := { l with text := l.text ++ more }

/-- The lexemes of an ended text stay when another text comes after it, but for the last, to which
the line ends at the front of the other are added. -/
theorem Cut.ofChars_append {p : Position} {cs : List Char} (hend : Source.Ended cs)
    (hstop : (Cut.ofChars p cs).stop = none) (ds : List Char) :
    ∃ ls l q, (Cut.ofChars p cs).lexemes = ls ++ [l] ∧ l.terminal = .newline ∧
      l.text.getLast? = some '\n' ∧
      Cut.ofChars p (cs ++ ds) = (Cut.ofChars q (ds.drop (scanBreaks .inside ds))).prepend
        (ls ++ [l.extend (ds.take (scanBreaks .inside ds))]) := by
  fun_induction Cut.ofChars p cs with
  | case1 => exact absurd rfl hend.ne_nil
  | case2 => cases hstop
  | case3 p c rest t n hfirst text ih =>
    obtain ⟨hscan, hpos⟩ := Terminal.scan_of_first? hfirst
    by_cases hn : n < (c :: rest).length
    · have hcut := Terminal.first?_append_of_lt ds hend.line hfirst hn
      have hne : (c :: rest).drop n ≠ [] := by simpa using hn
      obtain ⟨ls, l, q, hls, hl, hlast, hmore⟩ :=
        ih (hend.of_suffix (List.drop_suffix n _) hne) hstop
      refine ⟨⟨t, text, p⟩ :: ls, l, q, by simp [Cut.cons, hls], hl, hlast, ?_⟩
      rw [Cut.ofChars_of_some hcut, List.take_append_of_le_length hn.le,
        List.drop_append_of_le_length hn.le, hmore]
      rfl
    · -- The lexeme is the whole text, so it is a line end and reaches into what comes after.
      have htext : text = c :: rest := List.take_of_length_le (Nat.le_of_not_lt hn)
      have hmatch : t.Matches (c :: rest) := by
        rw [← htext]
        subst hscan
        exact Terminal.matches_take_scan hpos
      obtain rfl : t = .newline := by
        rcases hmatch.of_mem_newline (List.mem_of_getLast? hend.line) with ht | rfl
        · exact ht
        · exact absurd hmatch (hend.free _ (List.suffix_refl _))
      have hlen : scanBreaks .outside (c :: rest) = (c :: rest).length := by
        have hle := Terminal.scanBreaks_le .outside (c :: rest)
        have hn' : scanBreaks .outside (c :: rest) = n := hscan
        omega
      have hall : scanBreaks .outside (c :: rest ++ ds) =
          (c :: rest).length + scanBreaks .inside ds :=
        (Terminal.scanBreaks_append ds hend.line).trans (if_pos hlen)
      have hcut := Terminal.first?_of_scanBreaks (hall ▸ Nat.add_pos_left (Nat.succ_pos _) _)
      rw [hall] at hcut
      refine ⟨[], ⟨.newline, text, p⟩,
        p.after (c :: rest ++ ds.take (scanBreaks .inside ds)), ?_, rfl, htext ▸ hend.line, ?_⟩
      · simp [Cut.cons, List.drop_of_length_le (Nat.le_of_not_lt hn)]
      · rw [Cut.ofChars_of_some hcut, List.take_length_add_append, List.drop_length_add_append,
          htext]
        rfl

/-- A text that is not cut to its end is cut so far and no further, whatever comes after it. -/
theorem Cut.ofChars_append_of_stop {p : Position} {cs : List Char} (hlast : cs.getLast? = some '\n')
    (hstop : (Cut.ofChars p cs).stop ≠ none) (ds : List Char) :
    Cut.ofChars p (cs ++ ds) = Cut.ofChars p cs := by
  fun_induction Cut.ofChars p cs with
  | case1 => cases hlast
  | case2 p c rest hnone =>
    exact Cut.ofChars_of_none (Terminal.first?_append_of_none ds hlast hnone)
  | case3 p c rest t n hfirst text ih =>
    have hn : n < (c :: rest).length := by
      -- A lexeme that is the whole text leaves nothing to stop at.
      by_contra hle
      refine hstop ?_
      simp [Cut.cons, List.drop_of_length_le (Nat.le_of_not_lt hle)]
    have hrest : ((c :: rest).drop n).getLast? = some '\n' := by
      rw [List.getLast?_drop, if_neg (Nat.not_le.mpr hn), hlast]
    rw [Cut.ofChars_of_some (Terminal.first?_append_of_lt ds hlast hfirst hn),
      List.take_append_of_le_length hn.le, List.drop_append_of_le_length hn.le, ih hrest hstop]

/-- Lexemes that differ in their places at most. -/
def Lexeme.Alike (l m : Lexeme) : Prop := m.terminal = l.terminal ∧ m.text = l.text

/-- Tokens of one kind that differ in their places at most, or in the texts of line ends and marks
of indentation, which mean nothing. -/
def Token.Alike (t u : Token) : Prop :=
  u.kind = t.kind ∧ (t.kind ∈ [.newline, .indent, .dedent] ∨ u.text = t.text)

theorem Cut.ofChars_alike (p q : Position) (cs : List Char) :
    List.Forall₂ Lexeme.Alike (Cut.ofChars p cs).lexemes (Cut.ofChars q cs).lexemes ∧
      ((Cut.ofChars p cs).stop = none → (Cut.ofChars q cs).stop = none) := by
  fun_induction Cut.ofChars p cs generalizing q with
  | case1 => simp
  | case2 p c rest hnone =>
    rw [Cut.ofChars_of_none hnone]
    exact ⟨.nil, fun h => by cases h⟩
  | case3 p c rest t n hfirst text ih =>
    obtain ⟨hls, hstop⟩ := ih (q.after text)
    rw [Cut.ofChars_of_some hfirst]
    exact ⟨.cons ⟨rfl, rfl⟩ hls, hstop⟩

/-- A relation that does not ask for places holds between the tokens of such lexemes. -/
theorem Lexeme.Alike.related {R : Token → Token → Prop} (hR : ∀ k s p q, R ⟨k, s, p⟩ ⟨k, s, q⟩)
    {l m : Lexeme} (h : l.Alike m) : l.Related R m where
  kind := by simp only [Lexeme.kind?, h.1, h.2]
  token k _ := by
    rw [h.2]
    exact hR _ _ _ _
  margin _ := congrArg Layout.margin h.2
  mark _ k _ := hR _ _ _ _

theorem Layout.arrange_alike (levels : List Nat) {ls ms : List Lexeme}
    (h : List.Forall₂ Lexeme.Alike ls ms) :
    List.Forall₂ Token.Alike (arrange levels ls).1 (arrange levels ms).1 ∧
      (arrange levels ms).2 = (arrange levels ls).2 :=
  arrange_related levels (h.imp fun _ _ => Lexeme.Alike.related fun _ _ _ _ => ⟨rfl, .inr rfl⟩)

namespace Source

variable {cs ds : List Char}

/-- Whether a text is continued is seen at its end alone, if the text before it is not. -/
theorem dangling_append (hlast : cs.getLast? = some '\n') (h : dangling cs = false)
    (ds : List Char) : dangling (cs ++ ds) = dangling ds := by
  obtain ⟨cs, rfl⟩ := List.getLast?_eq_some_iff.mp hlast
  simp only [dangling, List.reverse_append] at h ⊢
  rw [List.dropWhile_append]
  split
  · next hempty =>
    rw [h]
    simp [List.isEmpty_iff.mp hempty]
  · rw [List.dropWhile_append]
    split
    · next hempty => simp [List.isEmpty_iff.mp hempty, isBlank]
    · next hsome =>
      rw [List.head?_append_of_ne_nil _ (by simpa using hsome)]

theorem dangling_append_line (cs : List Char) : dangling (cs ++ ['\n']) = dangling cs := by
  simp [dangling]

/-- The line ends that are added to a text. -/
def padding (cs : List Char) : List Char :=
  (if cs.getLast? = some '\n' then [] else ['\n']) ++ if dangling cs then ['\n'] else []

theorem padded_eq (cs : List Char) : padded cs = cs ++ padding cs := by
  simp only [padded, padding]
  by_cases hlast : cs.getLast? = some '\n'
  · simp only [hlast, if_true]
    split <;> simp
  · simp only [hlast, if_false, dangling_append_line]
    split <;> simp

theorem eq_of_mem_padding {c : Char} (h : c ∈ padding cs) : c = '\n' := by
  rcases List.mem_append.mp h with h | h
  · split at h
    · cases h
    · exact List.mem_singleton.mp h
  · split at h
    · exact List.mem_singleton.mp h
    · cases h

theorem padded_append (hlast : cs.getLast? = some '\n') (h : dangling cs = false) (hds : ds ≠ []) :
    padded (cs ++ ds) = cs ++ padded ds := by
  have hpadding : padding (cs ++ ds) = padding ds := by
    rw [padding, padding, List.getLast?_append_of_ne_nil _ hds, dangling_append hlast h]
  rw [padded_eq, padded_eq, hpadding, List.append_assoc]

theorem padded_eq_self (hlast : cs.getLast? = some '\n') (h : dangling cs = false) :
    padded cs = cs := by
  simp [padded, hlast, h]

theorem head?_padded (hcs : cs ≠ []) : (padded cs).head? = cs.head? := by
  obtain ⟨c, cs, rfl⟩ := List.exists_cons_of_ne_nil hcs
  simp only [padded]
  split <;> split <;> rfl

end Source

namespace Layout

theorem margin_append {more : List Char} (h : '\n' ∈ more) (text : List Char) :
    margin (text ++ more) = margin more := by
  have hne : (more.reverse.takeWhile (· ≠ '\n')).length ≠ more.reverse.length := by
    intro hlen
    have hall := List.takeWhile_eq_self_iff.mp ((List.takeWhile_prefix _).eq_of_length hlen)
    simpa using hall '\n' (List.mem_reverse.mpr h)
  rw [margin, margin, List.reverse_append, List.takeWhile_append, if_neg hne]

/-- A line end closes the same blocks when line ends that leave no margin are added to it. -/
theorem place_extend {levels : List Nat} {l : Lexeme} {more : List Char}
    (h : ∀ w ∈ levels, 0 < w) (hl : l.terminal = .newline) (hlast : l.text.getLast? = some '\n')
    (hmore : more = [] ∨ '\n' ∈ more ∧ width (margin more) = 0) :
    (place levels (l.extend more)).2 = .ok [] ∧
      List.Forall₂ Token.Alike (place levels l).1 (place levels (l.extend more)).1 := by
  have hkind : (l.extend more).kind? = some .newline := Lexeme.kind?_of_newline hl
  have hwidth : width (margin (l.extend more).text) = 0 := by
    rcases hmore with rfl | ⟨hmem, hzero⟩
    · rw [Lexeme.extend, List.append_nil, margin_of_getLast? hlast]
      rfl
    · rw [Lexeme.extend, margin_append hmem, hzero]
  rw [place_line h hl hlast]
  simp only [place, hkind, if_true, hwidth, shift_zero h, List.map_replicate]
  refine ⟨trivial, .cons ⟨rfl, .inl (by simp)⟩ ?_⟩
  exact List.forall₂_iff_get.mpr ⟨by simp, fun i _ _ => ⟨by simp, .inl (by simp)⟩⟩

end Layout

/-- A line end before the first block leaves no margin, unless it opens a block. -/
theorem Layout.arrange_first {more : List Char} {p : Position} {ls : List Lexeme} {vs : List Token}
    (h : Layout.arrange [] (⟨.newline, more, p⟩ :: ls) = (vs, .ok []))
    (hblock : ∀ t u ws, vs = t :: u :: ws → t.kind = .newline → u.kind ≠ .indent) :
    Layout.width (Layout.margin more) = 0 ∧
      ∃ t ws, vs = t :: ws ∧ t.kind = .newline ∧ Layout.arrange [] ls = (ws, .ok []) := by
  by_cases hwidth : Layout.width (Layout.margin more) = 0
  · have hplace : Layout.place [] ⟨.newline, more, p⟩ =
        ([⟨.newline, String.ofList more, p⟩], .ok []) := by
      simp [Layout.place, Lexeme.kind?, hwidth, Layout.shift, Layout.top]
    rw [Layout.arrange_cons_of_ok (congrArg Prod.snd hplace), hplace] at h
    obtain ⟨hvs, hfinal⟩ := Prod.mk.inj h
    exact ⟨hwidth, _, _, hvs.symm, rfl, Prod.ext rfl hfinal⟩
  · have hplace : Layout.place [] ⟨.newline, more, p⟩ =
        ([⟨.newline, String.ofList more, p⟩, ⟨.indent, String.ofList (Layout.margin more), p⟩],
          .ok [Layout.width (Layout.margin more)]) := by
      simp [Layout.place, Lexeme.kind?, Layout.shift, Layout.top, Nat.pos_of_ne_zero hwidth]
    rw [Layout.arrange_cons_of_ok (congrArg Prod.snd hplace), hplace] at h
    exact absurd rfl (hblock _ _ _ (congrArg Prod.fst h).symm rfl)

/-- A text after the line ends at its front: its tokens are the same, wherever it is put, but for
the line end that is left out. -/
theorem Layout.arrange_rest {cs : List Char} {vs : List Token} (hend : Source.Ended cs)
    (hstop : (Cut.ofChars .start cs).stop = none)
    (harrange : Layout.arrange [] (Cut.ofChars .start cs).lexemes = (vs, .ok []))
    (hblock : ∀ t u ws, vs = t :: u :: ws → t.kind = .newline → u.kind ≠ .indent) (q : Position) :
    let more := cs.take (scanBreaks .outside cs)
    let rest := Cut.ofChars q (cs.drop (scanBreaks .outside cs))
    rest.stop = none ∧ (Layout.arrange [] rest.lexemes).2 = .ok [] ∧
      (more = [] ∧ List.Forall₂ Token.Alike vs (Layout.arrange [] rest.lexemes).1 ∨
        ('\n' ∈ more ∧ Layout.width (Layout.margin more) = 0) ∧
        ∃ t ws, vs = t :: ws ∧ t.kind = .newline ∧
          List.Forall₂ Token.Alike ws (Layout.arrange [] rest.lexemes).1) := by
  intro more rest
  by_cases hzero : scanBreaks .outside cs = 0
  · have hrest : rest = Cut.ofChars q cs := by simp only [rest, hzero, List.drop_zero]
    have hmore : more = [] := by simp only [more, hzero, List.take_zero]
    obtain ⟨halike, hnone⟩ := Cut.ofChars_alike .start q cs
    obtain ⟨htokens, hfinal⟩ := Layout.arrange_alike [] halike
    rw [harrange] at htokens hfinal
    rw [hrest]
    exact ⟨hnone hstop, hfinal, .inl ⟨hmore, htokens⟩⟩
  · have hpos := Nat.pos_of_ne_zero hzero
    rw [Cut.ofChars_of_some (Terminal.first?_of_scanBreaks hpos)] at hstop harrange
    obtain ⟨hwidth, t, ws, hvs, ht, hws⟩ := Layout.arrange_first harrange hblock
    obtain ⟨halike, hnone⟩ := Cut.ofChars_alike (Position.start.after more) q
      (cs.drop (scanBreaks .outside cs))
    obtain ⟨htokens, hfinal⟩ := Layout.arrange_alike [] halike
    rw [hws] at htokens hfinal
    have hmem := Terminal.mem_take_scanBreaks (List.mem_of_getLast? hend.line) hpos
    exact ⟨hnone hstop, hfinal, .inr ⟨⟨hmem, hwidth⟩, t, ws, hvs, ht, htokens⟩⟩

/-- An ended text before another one: its tokens are the same, if the line ends that are added to
its last one leave no margin. -/
theorem Layout.arrange_seam {cs : List Char} {us : List Token} (hend : Source.Ended cs)
    (hstop : (Cut.ofChars .start cs).stop = none)
    (harrange : Layout.arrange [] (Cut.ofChars .start cs).lexemes = (us, .ok [])) (ds : List Char) :
    let more := ds.take (scanBreaks .inside ds)
    ∃ q, let rest := Cut.ofChars q (ds.drop (scanBreaks .inside ds))
      (Cut.ofChars .start (cs ++ ds)).stop = rest.stop ∧
      (more = [] ∨ '\n' ∈ more ∧ Layout.width (Layout.margin more) = 0 →
        ∃ us', List.Forall₂ Token.Alike us us' ∧
          Layout.arrange [] (Cut.ofChars .start (cs ++ ds)).lexemes =
            (us' ++ (Layout.arrange [] rest.lexemes).1, (Layout.arrange [] rest.lexemes).2)) := by
  intro more
  obtain ⟨ls, l, q, hls, hl, hlast, hcut⟩ := Cut.ofChars_append hend hstop ds
  refine ⟨q, by rw [hcut]; rfl, fun hmore => ?_⟩
  rw [hls] at harrange
  cases hlevels : (Layout.arrange [] ls).2 with
  | error e =>
    rw [Layout.arrange_append_of_error hlevels] at harrange
    exact nomatch congrArg Prod.snd harrange
  | ok levels =>
    have hpos := Layout.pos_of_arrange (by simp) hlevels
    have hplace := Layout.place_line hpos hl hlast
    obtain ⟨hclosed, halike⟩ := Layout.place_extend hpos hl hlast hmore
    rw [Layout.arrange_append_of_ok hlevels, Layout.arrange_cons_of_ok (congrArg Prod.snd hplace)]
      at harrange
    have hus : (Layout.arrange [] ls).1 ++ (Layout.place levels l).1 = us := by
      simpa [Layout.arrange] using congrArg Prod.fst harrange
    refine ⟨(Layout.arrange [] ls).1 ++ (Layout.place levels (l.extend more)).1, ?_, ?_⟩
    · rw [← hus]
      exact List.rel_append (List.forall₂_same.mpr fun t _ => ⟨rfl, .inr rfl⟩) halike
    · rw [hcut]
      simp only [Cut.prepend, List.append_assoc, List.singleton_append]
      rw [Layout.arrange_append_of_ok hlevels, Layout.arrange_cons_of_ok hclosed]

theorem tokenize_empty :
    tokenize "" = .ok ([⟨.newline, "\n", ⟨1, 1⟩⟩] ++ [.eofAt ⟨1, 1⟩]) := by
  decide +kernel

/-- The tokens of an ended text, and after them those of a text that begins without a margin, are
the tokens of both texts together. A line end that begins the second text is lost in the one that
ends the first. -/
theorem tokenize_append {a b : String} {us vs : List Token} {e f : Token}
    (ha : tokenize a = .ok (us ++ [e])) (hb : tokenize b = .ok (vs ++ [f]))
    (hlast : a.toList.getLast? = some '\n') (hfree : Source.dangling a.toList = false)
    (hhead : ∀ c ∈ b.toList.head?, isMargin c = false)
    (hblock : ∀ t u ws, vs = t :: u :: ws → t.kind = .newline → u.kind ≠ .indent) :
    ∃ us' vs' g, tokenize (a ++ b) = .ok (us' ++ vs' ++ [g]) ∧ g.kind = .eof ∧
      List.Forall₂ Token.Alike us us' ∧ (List.Forall₂ Token.Alike vs vs' ∨
        ∃ t ws, vs = t :: ws ∧ t.kind = .newline ∧ List.Forall₂ Token.Alike ws vs') := by
  obtain ⟨hstop, hok, hus⟩ := tokenize_eq_ok_iff.mp ha
  obtain ⟨hstop', hok', hvs⟩ := tokenize_eq_ok_iff.mp hb
  obtain ⟨hus, he⟩ := List.append_inj' hus rfl
  obtain ⟨hvs, -⟩ := List.append_inj' hvs rfl
  rw [Source.padded_eq_self hlast hfree] at hstop hok hus
  by_cases hempty : b.toList = []
  · obtain rfl : b = "" := by simpa using hempty
    rw [tokenize_empty] at hb
    obtain rfl : [⟨.newline, "\n", ⟨1, 1⟩⟩] = vs :=
      (List.append_inj' (Except.ok.inj hb) rfl).1
    have hkind : e.kind = .eof := by rw [(List.cons.inj he).1]; rfl
    refine ⟨us, [], e, by simpa using ha, hkind, ?_, .inr ⟨_, [], rfl, rfl, .nil⟩⟩
    exact List.forall₂_same.mpr fun t _ => ⟨rfl, .inr rfl⟩
  · have hends := Source.ended_of_not_dangling hlast hfree
    have hbreaks : scanBreaks .inside (Source.padded b.toList) =
        scanBreaks .outside (Source.padded b.toList) :=
      Terminal.scanBreaks_of_head nofun (by rwa [Source.head?_padded hempty])
    obtain ⟨q, hq, hseam⟩ := Layout.arrange_seam hends hstop (Prod.ext hus.symm hok)
      (Source.padded b.toList)
    rw [hbreaks] at hq hseam
    obtain ⟨hnone, hfinal, hrest⟩ := Layout.arrange_rest (Source.ended_padded b.toList) hstop'
      (Prod.ext hvs.symm hok') hblock q
    obtain ⟨us', halike, hall⟩ := hseam (hrest.imp And.left And.left)
    have hpadded : Source.padded (a ++ b).toList = a.toList ++ Source.padded b.toList := by
      rw [String.toList_append, Source.padded_append hlast hfree hempty]
    have hend : (Cut.ofChars .start (Source.padded (a ++ b).toList)).stop = none := by
      rw [hpadded]
      exact hq.trans hnone
    have hlevels : (Layout.arrange []
        (Cut.ofChars .start (Source.padded (a ++ b).toList)).lexemes).2 = .ok [] := by
      rw [hpadded, hall]
      exact hfinal
    have htokens := tokenize_eq_ok_iff.mpr ⟨hend, hlevels, rfl⟩
    rw [hpadded, hall] at htokens
    exact ⟨us', _, _, htokens, rfl, halike, hrest.imp And.right And.right⟩

end TinyScript
