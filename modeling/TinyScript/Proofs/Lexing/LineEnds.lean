import TinyScript.Proofs.Parsing.Alike

/-!
# Line ends of one and of two characters

A line may end with a line feed or with a carriage return before it. `Reended cs ds` says that `ds`
is `cs` with carriage returns put before some of its line feeds. Every class of lexemes cuts two
such texts at corresponding places (`Terminal.scan_reended`): line ends, comments and continuations
take the carriage return in, and no other class reaches it, although a string may hold one. Places
are the same too, because nothing but a line feed stands between a carriage return and the next
line.

So the tokens of the two texts are the same but for the texts of line ends (`tokenize_reended`).
-/

namespace TinyScript

open Text (isDigit isWord)
open Terminal (run scanFloat scanString scanStringRest scanBreaks scanContinuation scanName
  scanSymbol isBlank isMargin first?)

/-- The second text is the first one, which has no carriage return, with carriage returns before
some line feeds. -/
inductive Reended : List Char → List Char → Prop where
  | nil : Reended [] []
  | same {c : Char} {cs ds : List Char} (hc : c ≠ '\r') (rest : Reended cs ds) :
      Reended (c :: cs) (c :: ds)
  | line {cs ds : List Char} (rest : Reended cs ds) : Reended ('\n' :: cs) ('\r' :: '\n' :: ds)

/-- The two texts, cut at these places, have corresponding parts. -/
structure CutAlong (n m : Nat) (cs ds : List Char) : Prop where
  taken : Reended (cs.take n) (ds.take m)
  left : Reended (cs.drop n) (ds.drop m)

namespace Reended

variable {cs ds : List Char}

theorem refl {cs : List Char} (h : '\r' ∉ cs) : Reended cs cs := by
  induction cs with
  | nil => exact .nil
  | cons c cs ih =>
    simp only [List.mem_cons, not_or] at h
    exact .same (Ne.symm h.1) (ih h.2)

theorem append {cs' ds' : List Char} (h : Reended cs ds) (h' : Reended cs' ds') :
    Reended (cs ++ cs') (ds ++ ds') := by
  induction h with
  | nil => exact h'
  | same hc _ ih => exact .same hc ih
  | line _ ih => exact .line ih

theorem eq_of_free (h : Reended cs ds) (hfree : '\n' ∉ cs) : ds = cs := by
  induction h with
  | nil => rfl
  | same hc _ ih => rw [ih fun hmem => hfree (List.mem_cons_of_mem _ hmem)]
  | line => exact absurd List.mem_cons_self hfree

theorem eq_nil_iff (h : Reended cs ds) : ds = [] ↔ cs = [] := by
  cases h <;> simp

theorem newline_mem (h : Reended cs ds) (hmem : '\n' ∈ cs) : '\n' ∈ ds := by
  induction h with
  | nil => exact hmem
  | same hc _ ih =>
    rcases List.mem_cons.mp hmem with rfl | hmem
    · exact List.mem_cons_self
    · exact List.mem_cons_of_mem _ (ih hmem)
  | line => simp

theorem after (h : Reended cs ds) (p : Position) : p.after ds = p.after cs := by
  induction h generalizing p with
  | nil => rfl
  | same hc _ ih => exact ih _
  | line _ ih => exact ih _

theorem margin_cons (h : Reended cs ds) (hmargin : Layout.margin ds = Layout.margin cs) (c : Char) :
    Layout.margin (c :: ds) = Layout.margin (c :: cs) := by
  by_cases hcs : '\n' ∈ cs
  · rw [← List.singleton_append, Layout.margin_append (h.newline_mem hcs), ← List.singleton_append,
      Layout.margin_append hcs, hmargin]
  · rw [h.eq_of_free hcs]

/-- The margin behind the last line end is the same. -/
theorem margin (h : Reended cs ds) : Layout.margin ds = Layout.margin cs := by
  induction h with
  | nil => rfl
  | same hc rest ih => exact rest.margin_cons ih _
  | line rest ih =>
    rw [← List.singleton_append, Layout.margin_append List.mem_cons_self]
    exact rest.margin_cons ih '\n'

/-- Inside a line the texts are cut at the same places. -/
theorem cutAlong_of_free (h : Reended cs ds) {n : Nat} (hfree : '\n' ∉ cs.take n) :
    CutAlong n n cs ds := by
  induction h generalizing n with
  | nil => exact ⟨by simpa using Reended.nil, by simpa using Reended.nil⟩
  | @same c cs ds hc rest ih =>
    cases n with
    | zero => exact ⟨.nil, .same hc rest⟩
    | succ n =>
      have hcut := ih (n := n) fun hmem => hfree (List.mem_cons_of_mem _ hmem)
      exact ⟨.same hc hcut.taken, hcut.left⟩
  | @line cs ds rest ih =>
    cases n with
    | zero => exact ⟨.nil, .line rest⟩
    | succ n => exact absurd List.mem_cons_self hfree

end Reended

namespace CutAlong

variable {n m n' m' : Nat} {cs ds : List Char}

theorem zero (h : Reended cs ds) : CutAlong 0 0 cs ds := ⟨.nil, h⟩

theorem add (h : CutAlong n m cs ds) (h' : CutAlong n' m' (cs.drop n) (ds.drop m)) :
    CutAlong (n + n') (m + m') cs ds where
  taken := by
    rw [List.take_add, List.take_add]
    exact h.taken.append h'.taken
  left := by
    rw [← List.drop_drop, ← List.drop_drop]
    exact h'.left

theorem same {c : Char} (hc : c ≠ '\r') (h : CutAlong n m cs ds) :
    CutAlong (n + 1) (m + 1) (c :: cs) (c :: ds) :=
  ⟨.same hc h.taken, h.left⟩

theorem line (h : CutAlong n m cs ds) :
    CutAlong (n + 1) (m + 2) ('\n' :: cs) ('\r' :: '\n' :: ds) :=
  ⟨.line h.taken, h.left⟩

end CutAlong

namespace Terminal

variable {cs ds : List Char}

theorem run_reended {p : Char → Bool} (hn : p '\n' = false) (hr : p '\r' = false)
    (h : Reended cs ds) : run p ds = run p cs := by
  unfold run
  induction h with
  | nil => rfl
  | @same c cs ds hc rest ih =>
    rw [List.takeWhile_cons, List.takeWhile_cons]
    split
    · rw [List.length_cons, List.length_cons, ih]
    · rfl
  | line => simp [hn, hr]

theorem cutAlong_run {p : Char → Bool} (hn : p '\n' = false) (h : Reended cs ds) :
    CutAlong (run p cs) (run p cs) cs ds := by
  refine h.cutAlong_of_free ?_
  rw [take_run]
  intro hmem
  rw [of_mem_takeWhile hmem] at hn
  cases hn

theorem scanFloat_reended (h : Reended cs ds) : scanFloat ds = scanFloat cs := by
  have hn : isDigit '\n' = false := by decide
  have hr : isDigit '\r' = false := by decide
  have hleft := (cutAlong_run hn h).left
  simp only [scanFloat, run_reended hn hr h]
  generalize cs.drop (run isDigit cs) = cs' at hleft ⊢
  generalize ds.drop (run isDigit cs) = ds' at hleft ⊢
  cases hleft with
  | nil => rfl
  | @same c _ _ hc rest =>
    by_cases hpoint : c = '.'
    · subst hpoint
      simp only [run_reended hn hr rest]
    · simp [hpoint]
  | line => rfl

theorem scanStringRest_reended {mark : Char} (hmark : Text.Quoted.IsMark mark) (h : Reended cs ds) :
    scanStringRest mark ds = scanStringRest mark cs := by
  have hn : '\n' ≠ mark := by rcases hmark with rfl | rfl <;> decide
  -- A carriage return may stand in a string, but the line feed behind it ends the line.
  have hreturn : ∀ es, scanStringRest mark ('\r' :: '\n' :: es) = none := by
    intro es
    have hr : '\r' ≠ mark := by rcases hmark with rfl | rfl <;> decide
    rw [Text.Quoted.scanStringRest_cons hr (by decide) (by decide), scanStringRest_line hn]
    rfl
  fun_induction scanStringRest mark cs generalizing ds with
  | case1 =>
    cases h
    rfl
  | case2 cs =>
    cases h with
    | same => exact scanStringRest_mark mark _
    | line => exact absurd rfl hn
  | case3 cs hne =>
    cases h with
    | same => exact scanStringRest_line hne _
    | line => exact hreturn _
  | case4 hne =>
    cases h with
    | same _ rest =>
      cases rest
      rw [scanStringRest, if_neg hne, if_neg (by decide), if_pos rfl]
  | case5 cs hne =>
    cases h with
    | same _ rest =>
      cases rest with
      | same =>
        rw [scanStringRest, if_neg hne, if_neg (by decide), if_pos rfl]
        exact if_pos rfl
      | line =>
        rw [Text.Quoted.scanStringRest_backslash hmark (by decide), scanStringRest_line hn]
        rfl
  | case6 d cs hd _ _ ih =>
    cases h with
    | same _ rest =>
      cases rest with
      | same _ rest => rw [Text.Quoted.scanStringRest_backslash hmark hd, ih rest]
      | line => exact absurd rfl hd
  | case7 c cs hc hline hslash ih =>
    cases h with
    | same _ rest => rw [Text.Quoted.scanStringRest_cons hc hline hslash, ih rest]
    | line => exact absurd rfl hline

theorem scanString_reended (h : Reended cs ds) : scanString ds = scanString cs := by
  cases h with
  | nil => rfl
  | same hc rest =>
    simp only [scanString]
    split
    · next hmark => rw [scanStringRest_reended hmark.symm rest]
    · rfl
  | line => rfl

theorem scanName_reended (h : Reended cs ds) : scanName ds = scanName cs := by
  cases h with
  | nil => rfl
  | same hc rest => simp only [scanName, run_reended (p := isWord) (by decide) (by decide) rest]
  | line =>
    have hn : isWord '\n' = false := by decide
    have hr : isWord '\r' = false := by decide
    simp [scanName, hn, hr]

theorem isPrefixOf_reended {w : List Char} (hn : '\n' ∉ w) (hr : '\r' ∉ w) (h : Reended cs ds) :
    w.isPrefixOf ds = w.isPrefixOf cs := by
  induction w generalizing cs ds with
  | nil => simp
  | cons c w ih =>
    simp only [List.mem_cons, not_or] at hn hr
    cases h with
    | nil => rfl
    | same _ rest => rw [List.isPrefixOf_cons_cons, List.isPrefixOf_cons_cons, ih hn.2 hr.2 rest]
    | line =>
      rw [List.isPrefixOf_cons_cons, List.isPrefixOf_cons_cons, beq_false_of_ne (Ne.symm hn.1),
        beq_false_of_ne (Ne.symm hr.1)]
      rfl

theorem scanSymbol_reended (s : Symbol) (h : Reended cs ds) :
    scanSymbol s ds = scanSymbol s cs := by
  have hn : '\n' ∉ s.chars := by cases s <;> decide
  have hr : '\r' ∉ s.chars := by cases s <;> decide
  rw [scanSymbol, scanSymbol, isPrefixOf_reended hn hr h]

theorem scanContinuation_eq_zero {rest : List Char} {d : Char}
    (hdrop : cs.drop (run isBlank cs) = d :: rest) (hn : d ≠ '\n') (hr : d ≠ '\r') :
    scanContinuation ('\\' :: cs) = 0 := by
  simp only [scanContinuation, hdrop]
  split <;> simp_all

theorem scanContinuation_reended (h : Reended cs ds) :
    CutAlong (scanContinuation cs) (scanContinuation ds) cs ds := by
  cases h with
  | nil => exact .zero .nil
  | line rest => exact .zero (.line rest)
  | @same c cs ds hc rest =>
    by_cases hslash : c = '\\'
    · subst hslash
      have hcut := cutAlong_run (p := isBlank) rfl rest
      have hleft := hcut.left
      have hrun : run isBlank ds = run isBlank cs := run_reended rfl rfl rest
      generalize hcs : cs.drop (run isBlank cs) = cs' at hleft
      generalize hds : ds.drop (run isBlank cs) = ds' at hleft
      cases hleft with
      | nil =>
        simp only [scanContinuation, hrun, hcs, hds]
        exact .zero (.same hc rest)
      | @same d cs' ds' hd hmore =>
        by_cases hline : d = '\n'
        · subst hline
          have hstep : CutAlong 1 1 (cs.drop (run isBlank cs)) (ds.drop (run isBlank cs)) := by
            rw [hcs, hds]
            exact .same hd (.zero hmore)
          simp only [scanContinuation, hrun, hcs, hds]
          exact .same hc (hcut.add hstep)
        · have hzero : scanContinuation ('\\' :: ds) = 0 :=
            scanContinuation_eq_zero (hrun ▸ hds) hline hd
          rw [scanContinuation_eq_zero hcs hline hd, hzero]
          exact .zero (.same hc rest)
      | line hmore =>
        have hstep : CutAlong 1 2 (cs.drop (run isBlank cs)) (ds.drop (run isBlank cs)) := by
          rw [hcs, hds]
          exact .line (.zero hmore)
        simp only [scanContinuation, hrun, hcs, hds]
        exact .same hc (hcut.add hstep)
    · rw [scanContinuation_cons hslash, scanContinuation_cons hslash]
      exact .zero (.same hc rest)

theorem scanBreaks_reended (state : Margin) (h : Reended cs ds) :
    CutAlong (scanBreaks state cs) (scanBreaks state ds) cs ds := by
  fun_induction scanBreaks state cs generalizing ds with
  | case1 =>
    cases h
    exact .zero .nil
  | case2 state cs ih =>
    cases h with
    | same hc rest =>
      rw [scanBreaks_line]
      exact .same hc (ih rest)
    | line rest =>
      rw [scanBreaks_return]
      exact .line (ih rest)
  | case3 c cs hn ih =>
    cases h with
    | same hc rest =>
      rw [scanBreaks_comment_cons _ hn]
      exact .same hc (ih rest)
    | line => exact absurd rfl hn
  | case4 state cs hn hstate ih =>
    cases h with
    | same hc rest =>
      rw [scanBreaks_hash]
      exact .same hc (ih rest)
  | case5 state c cs hn hstate hhash hmargin ih =>
    obtain ⟨rfl, hmargin⟩ := hmargin
    cases h with
    | same hc rest =>
      rw [scanBreaks_margin_cons _ hmargin]
      exact .same hc (ih rest)
    | line => exact absurd rfl hn
  | case6 =>
    cases h with
    | same hc => exact absurd rfl hc
  | case7 =>
    cases h with
    | same hc => exact absurd rfl hc
  | case8 =>
    cases h with
    | same hc => exact absurd rfl hc
  | case9 state c cs hn hstate hhash hmargin hr =>
    cases h with
    | @same _ _ ds hc rest =>
      have hzero : scanBreaks state (c :: ds) = 0 := by
        cases ds <;> simp [scanBreaks, hn, hstate, hhash, hmargin, hr]
      rw [hzero]
      exact .zero (.same hc rest)
    | line => exact absurd rfl hn

/-- Line feeds are found by line ends and continuations only. -/
theorem newline_not_mem_take_scan {t : Terminal} (hline : t ≠ .newline) (hcont : t ≠ .continuation)
    (cs : List Char) : '\n' ∉ cs.take (t.scan cs) := by
  intro hmem
  have hpos : 0 < t.scan cs := by
    refine Nat.pos_of_ne_zero fun hzero => ?_
    rw [hzero] at hmem
    cases hmem
  rcases (matches_take_scan hpos).of_mem_newline hmem with ht | ht
  · exact hline ht
  · exact hcont ht

/-- Every class cuts the two texts at corresponding places. -/
theorem scan_reended (t : Terminal) (h : Reended cs ds) :
    CutAlong (t.scan cs) (t.scan ds) cs ds := by
  by_cases hline : t = .newline
  · subst hline
    exact scanBreaks_reended .outside h
  by_cases hcont : t = .continuation
  · subst hcont
    exact scanContinuation_reended h
  have heq : t.scan ds = t.scan cs := by
    cases t with
    | float => exact scanFloat_reended h
    | string => exact scanString_reended h
    | newline => exact absurd rfl hline
    | continuation => exact absurd rfl hcont
    | name => exact scanName_reended h
    | blank => exact run_reended rfl rfl h
    | number => exact run_reended (by decide) (by decide) h
    | symbol s => exact scanSymbol_reended s h
  rw [heq]
  exact h.cutAlong_of_free (newline_not_mem_take_scan hline hcont cs)

theorem take_scan_eq_nil_iff {t : Terminal} : cs.take (t.scan cs) = [] ↔ t.scan cs = 0 := by
  refine ⟨fun h => ?_, fun h => by rw [h, List.take_zero]⟩
  by_contra hne
  exact (matches_take_scan (Nat.pos_of_ne_zero hne)).ne_nil h

theorem scan_eq_zero_iff_of_reended (t : Terminal) (h : Reended cs ds) :
    t.scan ds = 0 ↔ t.scan cs = 0 := by
  rw [← take_scan_eq_nil_iff, ← take_scan_eq_nil_iff]
  exact (scan_reended t h).taken.eq_nil_iff

theorem first?_reended {t : Terminal} {n : Nat} (h : Reended cs ds)
    (hfirst : first? cs = some (t, n)) : first? ds = some (t, t.scan ds) := by
  obtain ⟨before, after, horder, hbefore, rfl, hpos⟩ := order_of_first? hfirst
  refine first?_of_order before horder (fun u hu => ?_) rfl (Nat.pos_of_ne_zero ?_)
  · exact (scan_eq_zero_iff_of_reended u h).mpr (hbefore u hu)
  · exact mt (scan_eq_zero_iff_of_reended t h).mp (Nat.ne_of_gt hpos)

theorem first?_eq_none_of_reended (h : Reended cs ds) (hnone : first? cs = none) :
    first? ds = none :=
  (first?_eq_none_iff ds).mpr fun t =>
    (scan_eq_zero_iff_of_reended t h).mpr ((first?_eq_none_iff cs).mp hnone t)

end Terminal

/-- Tokens that are equal, but for the texts of line ends. -/
def Token.SameButLineEnd (t u : Token) : Prop :=
  u.kind = t.kind ∧ u.position = t.position ∧ (t.kind = .newline ∨ u.text = t.text)

theorem Lexeme.related_of_reended {t : Terminal} {w w' : List Char} (p : Position)
    (h : Reended w w') (hmatch : t.Matches w) :
    Lexeme.Related Token.SameButLineEnd ⟨t, w, p⟩ ⟨t, w', p⟩ := by
  by_cases hfree : '\n' ∈ w
  · rcases hmatch.of_mem_newline hfree with rfl | rfl
    · refine ⟨rfl, fun k hk => ?_, fun _ => h.margin, fun _ _ _ => ⟨rfl, rfl, .inr rfl⟩⟩
      exact ⟨rfl, rfl, .inl (Option.some.inj hk).symm⟩
    · exact ⟨rfl, fun _ hk => (nomatch hk), fun hk => (nomatch hk), fun hk => (nomatch hk)⟩
  · rw [h.eq_of_free hfree]
    exact .refl (fun _ => ⟨rfl, rfl, .inr rfl⟩) _

/-- The two texts are cut into corresponding lexemes, and stop at the same character. -/
theorem Cut.ofChars_reended (p : Position) (cs ds : List Char) (h : Reended cs ds) :
    List.Forall₂ (Lexeme.Related Token.SameButLineEnd) (Cut.ofChars p cs).lexemes
        (Cut.ofChars p ds).lexemes ∧
      (Cut.ofChars p ds).stop = (Cut.ofChars p cs).stop := by
  fun_induction Cut.ofChars p cs generalizing ds with
  | case1 =>
    cases h
    simp
  | case2 p c rest hnone =>
    have hnone' := Terminal.first?_eq_none_of_reended h hnone
    cases h with
    | same =>
      rw [Cut.ofChars_of_none hnone']
      exact ⟨.nil, rfl⟩
    | line =>
      have hbreaks := (Terminal.first?_eq_none_iff _).mp hnone .newline
      rw [Terminal.scan, Terminal.scanBreaks_line] at hbreaks
      cases hbreaks
  | case3 p c rest t n hfirst text ih =>
    obtain ⟨rfl, hpos⟩ := Terminal.scan_of_first? hfirst
    have hfirst' := Terminal.first?_reended h hfirst
    have hcut := Terminal.scan_reended t h
    have hne : ds ≠ [] := by
      rintro rfl
      cases h
    obtain ⟨d, ds, rfl⟩ := List.exists_cons_of_ne_nil hne
    obtain ⟨hlexemes, hstop⟩ := ih _ hcut.left
    rw [Cut.ofChars_of_some hfirst', hcut.taken.after]
    refine ⟨.cons ?_ hlexemes, hstop⟩
    exact Lexeme.related_of_reended p hcut.taken (Terminal.matches_take_scan hpos)

namespace Source

/-- The line end of a character: a line feed gets a carriage return. -/
def withReturn (c : Char) : List Char := if c = '\n' then ['\r', '\n'] else [c]

/-- A text with a carriage return before every line feed. -/
def withReturns (source : String) : String := String.ofList (source.toList.flatMap withReturn)

variable {cs : List Char}

theorem reended_withReturns (h : '\r' ∉ cs) : Reended cs (cs.flatMap withReturn) := by
  induction cs with
  | nil => exact .nil
  | cons c cs ih =>
    simp only [List.mem_cons, not_or] at h
    rw [List.flatMap_cons, withReturn]
    split
    · next hc =>
      subst hc
      exact .line (ih h.2)
    · exact .same (Ne.symm h.1) (ih h.2)

theorem getLast?_withReturns (cs : List Char) :
    (cs.flatMap withReturn).getLast? = cs.getLast? := by
  rcases List.eq_nil_or_concat' cs with rfl | ⟨cs, c, rfl⟩
  · rfl
  · have hne : withReturn c ≠ [] := by unfold withReturn; split <;> simp
    rw [List.flatMap_append, List.flatMap_singleton, List.getLast?_append_of_ne_nil _ hne]
    unfold withReturn
    split
    · next hc => simp [hc]
    · simp

/-- Blanks at the end, read backwards, end at the same character. -/
theorem head?_dropWhile_withReturns (cs : List Char) :
    ((cs.flatMap (List.reverse ∘ withReturn)).dropWhile isBlank).head? =
      (cs.dropWhile isBlank).head? := by
  induction cs with
  | nil => rfl
  | cons c cs ih =>
    by_cases hc : c = '\n'
    · subst hc
      rfl
    · have hreturn : (List.reverse ∘ withReturn) c = [c] := by simp [withReturn, hc]
      rw [List.flatMap_cons, hreturn, List.singleton_append, List.dropWhile_cons,
        List.dropWhile_cons]
      split
      · exact ih
      · rfl

theorem dangling_withReturns (h : '\r' ∉ cs) :
    dangling (cs.flatMap withReturn) = dangling cs := by
  have hback : ∀ es : List Char, '\r' ∉ es →
      (((es.flatMap (List.reverse ∘ withReturn)).dropWhile fun c => c = '\r' || c = '\n').dropWhile
        isBlank).head? =
        ((es.dropWhile fun c => c = '\r' || c = '\n').dropWhile isBlank).head? := by
    intro es hes
    induction es with
    | nil => rfl
    | cons c es ih =>
      simp only [List.mem_cons, not_or] at hes
      by_cases hc : c = '\n'
      · subst hc
        exact ih hes.2
      · have hreturn : (List.reverse ∘ withReturn) c = [c] := by simp [withReturn, hc]
        have hstop : (c = '\r' || c = '\n') = false := by simp [hc, Ne.symm hes.1]
        have hhead := head?_dropWhile_withReturns (c :: es)
        rw [List.flatMap_cons, hreturn, List.singleton_append] at hhead ⊢
        rwa [List.dropWhile_cons, hstop, List.dropWhile_cons, hstop]
  rw [dangling, dangling, List.reverse_flatMap, hback _ (by simpa using h)]

/-- The padding is the same in both styles. -/
theorem padded_reended (h : '\r' ∉ cs) : Reended (padded cs) (padded (cs.flatMap withReturn)) := by
  have hpadding : padding (cs.flatMap withReturn) = padding cs := by
    rw [padding, padding, getLast?_withReturns, dangling_withReturns h]
  rw [padded_eq, padded_eq, hpadding]
  refine (reended_withReturns h).append (.refl fun hmem => ?_)
  exact absurd (eq_of_mem_padding hmem) (by decide)

theorem cut_reended {source : String} (h : '\r' ∉ source.toList) :
    List.Forall₂ (Lexeme.Related Token.SameButLineEnd) (cut source).lexemes
        (cut (withReturns source)).lexemes ∧
      (cut (withReturns source)).stop = (cut source).stop := by
  simp only [cut, withReturns, String.toList_ofList]
  exact Cut.ofChars_reended .start _ _ (padded_reended h)

end Source

theorem Token.lastPosition_of_sameButLineEnd {ts us : List Token}
    (h : List.Forall₂ Token.SameButLineEnd ts us) :
    Token.lastPosition us = Token.lastPosition ts := by
  have hlast := getLast?_related h
  unfold Token.lastPosition
  generalize ts.getLast? = last at hlast ⊢
  generalize us.getLast? = last' at hlast ⊢
  cases hlast with
  | none => rfl
  | some ht => exact ht.2.1

theorem tokenize_reended {source : String} (h : '\r' ∉ source.toList) :
    SameTokens Token.SameButLineEnd Eq (tokenize source)
      (tokenize (Source.withReturns source)) := by
  obtain ⟨hlexemes, hstop⟩ := Source.cut_reended h
  obtain ⟨htokens, hlevels⟩ := Layout.arrange_related [] hlexemes
  refine tokenize_related (fun ts us hts => ?_) (fun _ => rfl) htokens hlevels ?_
  · rw [Token.lastPosition_of_sameButLineEnd hts]
    exact ⟨rfl, rfl, .inr rfl⟩
  · rw [hstop]
    cases (Source.cut source).stop with
    | none => exact .none
    | some x => exact .some rfl

theorem Token.SameButLineEnd.alike {t u : Token} (h : t.SameButLineEnd u) : t.Alike u :=
  ⟨h.1, h.2.2.imp (fun hk => by simp [hk]) id⟩

/-- A carriage return before every line feed changes the texts of line ends only: kinds, texts and
places of all other tokens stay, or both texts are refused for one cause after such tokens. The
program is the same, or both are refused with errors of one class. -/
theorem tokenize_withReturns {source : String} (h : '\r' ∉ source.toList) :
    SameTokens Token.SameButLineEnd Eq (tokenize source) (tokenize (Source.withReturns source)) ∧
      ∀ room log log', SameOutcome (parseProgram room source log).1
        (parseProgram room (Source.withReturns source) log').1 := by
  have htokens := tokenize_reended h
  have halike : SameTokens Token.Alike Eq (tokenize source)
      (tokenize (Source.withReturns source)) :=
    htokens.imp (fun _ _ => Token.SameButLineEnd.alike) (fun _ _ => id)
  exact ⟨htokens, fun room log log' => parseProgram_of_alike halike room log log'⟩

/-- A block with a comment and a continued line, in both styles. -/
theorem tokenize_withReturns_blockText :
    '\r' ∉ blockText.toList ∧
      SameTokens Token.SameButLineEnd Eq (.ok (blockTokens ++
        [⟨.dedent, "", ⟨3, 5⟩⟩, Token.eofAt ⟨3, 5⟩])) (tokenize (Source.withReturns blockText)) ∧
      ∃ program, (parseProgram 200 blockText ⟨0, #[]⟩).1 = .ok program ∧
        (parseProgram 200 (Source.withReturns blockText) ⟨0, #[]⟩).1 = .ok program := by
  have hfree : '\r' ∉ blockText.toList := by decide +kernel
  have htext : tokenize blockText =
      .ok (blockTokens ++ [⟨.dedent, "", ⟨3, 5⟩⟩, Token.eofAt ⟨3, 5⟩]) := by decide +kernel
  have hread : (parseProgram 200 blockText ⟨0, #[]⟩).1.isOk = true := by decide +kernel
  obtain ⟨htokens, hprogram⟩ := tokenize_withReturns hfree
  exact ⟨hfree, htext ▸ htokens, (hprogram 200 ⟨0, #[]⟩ ⟨0, #[]⟩).exists_of_isOk hread⟩

end TinyScript
