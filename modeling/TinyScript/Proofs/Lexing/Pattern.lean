import TinyScript.Proofs.Lexing.Spelling

/-!
# The patterns of the classes of lexemes

What the texts of a class look like, said without reference to how they are found:

    float        = digit { digit } "." { digit } | "." digit { digit }
    string       = mark { any but mark, backslash and line feed | backslash any but line feed } mark
    newline      = piece { piece },  piece = line_end { tab | space } | "#" { any but line feed }
    continuation = backslash { blank } line_end
    name         = word { word }, the first of which is no digit
    blank        = blank { blank }
    number       = digit { digit }

A class finds a text of its pattern (`matches_take_scan`), and the longest one (`le_scan`), so it
finds nothing exactly where no text of its pattern begins.
-/

namespace TinyScript.Terminal

open Text (isDigit isWord)

/-- A line feed, perhaps after a carriage return. -/
def IsLineEnd (w : List Char) : Prop := w = ['\n'] ∨ w = ['\r', '\n']

/-- What stands between the marks of a string. -/
inductive StringBody (mark : Char) : List Char → Prop where
  | nil : StringBody mark []
  | plain {c : Char} {cs : List Char} (hmark : c ≠ mark) (hslash : c ≠ '\\') (hline : c ≠ '\n')
      (rest : StringBody mark cs) : StringBody mark (c :: cs)
  | escaped {c : Char} {cs : List Char} (hline : c ≠ '\n') (rest : StringBody mark cs) :
      StringBody mark ('\\' :: c :: cs)

/-- A line end with the margin after it, or a comment. -/
inductive Break : List Char → Prop where
  | line {e margin : List Char} (he : IsLineEnd e) (hmargin : ∀ c ∈ margin, isMargin c = true) :
      Break (e ++ margin)
  | comment {cs : List Char} (hcs : ∀ c ∈ cs, c ≠ '\n') : Break ('#' :: cs)

/-- The text is one of the pattern of the class. -/
def Matches : Terminal → List Char → Prop
  | float, w => ∃ whole fraction, w = whole ++ '.' :: fraction ∧ (∀ d ∈ whole, isDigit d = true) ∧
      (∀ d ∈ fraction, isDigit d = true) ∧ ¬(whole = [] ∧ fraction = [])
  | string, w => ∃ mark body, Text.Quoted.IsMark mark ∧ StringBody mark body ∧
      w = mark :: (body ++ [mark])
  | newline, w => ∃ pieces : List (List Char), pieces ≠ [] ∧ (∀ p ∈ pieces, Break p) ∧
      w = pieces.flatten
  | continuation, w => ∃ blanks e, (∀ c ∈ blanks, isBlank c = true) ∧ IsLineEnd e ∧
      w = '\\' :: (blanks ++ e)
  | name, w => ∃ c cs, w = c :: cs ∧ isDigit c = false ∧ ∀ d ∈ c :: cs, isWord d = true
  | blank, w => w ≠ [] ∧ ∀ c ∈ w, isBlank c = true
  | number, w => w ≠ [] ∧ ∀ d ∈ w, isDigit d = true
  | symbol s, w => w = s.chars

theorem takeWhile_append_drop_run (p : Char → Bool) (cs : List Char) :
    cs.takeWhile p ++ cs.drop (run p cs) = cs := by
  rw [← take_run, List.take_append_drop]

theorem takeWhile_ne_nil {p : Char → Bool} {cs : List Char} (h : 0 < run p cs) :
    cs.takeWhile p ≠ [] := List.length_pos_iff.mp h

/-- Where a float is found, a point follows the first digits. -/
theorem scanFloat_cases {cs : List Char} (h : 0 < scanFloat cs) :
    ∃ rest, cs.drop (run isDigit cs) = '.' :: rest ∧
      ¬(run isDigit cs = 0 ∧ run isDigit rest = 0) ∧
      scanFloat cs = run isDigit cs + 1 + run isDigit rest := by
  revert h
  simp only [scanFloat]
  split
  · next rest hdrop =>
    split
    · exact fun h => absurd h (Nat.lt_irrefl _)
    · next hsome => exact fun _ => ⟨rest, hdrop, hsome, rfl⟩
  · exact fun h => absurd h (Nat.lt_irrefl _)

theorem matches_float {cs : List Char} (h : 0 < scanFloat cs) :
    float.Matches (cs.take (scanFloat cs)) := by
  obtain ⟨rest, hdrop, hsome, hscan⟩ := scanFloat_cases h
  have hcut := takeWhile_append_drop_run isDigit cs
  have htake : cs.take (scanFloat cs) =
      cs.takeWhile isDigit ++ '.' :: rest.takeWhile isDigit := by
    rw [hscan, Nat.add_assoc, List.take_add, take_run, hdrop, Nat.add_comm 1, List.take_succ_cons,
      take_run]
  rw [htake]
  refine ⟨_, _, rfl, fun d hd => of_mem_takeWhile hd, fun d hd => of_mem_takeWhile hd, ?_⟩
  rintro ⟨hwhole, hfraction⟩
  exact hsome ⟨congrArg List.length hwhole, congrArg List.length hfraction⟩

theorem stringBody_of_scan {mark : Char} {cs : List Char} {n : Nat}
    (h : scanStringRest mark cs = some n) :
    ∃ body, StringBody mark body ∧ cs.take n = body ++ [mark] := by
  fun_induction scanStringRest mark cs generalizing n with
  | case1 => cases h
  | case2 cs =>
    cases h
    exact ⟨[], .nil, rfl⟩
  | case3 => cases h
  | case4 => cases h
  | case5 => cases h
  | case6 d cs hd _ _ ih =>
    obtain ⟨k, hk, rfl⟩ := Option.map_eq_some_iff.mp h
    obtain ⟨body, hbody, htake⟩ := ih hk
    exact ⟨_, .escaped hd hbody, by simp [htake]⟩
  | case7 c cs hmark hline hslash ih =>
    obtain ⟨k, hk, rfl⟩ := Option.map_eq_some_iff.mp h
    obtain ⟨body, hbody, htake⟩ := ih hk
    exact ⟨_, .plain hmark hslash hline hbody, by simp [htake]⟩

theorem matches_string {cs : List Char} (h : 0 < scanString cs) :
    string.Matches (cs.take (scanString cs)) := by
  revert h
  cases cs with
  | nil => exact fun h => absurd h (Nat.lt_irrefl _)
  | cons c cs =>
    simp only [scanString]
    split
    · next hmark =>
      cases hrest : scanStringRest c cs with
      | none => exact fun h => absurd h (Nat.lt_irrefl _)
      | some n =>
        obtain ⟨body, hbody, htake⟩ := stringBody_of_scan hrest
        exact fun _ => ⟨c, body, hmark.symm, hbody, by simp [htake]⟩
    · exact fun h => absurd h (Nat.lt_irrefl _)

/-- What may stand before the next piece of line ends: the rest of a margin or of a comment. -/
def Margin.Ahead : Margin → List Char → Prop
  | outside, head => head = []
  | inside, head => ∀ c ∈ head, isMargin c = true
  | comment, head => ∀ c ∈ head, c ≠ '\n'

theorem Margin.ahead_nil (state : Margin) : state.Ahead [] := by
  cases state with
  | outside => rfl
  | inside => exact nofun
  | comment => exact nofun

theorem breaks_of_scan (state : Margin) (cs : List Char) :
    ∃ head, ∃ pieces : List (List Char), state.Ahead head ∧ (∀ p ∈ pieces, Break p) ∧
      cs.take (scanBreaks state cs) = head ++ pieces.flatten := by
  fun_induction scanBreaks state cs with
  | case1 state => exact ⟨[], [], state.ahead_nil, nofun, rfl⟩
  | case2 state cs ih =>
    obtain ⟨head, pieces, hhead, hpieces, htake⟩ := ih
    refine ⟨[], ('\n' :: head) :: pieces, state.ahead_nil, ?_, by simp [htake]⟩
    exact List.forall_mem_cons.mpr ⟨.line (.inl rfl) hhead, hpieces⟩
  | case3 c cs hc ih =>
    obtain ⟨head, pieces, hhead, hpieces, htake⟩ := ih
    exact ⟨c :: head, pieces, List.forall_mem_cons.mpr ⟨hc, hhead⟩, hpieces, by simp [htake]⟩
  | case4 state cs hn hstate ih =>
    obtain ⟨head, pieces, hhead, hpieces, htake⟩ := ih
    refine ⟨[], ('#' :: head) :: pieces, state.ahead_nil, ?_, by simp [htake]⟩
    exact List.forall_mem_cons.mpr ⟨.comment hhead, hpieces⟩
  | case5 state c cs hn hstate hc hmargin ih =>
    obtain ⟨rfl, hmargin⟩ := hmargin
    obtain ⟨head, pieces, hhead, hpieces, htake⟩ := ih
    exact ⟨c :: head, pieces, List.forall_mem_cons.mpr ⟨hmargin, hhead⟩, hpieces, by simp [htake]⟩
  | case6 state => exact ⟨[], [], state.ahead_nil, nofun, rfl⟩
  | case7 state cs hn hstate hc hmargin ih =>
    obtain ⟨head, pieces, hhead, hpieces, htake⟩ := ih
    refine ⟨[], ('\r' :: '\n' :: head) :: pieces, state.ahead_nil, ?_, by simp [htake]⟩
    exact List.forall_mem_cons.mpr ⟨.line (.inr rfl) hhead, hpieces⟩
  | case8 state => exact ⟨[], [], state.ahead_nil, nofun, rfl⟩
  | case9 state => exact ⟨[], [], state.ahead_nil, nofun, rfl⟩

theorem matches_newline {cs : List Char} (h : 0 < scanBreaks .outside cs) :
    newline.Matches (cs.take (scanBreaks .outside cs)) := by
  obtain ⟨head, pieces, rfl, hpieces, htake⟩ := breaks_of_scan .outside cs
  refine ⟨pieces, ?_, hpieces, htake⟩
  rintro rfl
  cases cs with
  | nil => exact Nat.lt_irrefl _ h
  | cons c cs =>
    obtain ⟨n, hn⟩ := Nat.exists_eq_add_of_lt h
    rw [hn] at htake
    simp at htake

theorem matches_continuation {cs : List Char} (h : 0 < scanContinuation cs) :
    continuation.Matches (cs.take (scanContinuation cs)) := by
  revert h
  unfold scanContinuation
  split
  · next cs =>
    have hblank : ∀ c ∈ cs.takeWhile isBlank, isBlank c = true := fun c hc => of_mem_takeWhile hc
    dsimp only
    split
    · next hdrop =>
      refine fun _ => ⟨cs.takeWhile isBlank, ['\n'], hblank, .inl rfl, ?_⟩
      rw [List.take_succ_cons, List.take_add, take_run, hdrop]
      rfl
    · next hdrop =>
      refine fun _ => ⟨cs.takeWhile isBlank, ['\r', '\n'], hblank, .inr rfl, ?_⟩
      rw [List.take_succ_cons, List.take_add, take_run, hdrop]
      rfl
    · exact fun h => absurd h (Nat.lt_irrefl _)
  · exact fun h => absurd h (Nat.lt_irrefl _)

/-- What a class finds is a text of its pattern. -/
theorem matches_take_scan {t : Terminal} {cs : List Char} (h : 0 < t.scan cs) :
    t.Matches (cs.take (t.scan cs)) := by
  cases t with
  | float => exact matches_float h
  | string => exact matches_string h
  | newline => exact matches_newline h
  | continuation => exact matches_continuation h
  | name =>
    exact Lexeme.Scanned.name (l := ⟨.name, cs.take (scanName cs), .start⟩) ⟨cs, rfl, h⟩ rfl
  | blank =>
    simp only [scan, take_run]
    exact ⟨takeWhile_ne_nil h, fun c hc => of_mem_takeWhile hc⟩
  | number =>
    simp only [scan, take_run]
    exact ⟨takeWhile_ne_nil h, fun c hc => of_mem_takeWhile hc⟩
  | symbol s =>
    exact Lexeme.Scanned.symbol (l := ⟨.symbol s, cs.take (scanSymbol s cs), .start⟩) ⟨cs, rfl, h⟩
      rfl

theorem Matches.ne_nil {t : Terminal} {w : List Char} (h : t.Matches w) : w ≠ [] := by
  cases t with
  | float =>
    obtain ⟨whole, fraction, rfl, -⟩ := h
    simp
  | string =>
    obtain ⟨mark, body, -, -, rfl⟩ := h
    exact List.cons_ne_nil _ _
  | newline =>
    obtain ⟨pieces, hne, hpieces, rfl⟩ := h
    obtain ⟨p, pieces, rfl⟩ := List.exists_cons_of_ne_nil hne
    cases hpieces p List.mem_cons_self with
    | line he hmargin => rcases he with rfl | rfl <;> simp
    | comment hcs => simp
  | continuation =>
    obtain ⟨blanks, e, -, -, rfl⟩ := h
    exact List.cons_ne_nil _ _
  | name =>
    obtain ⟨c, cs, rfl, -⟩ := h
    exact List.cons_ne_nil _ _
  | blank => exact h.1
  | number => exact h.1
  | symbol s =>
    rw [show w = s.chars from h]
    cases s <;> decide

theorem le_run {p : Char → Bool} {w : List Char} (h : ∀ c ∈ w, p c = true) (rest : List Char) :
    w.length ≤ run p (w ++ rest) := by
  rw [run, List.takeWhile_append_of_pos h, List.length_append]
  exact Nat.le_add_right _ _

theorem scanStringRest_mark (mark : Char) (rest : List Char) :
    scanStringRest mark (mark :: rest) = some 1 := by
  cases rest <;> rw [scanStringRest, if_pos rfl]

theorem scanStringRest_line {mark : Char} (h : '\n' ≠ mark) (rest : List Char) :
    scanStringRest mark ('\n' :: rest) = none := by
  cases rest <;> rw [scanStringRest, if_neg h, if_pos rfl]

theorem scanStringRest_append {mark : Char} {body : List Char} (hmark : Text.Quoted.IsMark mark)
    (h : StringBody mark body) (rest : List Char) :
    scanStringRest mark (body ++ mark :: rest) = some (body.length + 1) := by
  induction h with
  | nil => exact scanStringRest_mark mark rest
  | plain hc hslash hline _ ih =>
    rw [List.cons_append, Text.Quoted.scanStringRest_cons hc hline hslash, ih]
    rfl
  | escaped hline _ ih =>
    rw [List.cons_append, List.cons_append, Text.Quoted.scanStringRest_backslash hmark hline, ih]
    rfl

section Breaks

variable (state : Margin) (cs : List Char)

theorem scanBreaks_line : scanBreaks state ('\n' :: cs) = scanBreaks .inside cs + 1 := by
  cases cs <;> simp [scanBreaks]

theorem scanBreaks_hash : scanBreaks state ('#' :: cs) = scanBreaks .comment cs + 1 := by
  cases cs <;> cases state <;> simp [scanBreaks]

theorem scanBreaks_return : scanBreaks state ('\r' :: '\n' :: cs) = scanBreaks .inside cs + 2 := by
  cases cs <;> cases state <;> simp [scanBreaks, isMargin]

theorem scanBreaks_margin_cons {c : Char} (h : isMargin c = true) :
    scanBreaks .inside (c :: cs) = scanBreaks .inside cs + 1 := by
  have hn : c ≠ '\n' := ne_of_class h rfl
  have hhash : c ≠ '#' := ne_of_class h rfl
  cases cs <;> simp [scanBreaks, hn, hhash, h]

theorem scanBreaks_comment_cons {c : Char} (h : c ≠ '\n') :
    scanBreaks .comment (c :: cs) = scanBreaks .comment cs + 1 := by
  cases cs <;> simp [scanBreaks, h]

theorem scanBreaks_margin {margin : List Char} (h : ∀ c ∈ margin, isMargin c = true) :
    scanBreaks .inside (margin ++ cs) = margin.length + scanBreaks .inside cs := by
  induction margin with
  | nil => simp
  | cons c margin ih =>
    obtain ⟨hc, hmargin⟩ := List.forall_mem_cons.mp h
    rw [List.cons_append, scanBreaks_margin_cons _ hc, ih hmargin, List.length_cons]
    omega

theorem scanBreaks_comment {text : List Char} (h : ∀ c ∈ text, c ≠ '\n') :
    scanBreaks .comment (text ++ cs) = text.length + scanBreaks .comment cs := by
  induction text with
  | nil => simp
  | cons c text ih =>
    obtain ⟨hc, htext⟩ := List.forall_mem_cons.mp h
    rw [List.cons_append, scanBreaks_comment_cons _ hc, ih htext, List.length_cons]
    omega

end Breaks

/-- A piece is read to its end, whatever the state before it. -/
theorem Break.scanBreaks_append {w : List Char} (h : Break w) (state : Margin) :
    ∃ state', ∀ rest, scanBreaks state (w ++ rest) = w.length + scanBreaks state' rest := by
  cases h with
  | line he hmargin =>
    refine ⟨.inside, fun rest => ?_⟩
    rcases he with rfl | rfl
    · simp only [List.cons_append, List.nil_append, scanBreaks_line, scanBreaks_margin _ hmargin,
        List.length_cons]
      omega
    · simp only [List.cons_append, List.nil_append, scanBreaks_return, scanBreaks_margin _ hmargin,
        List.length_cons]
      omega
  | comment hcs =>
    refine ⟨.comment, fun rest => ?_⟩
    rw [List.cons_append, scanBreaks_hash, scanBreaks_comment _ hcs, List.length_cons]
    omega

/-- Pieces are read one after the other, and the state behind them is the same whatever follows. -/
theorem scanBreaks_flatten {pieces : List (List Char)} (h : ∀ p ∈ pieces, Break p)
    (state : Margin) : ∃ state', ∀ rest, scanBreaks state (pieces.flatten ++ rest) =
      pieces.flatten.length + scanBreaks state' rest := by
  induction pieces generalizing state with
  | nil => exact ⟨state, fun rest => by simp⟩
  | cons p pieces ih =>
    obtain ⟨hp, hpieces⟩ := List.forall_mem_cons.mp h
    obtain ⟨state', hread⟩ := hp.scanBreaks_append state
    obtain ⟨state'', hmore⟩ := ih hpieces state'
    refine ⟨state'', fun rest => ?_⟩
    rw [List.flatten_cons, List.append_assoc, hread, hmore, List.length_append, Nat.add_assoc]

theorem le_scanBreaks {pieces : List (List Char)} (h : ∀ p ∈ pieces, Break p) (state : Margin)
    (rest : List Char) : pieces.flatten.length ≤ scanBreaks state (pieces.flatten ++ rest) := by
  obtain ⟨state', hread⟩ := scanBreaks_flatten h state
  rw [hread]
  exact Nat.le_add_right _ _

theorem scanContinuation_append {blanks e : List Char} (h : ∀ c ∈ blanks, isBlank c = true)
    (he : IsLineEnd e) (rest : List Char) :
    scanContinuation ('\\' :: (blanks ++ e) ++ rest) = blanks.length + e.length + 1 := by
  have hrun : run isBlank (blanks ++ (e ++ rest)) = blanks.length := by
    refine run_append h ?_
    rcases he with rfl | rfl <;> (intro c hc; cases hc; rfl)
  rw [List.cons_append, List.append_assoc]
  simp only [scanContinuation, hrun, List.drop_left]
  rcases he with rfl | rfl
  · rfl
  · rfl

/-- A class finds at least every text of its pattern at the front. -/
theorem Matches.le_scan {t : Terminal} {w : List Char} (h : t.Matches w) (rest : List Char) :
    w.length ≤ t.scan (w ++ rest) := by
  cases t with
  | float =>
    obtain ⟨whole, fraction, rfl, hwhole, hfraction, hsome⟩ := h
    have hrun : run isDigit (whole ++ '.' :: (fraction ++ rest)) = whole.length :=
      run_append hwhole fun d hd => by rw [← Option.some.inj hd]; decide
    have hle := le_run hfraction rest
    have hne : ¬(whole.length = 0 ∧ run isDigit (fraction ++ rest) = 0) := by
      rintro ⟨h₁, h₂⟩
      refine hsome ⟨List.length_eq_zero_iff.mp h₁, List.length_eq_zero_iff.mp ?_⟩
      omega
    rw [List.append_assoc, List.cons_append]
    simp only [scan, scanFloat, hrun, List.drop_left, if_neg hne, List.length_append,
      List.length_cons]
    omega
  | string =>
    obtain ⟨mark, body, hmark, hbody, rfl⟩ := h
    have hrest := scanStringRest_append hmark hbody rest
    rw [List.cons_append, List.append_assoc, List.singleton_append]
    simp [scan, scanString, hmark.symm, hrest]
  | newline =>
    obtain ⟨pieces, -, hpieces, rfl⟩ := h
    exact le_scanBreaks hpieces .outside rest
  | continuation =>
    obtain ⟨blanks, e, hblanks, he, rfl⟩ := h
    rw [scan, scanContinuation_append hblanks he]
    simp
  | name =>
    obtain ⟨c, cs, rfl, hdigit, hword⟩ := h
    obtain ⟨hc, hcs⟩ := List.forall_mem_cons.mp hword
    have hle := le_run hcs rest
    simp only [scan, List.cons_append, scanName, hc, hdigit, Bool.not_false, Bool.and_true,
      if_true, List.length_cons]
    omega
  | blank => exact le_run h.2 rest
  | number => exact le_run h.2 rest
  | symbol s =>
    rw [show w = s.chars from h]
    simp [scan, scanSymbol]

/-- No class is chosen exactly where no text of a pattern begins. -/
theorem first?_eq_none_iff_matches (cs : List Char) :
    first? cs = none ↔ ∀ (t : Terminal) (w : List Char), w <+: cs → ¬ t.Matches w := by
  rw [first?_eq_none_iff]
  constructor
  · rintro h t w ⟨rest, rfl⟩ hw
    have hle := hw.le_scan rest
    have hpos := List.length_pos_iff.mpr hw.ne_nil
    rw [h t] at hle
    omega
  · intro h t
    refine Nat.eq_zero_of_not_pos fun hpos => ?_
    exact h t _ (List.take_prefix _ _) (matches_take_scan hpos)

end TinyScript.Terminal
