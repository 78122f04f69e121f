import TinyScript.Proofs.Lexing.Seam

/-!
# Where a lexeme ends

Where a lexeme ends depends on one character behind it. For each class but that of line ends,
`Terminal.allows` lists the characters that may follow: a text of the class is cut off as a whole
before them (`Terminal.Matches.first?_append`), and before no others
(`Terminal.allows_of_first?`). Line ends stop before a character that begins no further line end;
only a carriage return would need a second character to tell, and no other lexeme begins with one.

So the lexeme at the front of a text stays when the text behind it is changed after its first
character (`Terminal.first?_congr`).
-/

namespace TinyScript.Terminal

open Text (isDigit isWord forall_mem_of_all)

/-- Whether the character may stand behind a lexeme of the class, if that is no line end. -/
def allows : Terminal → Char → Bool
  | float, c => !isDigit c
  | name, c => !isWord c
  | blank, c => !isBlank c
  | number, c => !isDigit c && c ≠ '.'
  | symbol s, c => c ≠ '=' || s ∉ [.lt, .gt, .assign]
  | string, _ | continuation, _ | newline, _ => true

theorem first?_string {mark : Char} {body : List Char} (hmark : Text.Quoted.IsMark mark)
    (hbody : StringBody mark body) (rest : List Char) :
    first? (mark :: (body ++ [mark]) ++ rest) =
      some (.string, (mark :: (body ++ [mark])).length) := by
  have hscan : scanString (mark :: (body ++ [mark]) ++ rest) =
      (mark :: (body ++ [mark])).length := by
    have hrest := scanStringRest_append hmark hbody rest
    rw [List.cons_append, List.append_assoc, List.singleton_append]
    simp [scanString, hmark.symm, hrest]
  refine first?_of_order [float] rfl (List.forall_mem_singleton.mpr ?_) hscan (Nat.succ_pos _)
  simp only [scan, List.cons_append]
  rcases hmark with rfl | rfl <;> refine scanFloat_cons ?_ ?_ _ <;> decide

theorem first?_continuation {blanks e : List Char} (hblanks : ∀ c ∈ blanks, isBlank c = true)
    (he : IsLineEnd e) (rest : List Char) :
    first? ('\\' :: (blanks ++ e) ++ rest) =
      some (.continuation, ('\\' :: (blanks ++ e)).length) := by
  have hscan : scanContinuation ('\\' :: (blanks ++ e) ++ rest) =
      ('\\' :: (blanks ++ e)).length := by
    rw [scanContinuation_append hblanks he]
    simp
  refine first?_of_order [float, string, newline] rfl ?_ hscan (Nat.succ_pos _)
  intro u hu
  simp only [List.mem_cons, List.not_mem_nil, or_false] at hu
  rcases hu with rfl | rfl | rfl <;> simp only [scan, List.cons_append]
  · exact scanFloat_cons (by decide) (by decide) _
  · exact scanString_cons (by decide) _
  · exact scanBreaks_cons (by decide) (by decide) (by decide) _

/-- The classes before the symbols of one character that begin a longer one. -/
def beforeShort : List Terminal :=
  [float, string, newline, continuation, name, blank, number,
    symbol .eq, symbol .ge, symbol .le, symbol .ne]

theorem scan_beforeShort {d c : Char} (hd : d ∈ ['<', '>', '=']) (hc : c ≠ '=') (rest : List Char) :
    ∀ u ∈ beforeShort, u.scan (d :: c :: rest) = 0 := by
  intro u hu
  simp only [beforeShort, List.mem_cons, List.not_mem_nil, or_false] at hu hd
  rcases hu with rfl | rfl | rfl | rfl | rfl | rfl | rfl | rfl | rfl | rfl | rfl
  iterate 7 rcases hd with rfl | rfl | rfl <;> rfl
  all_goals simp [scan, scanSymbol, Symbol.chars, Ne.symm hc]

/-- A symbol is cut off as a whole, unless it begins a longer one. -/
theorem first?_symbol_of_allows {s : Symbol} {rest : List Char}
    (h : ∀ c ∈ rest.head?, (symbol s).allows c = true) :
    first? (s.chars ++ rest) = some (.symbol s, s.chars.length) := by
  cases rest with
  | nil => cases s <;> rfl
  | cons c rest =>
    have hc := h c rfl
    by_cases heq : c = '='
    · subst heq
      cases s <;> first | rfl | cases hc
    · cases s with
      | lt =>
        have hbefore := scan_beforeShort (d := '<') (by simp) heq rest
        exact first?_of_order beforeShort rfl hbefore rfl Nat.one_pos
      | gt =>
        have hbefore := scan_beforeShort (d := '>') (by simp) heq rest
        refine first?_of_order (beforeShort ++ [symbol .lt]) rfl ?_ rfl Nat.one_pos
        exact List.forall_mem_append.mpr ⟨hbefore, List.forall_mem_singleton.mpr rfl⟩
      | assign =>
        have hbefore := scan_beforeShort (d := '=') (by simp) heq rest
        refine first?_of_order (beforeShort ++ [symbol .lt, symbol .gt]) rfl ?_ rfl Nat.one_pos
        refine List.forall_mem_append.mpr ⟨hbefore, List.forall_mem_cons.mpr ⟨rfl, ?_⟩⟩
        exact List.forall_mem_singleton.mpr rfl
      | _ => rfl

/-- A text of a class is cut off as a whole before what may follow it. -/
theorem Matches.first?_append {t : Terminal} {w rest : List Char} (hline : t ≠ .newline)
    (h : t.Matches w) (hrest : ∀ c ∈ rest.head?, t.allows c = true) :
    first? (w ++ rest) = some (t, w.length) := by
  cases t with
  | float =>
    obtain ⟨whole, fraction, rfl, hwhole, hfraction, hsome⟩ := h
    refine first?_pointed hwhole hfraction ?_ fun c hc => by simpa [allows] using hrest c hc
    simpa only [List.length_eq_zero_iff] using hsome
  | string =>
    obtain ⟨mark, body, hmark, hbody, rfl⟩ := h
    exact first?_string hmark hbody rest
  | newline => exact absurd rfl hline
  | continuation =>
    obtain ⟨blanks, e, hblanks, he, rfl⟩ := h
    exact first?_continuation hblanks he rest
  | name =>
    obtain ⟨c, cs, rfl, hdigit, hword⟩ := h
    exact first?_name hdigit hword fun c hc => by simpa [allows] using hrest c hc
  | blank =>
    obtain ⟨c, cs, rfl⟩ := List.exists_cons_of_ne_nil h.1
    exact first?_blanks h.2 fun c hc => by simpa [allows] using hrest c hc
  | number =>
    obtain ⟨c, cs, rfl⟩ := List.exists_cons_of_ne_nil h.1
    exact first?_number h.2 fun c hc => by simpa [allows] using hrest c hc
  | symbol s =>
    rw [show w = s.chars from h]
    exact first?_symbol_of_allows hrest

section Follow

variable {t : Terminal} {w x y : List Char}

theorem matches_of_first? (h : first? (w ++ x) = some (t, w.length)) : t.Matches w := by
  obtain ⟨hscan, hpos⟩ := scan_of_first? h
  rw [← hscan] at hpos
  have hmatch := matches_take_scan hpos
  rwa [hscan, List.take_left] at hmatch

/-- What a class finds is as long as the class allows. -/
theorem not_matches_of_scan {c : Char} (h : t.scan (w ++ c :: x) = w.length) :
    ¬ t.Matches (w ++ [c]) := by
  intro hmatch
  have hle := hmatch.le_scan x
  rw [List.append_assoc, List.singleton_append, h, List.length_append] at hle
  exact Nat.not_succ_le_self _ hle

/-- What follows the text that a class finds may follow it, or begins a longer text of another class
there: of a float after digits, or of a symbol of two characters. -/
theorem allows_of_scan {c : Char} (hmatch : t.Matches w) (h : t.scan (w ++ c :: x) = w.length) :
    t.allows c = true ∨ (t = .number ∧ c = '.') ∨
      ∃ s ∈ [Symbol.lt, .gt, .assign], t = .symbol s ∧ c = '=' := by
  have hmore := not_matches_of_scan h
  cases t with
  | float =>
    obtain ⟨whole, fraction, rfl, hwhole, hfraction, hsome⟩ := hmatch
    by_contra hdigit
    refine hmore ⟨whole, fraction ++ [c], by simp, hwhole, ?_, by simp⟩
    exact List.forall_mem_append.mpr ⟨hfraction, by simpa [allows] using hdigit⟩
  | string => exact .inl rfl
  | newline => exact .inl rfl
  | continuation => exact .inl rfl
  | name =>
    obtain ⟨d, cs, rfl, hdigit, hword⟩ := hmatch
    by_contra hc
    refine hmore ⟨d, cs ++ [c], rfl, hdigit, ?_⟩
    rw [← List.cons_append]
    exact List.forall_mem_append.mpr ⟨hword, by simpa [allows] using hc⟩
  | blank =>
    by_contra hc
    exact hmore ⟨by simp, List.forall_mem_append.mpr ⟨hmatch.2, by simpa [allows] using hc⟩⟩
  | number =>
    have hdigit : isDigit c = false := by
      by_contra hc
      exact hmore ⟨by simp, List.forall_mem_append.mpr ⟨hmatch.2, by simpa using hc⟩⟩
    by_cases hpoint : c = '.'
    · exact .inr (.inl ⟨rfl, hpoint⟩)
    · simp [allows, hdigit, hpoint]
  | symbol s =>
    by_cases hc : c = '='
    · by_cases hs : s ∈ [Symbol.lt, .gt, .assign]
      · exact .inr (.inr ⟨s, hs, rfl, hc⟩)
      · exact .inl (by simp [allows, hs])
    · exact .inl (by simp [allows, hc])

/-- Digits before a point belong to a float, which is tried first. -/
theorem first?_point (hne : w ≠ []) (hw : ∀ d ∈ w, isDigit d = true) (x : List Char) :
    first? (w ++ '.' :: x) = some (.float, scanFloat (w ++ '.' :: x)) ∧
      w.length < scanFloat (w ++ '.' :: x) := by
  have hfloat : float.Matches (w ++ ['.']) := ⟨w, [], rfl, hw, nofun, fun hnil => hne hnil.1⟩
  have hlt := hfloat.le_scan x
  rw [List.append_assoc, List.singleton_append, List.length_append] at hlt
  exact ⟨first?_of_order [] rfl nofun rfl (Nat.lt_of_le_of_lt (Nat.zero_le _) hlt), hlt⟩

/-- What follows a lexeme may follow it. -/
theorem allows_of_first? {c : Char} (h : first? (w ++ c :: x) = some (t, w.length)) :
    t.allows c = true := by
  have hmatch := matches_of_first? h
  rcases allows_of_scan hmatch (scan_of_first? h).1 with hc | ⟨rfl, rfl⟩ | ⟨s, hs, rfl, rfl⟩
  · exact hc
  · rw [(first?_point hmatch.1 hmatch.2 x).1] at h
    cases h
  · rw [show w = s.chars from hmatch] at h
    simp only [List.mem_cons, List.not_mem_nil, or_false] at hs
    rcases hs with rfl | rfl | rfl <;> cases h

/-- No lexeme begins with a carriage return, but for a line end. -/
theorem first?_return (h : x.head? ≠ some '\n') : first? ('\r' :: x) = none := by
  refine (first?_eq_none_iff _).mpr fun t => ?_
  cases t <;> simp only [scan]
  case float => exact scanFloat_cons (by decide) (by decide) x
  case string => exact scanString_cons (by decide) x
  case newline =>
    cases x with
    | nil => rfl
    | cons d x =>
      have hd : d ≠ '\n' := fun hd => h (congrArg some hd)
      simp [scanBreaks, hd, isMargin]
  case continuation => exact scanContinuation_cons (by decide) x
  case name =>
    have hr : isWord '\r' = false := by decide
    simp [scanName, hr]
  case blank => exact run_eq_zero rfl x
  case number => exact run_eq_zero (by decide) x
  case symbol s => cases s <;> rfl

/-- Line ends stop before a character for what it is, unless it is a carriage return. -/
theorem scanBreaks_eq_zero_iff {state : Margin} {c : Char} (hc : c ≠ '\r') :
    scanBreaks state (c :: x) = 0 ↔ c ≠ '\n' ∧ state ≠ .comment ∧ c ≠ '#' ∧
      ¬(state = .inside ∧ isMargin c = true) := by
  cases x <;> grind [scanBreaks]

/-- Line ends that stop before a lexeme stop there whatever follows its first character. -/
theorem scanBreaks_congr {c : Char} (hmatch : newline.Matches w)
    (h : scanBreaks .outside (w ++ c :: x) = w.length) (hx : first? (c :: x) ≠ none) :
    scanBreaks .outside (w ++ c :: y) = w.length := by
  obtain ⟨pieces, -, hpieces, rfl⟩ := hmatch
  obtain ⟨state, hread⟩ := scanBreaks_flatten hpieces .outside
  have hzero : scanBreaks state (c :: x) = 0 := by
    rw [hread] at h
    omega
  have hc : c ≠ '\r' := by
    rintro rfl
    cases x with
    | nil => exact hx (first?_return (by simp))
    | cons d x =>
      by_cases hd : d = '\n'
      · rw [hd, scanBreaks_return] at hzero
        cases hzero
      · exact hx (first?_return (by simpa using hd))
  rw [hread, (scanBreaks_eq_zero_iff hc).mpr ((scanBreaks_eq_zero_iff hc).mp hzero), Nat.add_zero]

/-- A lexeme before another one depends on the first character of that one alone. -/
theorem first?_congr (h : first? (w ++ x) = some (t, w.length)) (hx : x = [] ∨ first? x ≠ none)
    (hhead : y.head? = x.head?) : first? (w ++ y) = some (t, w.length) := by
  have hmatch := matches_of_first? h
  cases x with
  | nil =>
    obtain rfl : y = [] := by simpa using hhead
    exact h
  | cons c x =>
    obtain ⟨y, rfl⟩ := List.head?_eq_some_iff.mp hhead
    by_cases hline : t = .newline
    · subst hline
      obtain ⟨hscan, hpos⟩ := scan_of_first? h
      have hcongr := scanBreaks_congr (y := y) hmatch hscan (hx.resolve_left (by simp))
      rw [← hcongr] at hpos ⊢
      exact first?_of_scanBreaks hpos
    · refine hmatch.first?_append hline fun d hd => ?_
      rw [← Option.some.inj hd]
      exact allows_of_first? h

theorem scan_le_length (t : Terminal) (cs : List Char) : t.scan cs ≤ cs.length := by
  by_contra hlt
  have hpos : 0 < t.scan cs := by omega
  have hmatch := matches_take_scan hpos
  rw [List.take_of_length_le (Nat.le_of_not_le hlt)] at hmatch
  by_cases hline : t = .newline
  · subst hline
    exact hlt (scanBreaks_le .outside cs)
  · -- The class finds its text, which is the whole, and no more.
    have hnone : ∀ c ∈ ([] : List Char).head?, t.allows c = true := nofun
    have hwhole := (scan_of_first? (hmatch.first?_append hline hnone)).1
    rw [List.append_nil] at hwhole
    exact hlt hwhole.le

theorem le_length_of_first? {cs : List Char} {n : Nat} (h : first? cs = some (t, n)) :
    n ≤ cs.length := by
  rw [← (scan_of_first? h).1]
  exact scan_le_length t cs

/-- Blanks may follow whatever is no blank. -/
theorem allows_of_isBlank {c : Char} (hc : isBlank c = true) (ht : t ≠ .blank) :
    t.allows c = true := by
  have hclass : ∀ d ∈ ['\t', ' ', '\x0c'],
      isDigit d = false ∧ isWord d = false ∧ d ≠ '.' ∧ d ≠ '=' := forall_mem_of_all (by decide)
  obtain ⟨hdigit, hword, hpoint, heq⟩ := hclass c (by simpa [isBlank, or_assoc] using hc)
  cases t with
  | float => simp [allows, hdigit]
  | name => simp [allows, hword]
  | blank => exact absurd rfl ht
  | number => simp [allows, hdigit, hpoint]
  | symbol s => simp [allows, heq]
  | _ => rfl

end Follow

end TinyScript.Terminal
