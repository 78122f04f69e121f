import Mathlib.Data.List.Basic
import Mathlib.Data.List.TakeWhile
import TinyScript.Proofs.Lexing.Pattern

/-!
# Lines and levels

Two things are followed through the arrangement of lexemes, one lexeme at a time (`Layout.place`):
how the tokens of two lists of lexemes are put together, and which levels are open. Listed levels
are wider than the outermost one, so a line end without a margin closes them all.

A padded text is ended: its last character is a line end that no backslash takes away
(`Source.Ended`). Its last lexeme is therefore a line end, and no level is open after it.
-/

namespace TinyScript

open Terminal (isBlank IsLineEnd)

namespace Layout

variable {levels levels' : List Nat} {ls ms : List Lexeme} {l : Lexeme} {e : Mismatch}

theorem arrange_append_of_error (h : (arrange levels ls).2 = .error e) :
    arrange levels (ls ++ ms) = ((arrange levels ls).1, .error e) := by
  induction ls generalizing levels with
  | nil => cases h
  | cons l ls ih =>
    rw [List.cons_append]
    cases hplace : (place levels l).2 with
    | error e' =>
      rw [arrange_cons_of_error hplace] at h ⊢
      rw [arrange_cons_of_error hplace]
      cases h
      rfl
    | ok levels' =>
      rw [arrange_cons_of_ok hplace] at h ⊢
      rw [arrange_cons_of_ok hplace, ih h]

theorem arrange_append_of_ok (h : (arrange levels ls).2 = .ok levels') :
    arrange levels (ls ++ ms) =
      ((arrange levels ls).1 ++ (arrange levels' ms).1, (arrange levels' ms).2) := by
  induction ls generalizing levels with
  | nil =>
    cases h
    rfl
  | cons l ls ih =>
    rw [List.cons_append]
    cases hplace : (place levels l).2 with
    | error e =>
      rw [arrange_cons_of_error hplace] at h
      cases h
    | ok levels'' =>
      rw [arrange_cons_of_ok hplace] at h ⊢
      rw [arrange_cons_of_ok hplace, ih h, List.append_assoc]

/-- Listed levels are wider than the outermost one. -/
theorem pos_of_place (h : ∀ w ∈ levels, 0 < w) (hplace : (place levels l).2 = .ok levels') :
    ∀ w ∈ levels', 0 < w := by
  simp only [place] at hplace
  split at hplace
  · cases hplace
    exact h
  · split at hplace
    · simp only [shift] at hplace
      split at hplace
      · next hwider =>
        cases hplace
        exact List.forall_mem_cons.mpr ⟨Nat.zero_lt_of_lt hwider, h⟩
      · split at hplace
        · cases hplace
          exact fun w hw => h w ((List.dropWhile_suffix _).subset hw)
        · cases hplace
    · cases hplace
      exact h

theorem pos_of_arrange (h : ∀ w ∈ levels, 0 < w) (harrange : (arrange levels ls).2 = .ok levels') :
    ∀ w ∈ levels', 0 < w := by
  induction ls generalizing levels with
  | nil =>
    cases harrange
    exact h
  | cons l ls ih =>
    cases hplace : (place levels l).2 with
    | error e =>
      rw [arrange_cons_of_error hplace] at harrange
      cases harrange
    | ok levels'' =>
      rw [arrange_cons_of_ok hplace] at harrange
      exact ih (pos_of_place h hplace) harrange

/-- A line end without a margin closes every level. -/
theorem shift_zero (h : ∀ w ∈ levels, 0 < w) :
    shift levels 0 = (List.replicate levels.length .dedent, .ok []) := by
  have htake : levels.takeWhile (fun w => decide (0 < w)) = levels :=
    List.takeWhile_eq_self_iff.mpr fun w hw => decide_eq_true (h w hw)
  have hdrop : levels.dropWhile (fun w => decide (0 < w)) = [] :=
    List.dropWhile_eq_nil_iff.mpr fun w hw => decide_eq_true (h w hw)
  simp [shift, htake, hdrop, top]

theorem margin_of_getLast? {text : List Char} (h : text.getLast? = some '\n') :
    margin text = [] := by
  obtain ⟨cs, rfl⟩ := List.getLast?_eq_some_iff.mp h
  simp [margin]

end Layout

theorem Lexeme.kind?_of_newline {l : Lexeme} (h : l.terminal = .newline) :
    l.kind? = some .newline := by
  simp [Lexeme.kind?, h]

/-- The tokens of a line end without a margin. -/
theorem Layout.place_line {levels : List Nat} {l : Lexeme} (h : ∀ w ∈ levels, 0 < w)
    (hl : l.terminal = .newline) (hlast : l.text.getLast? = some '\n') :
    Layout.place levels l = (⟨.newline, String.ofList l.text, l.position⟩ ::
      List.replicate levels.length ⟨.dedent, "", l.position⟩, .ok []) := by
  have hwidth : Layout.width [] = 0 := rfl
  simp [Layout.place, Lexeme.kind?_of_newline hl, Layout.margin_of_getLast? hlast, hwidth,
    Layout.shift_zero h]

namespace Terminal

/-- A continuation has its line end at its end and nowhere else. -/
theorem exists_of_continuation {w : List Char} (h : continuation.Matches w) :
    ∃ v, w = v ++ ['\n'] ∧ v ≠ [] ∧ '\n' ∉ v := by
  obtain ⟨blanks, e, hblanks, he, rfl⟩ := h
  have hfree : '\n' ∉ blanks := fun hmem => Bool.noConfusion (hblanks _ hmem)
  rcases he with rfl | rfl
  · refine ⟨'\\' :: blanks, rfl, List.cons_ne_nil _ _, ?_⟩
    simpa using hfree
  · refine ⟨'\\' :: (blanks ++ ['\r']), by simp, List.cons_ne_nil _ _, ?_⟩
    simpa using hfree

theorem StringBody.newline_not_mem {mark : Char} {body : List Char} (h : StringBody mark body) :
    '\n' ∉ body := by
  induction h with
  | nil => exact List.not_mem_nil
  | plain _ _ hline _ ih => simpa using ⟨hline.symm, ih⟩
  | escaped hline _ ih => simpa using ⟨hline.symm, ih⟩

/-- Line ends stand in line ends and continuations only. -/
theorem Matches.of_mem_newline {t : Terminal} {w : List Char} (h : t.Matches w) (hw : '\n' ∈ w) :
    t = .newline ∨ t = .continuation := by
  cases t with
  | newline => exact .inl rfl
  | continuation => exact .inr rfl
  | float =>
    obtain ⟨whole, fraction, rfl, hwhole, hfraction, -⟩ := h
    simp only [List.mem_append, List.mem_cons] at hw
    rcases hw with hw | hw | hw
    · exact absurd (hwhole _ hw) (by decide)
    · exact absurd hw (by decide)
    · exact absurd (hfraction _ hw) (by decide)
  | string =>
    obtain ⟨mark, body, hmark, hbody, rfl⟩ := h
    have hne : '\n' ≠ mark := by rcases hmark with rfl | rfl <;> decide
    simp [hne, hbody.newline_not_mem] at hw
  | name =>
    obtain ⟨c, cs, rfl, -, hword⟩ := h
    exact absurd (hword _ hw) (by decide)
  | blank => exact absurd (h.2 _ hw) (by decide)
  | number => exact absurd (h.2 _ hw) (by decide)
  | symbol s =>
    rw [show w = s.chars from h] at hw
    cases s <;> exact absurd hw (by decide)

end Terminal

namespace Source

/-- The last line of the text is ended, and its line end is no continuation. -/
structure Ended (cs : List Char) : Prop where
  line : cs.getLast? = some '\n'
  free : ∀ w, w <:+ cs → ¬ Terminal.continuation.Matches w

theorem Ended.ne_nil {cs : List Char} (h : Ended cs) : cs ≠ [] := by
  rintro rfl
  exact nomatch h.line

theorem Ended.of_suffix {cs ds : List Char} (h : Ended ds) (hs : cs <:+ ds) (hne : cs ≠ []) :
    Ended cs where
  line := by
    obtain ⟨pre, rfl⟩ := hs
    have hline := h.line
    rwa [List.getLast?_append_of_ne_nil _ hne] at hline
  free w hw := h.free w (hw.trans hs)

/-- Blanks keep line ends apart from what stands before them. -/
theorem dropWhile_ends_blanks {blanks rest : List Char} (h : ∀ c ∈ blanks, isBlank c = true)
    (hrest : ∀ c ∈ rest.head?, c ≠ '\r' ∧ c ≠ '\n') :
    (blanks.reverse ++ rest).dropWhile (fun c => c = '\r' || c = '\n') =
      blanks.reverse ++ rest := by
  have hhead : ∀ c ∈ (blanks.reverse ++ rest).head?, c ≠ '\r' ∧ c ≠ '\n' := by
    cases hb : blanks.reverse with
    | nil => exact hrest
    | cons c cs =>
      have hc : isBlank c = true := h c (List.mem_reverse.mp (by simp [hb]))
      intro d hd
      rw [← Option.some.inj hd]
      exact ⟨Terminal.ne_of_class hc rfl, Terminal.ne_of_class hc rfl⟩
  cases hcs : blanks.reverse ++ rest with
  | nil => rfl
  | cons c cs =>
    obtain ⟨hr, hn⟩ := hhead c (by rw [hcs]; rfl)
    simp [hr, hn]

/-- A text that ends with a continuation is continued. -/
theorem dangling_of_suffix {cs w : List Char} (hs : w <:+ cs)
    (h : Terminal.continuation.Matches w) : dangling cs = true := by
  obtain ⟨pre, rfl⟩ := hs
  obtain ⟨blanks, e, hblanks, he, rfl⟩ := h
  have hends : (pre ++ '\\' :: (blanks ++ e)).reverse.dropWhile (fun c => c = '\r' || c = '\n') =
      blanks.reverse ++ '\\' :: pre.reverse := by
    have hstop : (blanks.reverse ++ '\\' :: pre.reverse).dropWhile
        (fun c => c = '\r' || c = '\n') = blanks.reverse ++ '\\' :: pre.reverse :=
      dropWhile_ends_blanks hblanks (by simp)
    rcases he with rfl | rfl
    · simpa using hstop
    · simpa using hstop
  have hblank : (blanks.reverse ++ '\\' :: pre.reverse).dropWhile isBlank =
      '\\' :: pre.reverse := by
    rw [List.dropWhile_append_of_pos fun c hc => hblanks c (List.mem_reverse.mp hc)]
    rfl
  rw [dangling, hends, hblank]
  rfl

theorem ended_of_not_dangling {cs : List Char} (hline : cs.getLast? = some '\n')
    (h : dangling cs = false) : Ended cs where
  line := hline
  free w hw hmatch := by
    rw [dangling_of_suffix hw hmatch] at h
    cases h

/-- A second line end is never taken by a continuation. -/
theorem ended_append_line {cs : List Char} (h : cs.getLast? = some '\n') :
    Ended (cs ++ ['\n']) where
  line := by simp
  free w hw hmatch := by
    obtain ⟨v, rfl, hne, hfree⟩ := Terminal.exists_of_continuation hmatch
    obtain ⟨pre, hpre⟩ := hw
    have hcs : pre ++ v = cs := by
      rw [← List.append_assoc] at hpre
      exact (List.append_inj' hpre rfl).1
    rw [← hcs, List.getLast?_append_of_ne_nil _ hne] at h
    exact hfree (List.mem_of_getLast? h)

theorem ended_padded (cs : List Char) : Ended (padded cs) := by
  have hline : (if cs.getLast? = some '\n' then cs else cs ++ ['\n']).getLast? = some '\n' := by
    split
    · assumption
    · simp
  rw [padded]
  generalize (if cs.getLast? = some '\n' then cs else cs ++ ['\n']) = ds at hline
  cases hd : dangling ds with
  | true => simpa [hd] using ended_append_line hline
  | false => simpa [hd] using ended_of_not_dangling hline hd

end Source

end TinyScript
