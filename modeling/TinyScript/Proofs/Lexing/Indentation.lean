import Mathlib.Data.List.Dedup
import Mathlib.Data.List.Sort
import Mathlib.Order.Bounds.Basic
import TinyScript.Proofs.Lexing.Blocks

/-!
# Indentation by widths alone

The open levels are kept by opening and closing them as line ends come. Here they are said at once,
of the widths that the line ends have left so far: a level is open if it is the least width from
some place on (`openLevels`). A line end does one of three things with them, and each can be told
from the widths: it opens a level, it goes back to one that is open, or it meets none (`Meets`).

The step is `shift_of_stands`: the list of levels that is kept is the list of open levels, before
and after a line end. The main statement, over all line ends of a text, is `tokenize_indentation`.
-/

namespace TinyScript

namespace Layout

/-- The least width from each place of a sequence on. -/
def suffixMinima : List Nat → List Nat
  | [] => []
  | w :: ws => ws.foldr min w :: suffixMinima ws

/-- The levels that are open after line ends of the given widths, in increasing order. The outermost
level, of width zero, was there before them. -/
def openLevels (ws : List Nat) : List Nat := (suffixMinima (0 :: ws)).dedup

/-- The width of the innermost open level. -/
def innermost (ws : List Nat) : Nat := (openLevels ws).getLastD 0

/-- After line ends of widths `ws`, one of width `w` opens a level or goes back to an open one. -/
def Meets (ws : List Nat) (w : Nat) : Prop := innermost ws < w ∨ w ∈ openLevels ws

instance (ws : List Nat) (w : Nat) : Decidable (Meets ws w) :=
  inferInstanceAs (Decidable (innermost ws < w ∨ w ∈ openLevels ws))

/-- Every line end has met a level. -/
def Regular (ws : List Nat) : Prop := ∀ vs w, vs ++ [w] <+: ws → Meets vs w

/-- The marks of a line end: one for the level that it opens, or one for each level that is
wider. -/
def marks (ws : List Nat) (w : Nat) : List Kind :=
  if innermost ws < w then [.indent] else ((openLevels ws).filter (w < ·)).map fun _ => .dedent

section OpenLevels

variable {ws : List Nat} {w : Nat}

theorem suffixMinima_concat (ws : List Nat) (w : Nat) :
    suffixMinima (ws ++ [w]) = (suffixMinima ws).map (min · w) ++ [w] := by
  have hleast : ∀ (vs : List Nat) (v : Nat), vs.foldr min (min w v) = min (vs.foldr min v) w := by
    intro vs v
    induction vs with
    | nil => exact Nat.min_comm w v
    | cons u vs ih => rw [List.foldr_cons, List.foldr_cons, ih, Nat.min_assoc]
  induction ws with
  | nil => rfl
  | cons v ws ih => simp [suffixMinima, ih, hleast]

theorem suffixMinima_sorted (ws : List Nat) : (suffixMinima ws).Pairwise (· ≤ ·) := by
  induction ws using List.reverseRecOn with
  | nil => exact .nil
  | append_singleton ws w ih =>
    rw [suffixMinima_concat]
    refine List.pairwise_append.mpr ⟨ih.map _ ?_, List.pairwise_singleton _ _, ?_⟩
    · intro a b hab
      omega
    · simp

theorem openLevels_sorted (ws : List Nat) : (openLevels ws).Pairwise (· < ·) := by
  have hle := (suffixMinima_sorted (0 :: ws)).sublist (List.dedup_sublist _)
  exact hle.imp₂ (fun _ _ => lt_of_le_of_ne) (List.nodup_dedup _)

theorem mem_openLevels_concat {x : Nat} :
    x ∈ openLevels (ws ++ [w]) ↔ x ∈ openLevels ws ∧ x < w ∨ x = w := by
  simp only [openLevels, List.mem_dedup]
  rw [← List.cons_append, suffixMinima_concat]
  simp only [List.mem_append, List.mem_map, List.mem_singleton]
  constructor
  · rintro (⟨y, hy, rfl⟩ | rfl)
    · rcases Nat.lt_or_ge y w with hlt | hge
      · exact .inl ⟨by rwa [Nat.min_eq_left hlt.le], by omega⟩
      · exact .inr (Nat.min_eq_right hge)
    · exact .inr rfl
  · rintro (⟨hx, hlt⟩ | rfl)
    · exact .inl ⟨x, hx, Nat.min_eq_left hlt.le⟩
    · exact .inr rfl

/-- A line end keeps the narrower levels, and its own is the innermost one after it. -/
theorem openLevels_concat (ws : List Nat) (w : Nat) :
    openLevels (ws ++ [w]) = (openLevels ws).filter (· < w) ++ [w] := by
  refine (openLevels_sorted _).eq_of_mem_iff ?_ fun x => ?_
  · refine List.pairwise_append.mpr
      ⟨(openLevels_sorted ws).filter _, List.pairwise_singleton _ _, ?_⟩
    simp
  · rw [mem_openLevels_concat]
    simp

theorem zero_mem_openLevels (ws : List Nat) : 0 ∈ openLevels ws := by
  induction ws using List.reverseRecOn with
  | nil => decide
  | append_singleton ws w ih =>
    rw [mem_openLevels_concat]
    rcases Nat.eq_zero_or_pos w with hw | hw
    · exact .inr hw.symm
    · exact .inl ⟨ih, hw⟩

/-- The last of levels in increasing order is the greatest. -/
theorem isGreatest_getLastD {levels : List Nat} (hsorted : levels.Pairwise (· < ·))
    (hne : levels ≠ []) : IsGreatest {x | x ∈ levels} (levels.getLastD 0) := by
  obtain ⟨init, last, rfl⟩ := (List.eq_nil_or_concat' levels).resolve_left hne
  have hbefore := (List.pairwise_append.mp hsorted).2.2
  refine ⟨by simp, fun x hx => ?_⟩
  rcases List.mem_append.mp hx with hx | hx
  · simpa using (hbefore x hx last (by simp)).le
  · simp [List.mem_singleton.mp hx]

theorem isGreatest_innermost (ws : List Nat) : IsGreatest {x | x ∈ openLevels ws} (innermost ws) :=
  isGreatest_getLastD (openLevels_sorted ws) (List.ne_nil_of_mem (zero_mem_openLevels ws))

/-- A line end that meets no level is narrower than the innermost one. -/
theorem not_meets_iff : ¬ Meets ws w ↔ w < innermost ws ∧ w ∉ openLevels ws := by
  have hmem : innermost ws ∈ openLevels ws := (isGreatest_innermost ws).1
  rw [Meets, not_or, Nat.not_lt]
  refine and_congr_left fun hw => ⟨fun hle => lt_of_le_of_ne hle ?_, Nat.le_of_lt⟩
  rintro rfl
  exact hw hmem

theorem regular_nil : Regular [] := fun _ _ hv => absurd (List.prefix_nil.mp hv) (by simp)

theorem regular_concat_iff : Regular (ws ++ [w]) ↔ Regular ws ∧ Meets ws w := by
  constructor
  · intro h
    exact ⟨fun vs v hv => h vs v (hv.trans (List.prefix_append ws [w])),
      h ws w (List.prefix_refl _)⟩
  · rintro ⟨hws, hw⟩ vs v hv
    rcases List.prefix_concat_iff.mp hv with heq | hv
    · obtain ⟨rfl, hlast⟩ := List.append_inj' heq rfl
      rwa [(List.cons.inj hlast).1]
    · exact hws vs v hv

end OpenLevels

/-- The levels that are kept, innermost first and without the outermost one, are the open levels. -/
def Stands (ws levels : List Nat) : Prop := 0 :: levels.reverse = openLevels ws

section Stands

variable {ws levels : List Nat} {w : Nat}

theorem getLastD_cons_reverse (levels : List Nat) :
    (0 :: levels.reverse).getLastD 0 = top levels := by
  cases levels with
  | nil => rfl
  | cons w levels =>
    rw [List.getLastD_eq_getLast?, List.reverse_cons, ← List.cons_append,
      List.getLast?_append_of_ne_nil _ (List.cons_ne_nil _ _)]
    rfl

theorem Stands.top_eq (h : Stands ws levels) : top levels = innermost ws := by
  rw [innermost, ← h, getLastD_cons_reverse]

theorem Stands.sorted (h : Stands ws levels) : levels.Pairwise (· > ·) := by
  have hsorted := openLevels_sorted ws
  rw [← h] at hsorted
  exact List.pairwise_reverse.mp hsorted.of_cons

/-- Of levels in decreasing order, those wider than a margin come first. -/
theorem while_eq_filter (hsorted : levels.Pairwise (· > ·)) (w : Nat) :
    levels.takeWhile (w < ·) = levels.filter (w < ·) ∧
      levels.dropWhile (w < ·) = levels.filter (· ≤ w) := by
  induction levels with
  | nil => exact ⟨rfl, rfl⟩
  | cons v levels ih =>
    obtain ⟨hv, hlevels⟩ := List.pairwise_cons.mp hsorted
    obtain ⟨htake, hdrop⟩ := ih hlevels
    by_cases hw : w < v
    · simp [hw, htake, hdrop]
    · have hnarrow : ∀ u ∈ levels, u ≤ w := fun u hu => by have := hv u hu; omega
      have hnone : levels.filter (w < ·) = [] :=
        List.filter_eq_nil_iff.mpr fun u hu => by simpa using hnarrow u hu
      have hall : levels.filter (· ≤ w) = levels :=
        List.filter_eq_self.mpr fun u hu => by simpa using hnarrow u hu
      simp [hw, hnone, hall, Nat.le_of_not_lt hw]

/-- The levels that are left when the wider ones are closed. -/
theorem Stands.kept (h : Stands ws levels) (w : Nat) :
    0 :: (levels.dropWhile (w < ·)).reverse = (openLevels ws).filter (· ≤ w) := by
  rw [(while_eq_filter h.sorted w).2, ← h]
  simp

theorem Stands.closed (h : Stands ws levels) (w : Nat) :
    (levels.takeWhile (w < ·)).length = ((openLevels ws).filter (w < ·)).length := by
  rw [(while_eq_filter h.sorted w).1, ← h]
  simp

/-- What is left is as wide as the margin at most, and the innermost of it is the widest. -/
theorem Stands.isGreatest_kept (h : Stands ws levels) (w : Nat) :
    IsGreatest {x | x ∈ openLevels ws ∧ x ≤ w} (top (levels.dropWhile (w < ·))) := by
  have hgreatest := isGreatest_getLastD ((openLevels_sorted ws).filter (· ≤ w))
    (by rw [← h.kept]; exact List.cons_ne_nil _ _)
  rw [← h.kept, getLastD_cons_reverse, h.kept] at hgreatest
  simpa using hgreatest

/-- An open level is the innermost one when the wider ones are closed. -/
theorem Stands.top_kept_eq_iff (h : Stands ws levels) (w : Nat) :
    top (levels.dropWhile (w < ·)) = w ↔ w ∈ openLevels ws := by
  obtain ⟨hmem, hmax⟩ := h.isGreatest_kept w
  constructor
  · intro htop
    rw [htop] at hmem
    exact hmem.1
  · intro hw
    exact Nat.le_antisymm hmem.2 (hmax ⟨hw, Nat.le_refl w⟩)

theorem filter_le_of_mem (hw : w ∈ openLevels ws) :
    (openLevels ws).filter (· ≤ w) = openLevels (ws ++ [w]) := by
  refine ((openLevels_sorted ws).filter _).eq_of_mem_iff (openLevels_sorted _) fun x => ?_
  rw [mem_openLevels_concat, List.mem_filter, decide_eq_true_iff, Nat.le_iff_lt_or_eq]
  constructor
  · rintro ⟨hx, hlt | heq⟩
    · exact .inl ⟨hx, hlt⟩
    · exact .inr heq
  · rintro (⟨hx, hlt⟩ | rfl)
    · exact ⟨hx, .inl hlt⟩
    · exact ⟨hw, .inr rfl⟩

theorem filter_lt_of_innermost_lt (hw : innermost ws < w) :
    (openLevels ws).filter (· < w) = openLevels ws :=
  List.filter_eq_self.mpr fun _ hx =>
    decide_eq_true (Nat.lt_of_le_of_lt ((isGreatest_innermost ws).2 hx) hw)

/-- What one line end does to the levels that are kept is what it does to the open levels. -/
theorem shift_of_stands (h : Stands ws levels) (w : Nat) :
    (shift levels w).1 = marks ws w ∧
      (Meets ws w → ∃ levels', (shift levels w).2 = .ok levels' ∧ Stands (ws ++ [w]) levels') ∧
      (¬ Meets ws w → ∃ expected, (shift levels w).2 = .error ⟨w, expected⟩ ∧
        IsGreatest {x | x ∈ openLevels ws ∧ x < w} expected) := by
  by_cases hwider : innermost ws < w
  · rw [shift, marks, if_pos (h.top_eq ▸ hwider), if_pos hwider]
    refine ⟨rfl, fun _ => ⟨_, rfl, ?_⟩, fun hnot => absurd (.inl hwider) hnot⟩
    rw [Stands, openLevels_concat, filter_lt_of_innermost_lt hwider, ← h]
    simp
  · rw [shift, marks, if_neg (h.top_eq ▸ hwider), if_neg hwider]
    refine ⟨?_, fun hmeets => ?_, fun hnot => ?_⟩
    · rw [List.map_const', h.closed]
    · have hw := hmeets.resolve_left hwider
      refine ⟨_, if_pos ((h.top_kept_eq_iff w).mpr hw), ?_⟩
      rw [Stands, h.kept, filter_le_of_mem hw]
    · have hw := (not_meets_iff.mp hnot).2
      refine ⟨_, if_neg (mt (h.top_kept_eq_iff w).mp hw), ?_⟩
      obtain ⟨⟨hmem, hle⟩, hmax⟩ := h.isGreatest_kept w
      refine ⟨⟨hmem, lt_of_le_of_ne hle ?_⟩, fun x hx => hmax ⟨hx.1, hx.2.le⟩⟩
      exact mt (h.top_kept_eq_iff w).mp hw

end Stands

/-- The widths of the margins that the line ends among lexemes leave. -/
def widths (ls : List Lexeme) : List Nat :=
  (ls.filter (·.terminal = .newline)).map fun l => width (margin l.text)

section Lines

variable {ls before after : List Lexeme} {l line : Lexeme} {levels levels' : List Nat}
  {e : Mismatch}

theorem widths_append (ls ms : List Lexeme) : widths (ls ++ ms) = widths ls ++ widths ms := by
  simp [widths]

theorem widths_line (hl : l.terminal = .newline) : widths [l] = [width (margin l.text)] := by
  simp [widths, hl]

theorem widths_inner (hl : l.terminal ≠ .newline) : widths [l] = [] := by
  simp [widths, hl]

/-- A line end gives its own token and its marks. -/
theorem place_of_line (hl : l.terminal = .newline) (levels : List Nat) :
    place levels l = (⟨.newline, String.ofList l.text, l.position⟩ ::
        (shift levels (width (margin l.text))).1.map fun k =>
          ⟨k, String.ofList (margin l.text), l.position⟩,
      (shift levels (width (margin l.text))).2) := by
  simp [place, Lexeme.kind?_of_newline hl]

/-- What is no line end leaves the levels as they are, and gives no token that has to do with
them. -/
theorem place_of_inner (hl : l.terminal ≠ .newline) (levels : List Nat) :
    (place levels l).2 = .ok levels ∧
      ∀ t ∈ (place levels l).1, t.kind ∉ [.newline, .indent, .dedent] := by
  cases hk : l.kind? with
  | none => simp [place, hk]
  | some k =>
    have hne : k ≠ .newline := fun h => hl (Lexeme.terminal_of_kind? (h ▸ hk))
    have hout := Lexeme.kind_not_mem hk
    simp_all [place]

/-- A lexeme gives a line end if it is one. -/
theorem countKind_place (levels : List Nat) (l : Lexeme) :
    countKind .newline (place levels l).1 = (widths [l]).length := by
  by_cases hl : l.terminal = .newline
  · have hnone : countKind .newline ((shift levels (width (margin l.text))).1.map fun k =>
        (⟨k, String.ofList (margin l.text), l.position⟩ : Token)) = 0 := by
      refine List.countP_eq_zero.mpr fun t ht => ?_
      obtain ⟨k, hk, rfl⟩ := List.mem_map.mp ht
      rcases kind_of_mem_shift hk with rfl | rfl <;> simp
    rw [place_of_line hl, widths_line hl, countKind_cons, hnone]
    rfl
  · rw [widths_inner hl]
    refine List.countP_eq_zero.mpr fun t ht => ?_
    have hkind := (place_of_inner hl levels).2 t ht
    simp_all

/-- As long as every line end meets a level, the levels that are kept are the open levels, and there
is a token for each line end. -/
theorem arrange_of_regular (h : Regular (widths ls)) :
    ∃ levels, (arrange [] ls).2 = .ok levels ∧ Stands (widths ls) levels ∧
      countKind .newline (arrange [] ls).1 = (widths ls).length := by
  induction ls using List.reverseRecOn with
  | nil => exact ⟨[], rfl, rfl, rfl⟩
  | append_singleton ls l ih =>
    rw [widths_append] at h ⊢
    have hstep : ∀ {levels levels'}, (arrange [] ls).2 = .ok levels →
        countKind .newline (arrange [] ls).1 = (widths ls).length →
        (place levels l).2 = .ok levels' →
        (arrange [] (ls ++ [l])).2 = .ok levels' ∧
          countKind .newline (arrange [] (ls ++ [l])).1 = (widths ls ++ widths [l]).length := by
      intro levels levels' hok hcount hplace
      rw [arrange_append_of_ok hok, arrange_cons_of_ok hplace, countKind_append, countKind_append,
        countKind_place, hcount, List.length_append]
      exact ⟨rfl, rfl⟩
    by_cases hl : l.terminal = .newline
    · rw [widths_line hl] at h
      obtain ⟨hregular, hmeets⟩ := regular_concat_iff.mp h
      obtain ⟨levels, hok, hstands, hcount⟩ := ih hregular
      obtain ⟨levels', hshift, hstands'⟩ := (shift_of_stands hstands _).2.1 hmeets
      obtain ⟨hok', hcount'⟩ := hstep hok hcount (by rw [place_of_line hl]; exact hshift)
      exact ⟨levels', hok', by rwa [widths_line hl], hcount'⟩
    · rw [widths_inner hl, List.append_nil] at h
      obtain ⟨levels, hok, hstands, hcount⟩ := ih h
      obtain ⟨hok', hcount'⟩ := hstep hok hcount (place_of_inner hl levels).1
      exact ⟨levels, hok', by rwa [widths_inner hl, List.append_nil], hcount'⟩

/-- The token of a line end. -/
def lineToken (line : Lexeme) : Token := ⟨.newline, String.ofList line.text, line.position⟩

/-- The tokens for the marks of a line end. -/
def markTokens (ws : List Nat) (line : Lexeme) : List Token :=
  (marks ws (width (margin line.text))).map fun k =>
    ⟨k, String.ofList (margin line.text), line.position⟩

theorem place_of_stands {ws : List Nat} (h : Stands ws levels) (hline : line.terminal = .newline) :
    (place levels line).1 = lineToken line :: markTokens ws line := by
  rw [place_of_line hline, (shift_of_stands h _).1]
  rfl

theorem countKind_line {ws : List Nat} (h : Stands ws levels) (hline : line.terminal = .newline) :
    countKind .newline (lineToken line :: markTokens ws line) = 1 := by
  rw [← place_of_stands h hline, countKind_place, widths_line hline]
  rfl

/-- A line end that meets a level, among the lexemes of a text. -/
theorem arrange_of_meets (hregular : Regular (widths before)) (hline : line.terminal = .newline)
    (hmeets : Meets (widths before) (width (margin line.text))) (after : List Lexeme) :
    ∃ levels, Stands (widths (before ++ [line])) levels ∧
      (arrange [] (before ++ [line])).2 = .ok levels ∧
      arrange [] (before ++ line :: after) =
        ((arrange [] before).1 ++ lineToken line :: markTokens (widths before) line ++
          (arrange levels after).1, (arrange levels after).2) := by
  obtain ⟨levels, hok, hstands, -⟩ := arrange_of_regular hregular
  obtain ⟨levels', hshift, hstands'⟩ := (shift_of_stands hstands _).2.1 hmeets
  have hplace : (place levels line).2 = .ok levels' := by rw [place_of_line hline]; exact hshift
  refine ⟨levels', by rwa [widths_append, widths_line hline], ?_, ?_⟩
  · rw [arrange_append_of_ok hok, arrange_cons_of_ok hplace]
    rfl
  · rw [arrange_append_of_ok hok, arrange_cons_of_ok hplace, place_of_stands hstands hline,
      List.append_assoc]

/-- A line end that meets no level, among the lexemes of a text. -/
theorem arrange_of_not_meets (hregular : Regular (widths before)) (hline : line.terminal = .newline)
    (hnot : ¬ Meets (widths before) (width (margin line.text))) (after : List Lexeme) :
    ∃ expected,
      IsGreatest {x | x ∈ openLevels (widths before) ∧ x < width (margin line.text)} expected ∧
      arrange [] (before ++ line :: after) =
        ((arrange [] before).1 ++ lineToken line :: markTokens (widths before) line,
          .error ⟨width (margin line.text), expected⟩) := by
  obtain ⟨levels, hok, hstands, -⟩ := arrange_of_regular hregular
  obtain ⟨expected, hshift, hgreatest⟩ := (shift_of_stands hstands _).2.2 hnot
  have hplace : (place levels line).2 = .error ⟨width (margin line.text), expected⟩ := by
    rw [place_of_line hline]
    exact hshift
  refine ⟨expected, hgreatest, ?_⟩
  rw [arrange_append_of_ok hok, arrange_cons_of_error hplace, place_of_stands hstands hline]

/-- The first line end that meets no level. -/
theorem exists_line_of_mismatch (h : (arrange [] ls).2 = .error e) :
    ∃ before line after, ls = before ++ line :: after ∧ line.terminal = .newline ∧
      Regular (widths before) ∧ ¬ Meets (widths before) (width (margin line.text)) := by
  suffices hsome : Regular (widths ls) ∨ ∃ before line after, ls = before ++ line :: after ∧
      line.terminal = .newline ∧ Regular (widths before) ∧
      ¬ Meets (widths before) (width (margin line.text)) by
    refine hsome.resolve_left fun hregular => ?_
    obtain ⟨levels, hok, -⟩ := arrange_of_regular hregular
    rw [hok] at h
    cases h
  clear h
  induction ls using List.reverseRecOn with
  | nil => exact .inl regular_nil
  | append_singleton ls l ih =>
    rcases ih with hregular | ⟨before, line, after, rfl, hline⟩
    · rw [widths_append]
      by_cases hl : l.terminal = .newline
      · by_cases hmeets : Meets (widths ls) (width (margin l.text))
        · rw [widths_line hl]
          exact .inl (regular_concat_iff.mpr ⟨hregular, hmeets⟩)
        · exact .inr ⟨ls, l, [], rfl, hl, hregular, hmeets⟩
      · rw [widths_inner hl, List.append_nil]
        exact .inl hregular
    · exact .inr ⟨before, line, after ++ [l], by simp, hline⟩

/-- No mark comes before the first line end. -/
theorem head_arrange (levels : List Nat) (ls : List Lexeme) :
    ∀ t ∈ (arrange levels ls).1.head?, t.kind ∉ [.indent, .dedent] := by
  induction ls generalizing levels with
  | nil => exact nofun
  | cons l ls ih =>
    by_cases hl : l.terminal = .newline
    · have hfirst : ∃ us, (arrange levels (l :: ls)).1 = lineToken l :: us := by
        cases hplace : (place levels l).2 with
        | error e =>
          rw [arrange_cons_of_error hplace, place_of_line hl]
          exact ⟨_, rfl⟩
        | ok levels' =>
          rw [arrange_cons_of_ok hplace, place_of_line hl]
          exact ⟨_, rfl⟩
      obtain ⟨us, hus⟩ := hfirst
      rw [hus]
      intro t ht
      cases ht
      simp [lineToken]
    · obtain ⟨hplace, hkinds⟩ := place_of_inner hl levels
      rw [arrange_cons_of_ok hplace]
      cases hfirst : (place levels l).1 with
      | nil => exact ih levels
      | cons u us =>
        rintro t ⟨⟩
        have hkind := hkinds u (by simp [hfirst])
        simp_all

/-- A margin that meets no level is that of a line end, which has its token. -/
theorem countKind_of_mismatch (h : (arrange levels ls).2 = .error e) :
    0 < countKind .newline (arrange levels ls).1 := by
  induction ls generalizing levels with
  | nil => cases h
  | cons l ls ih =>
    cases hplace : (place levels l).2 with
    | error e' =>
      have hl : l.terminal = .newline := by
        by_contra hl
        rw [(place_of_inner hl levels).1] at hplace
        cases hplace
      rw [arrange_cons_of_error hplace, countKind_place, widths_line hl]
      exact Nat.one_pos
    | ok levels' =>
      rw [arrange_cons_of_ok hplace] at h ⊢
      rw [countKind_append]
      exact Nat.add_pos_right _ (ih h)

end Lines

end Layout

open Layout

/-- The tokens that come from a text, whether or not it has tokens to its end. -/
def produced : Except LexicalError (List Token) → List Token
  | .ok ts => ts
  | .error e => e.history

theorem tokenize_eq_mismatch_iff {source : String} {e : Mismatch} {history : List Token} :
    tokenize source = .error ⟨.mismatch e, history⟩ ↔
      arrange [] (Source.cut source).lexemes = (history, .error e) := by
  show _ ↔ Source.arranged source = _
  cases hout : (Source.arranged source).2 with
  | error e' => simp [tokenize_of_mismatch hout, Prod.ext_iff, hout, and_comm]
  | ok levels =>
    have hnone : Source.arranged source ≠ (history, .error e) := by
      intro h
      rw [h] at hout
      cases hout
    cases hstop : (Source.cut source).stop with
    | none => simp [tokenize_of_end hout hstop, hnone]
    | some x => simp [tokenize_of_stop hout hstop, hnone]

/-- Nothing but the end of the input comes after the tokens of the lexemes. -/
theorem produced_tokenize (source : String) :
    ∃ rest, produced (tokenize source) = (arrange [] (Source.cut source).lexemes).1 ++ rest ∧
      ∀ t ∈ rest, t.kind = .eof := by
  have hall : ∃ rest, produced (tokenize source) = (Source.arranged source).1 ++ rest ∧
      ∀ t ∈ rest, t.kind = .eof := by
    cases hout : (Source.arranged source).2 with
    | error e =>
      rw [tokenize_of_mismatch hout]
      exact ⟨[], (List.append_nil _).symm, nofun⟩
    | ok levels =>
      cases hstop : (Source.cut source).stop with
      | none =>
        rw [tokenize_of_end hout hstop]
        exact ⟨_, rfl, fun t ht => by rw [List.mem_singleton.mp ht]; rfl⟩
      | some x =>
        rw [tokenize_of_stop hout hstop]
        exact ⟨[], (List.append_nil _).symm, nofun⟩
  exact hall

/-- What a line end does, told by the widths that the line ends before it have left. -/
structure LineRule (source : String) (before : List Lexeme) (line : Lexeme) : Prop where
  /-- If it meets a level, the levels that are then kept are the open levels. -/
  levels : Meets (widths before) (width (margin line.text)) →
    ∃ levels, (arrange [] (before ++ [line])).2 = .ok levels ∧
      0 :: levels.reverse = openLevels (widths (before ++ [line]))
  /-- Its token comes after those of the line ends before it; its marks, and no others, follow. -/
  tokens : countKind .newline (arrange [] before).1 = (widths before).length ∧
    ∃ rest, produced (tokenize source) = (arrange [] before).1 ++ lineToken line ::
        markTokens (widths before) line ++ rest ∧
      ∀ t ∈ rest.head?, t.kind ∉ [.indent, .dedent]
  /-- The text is refused here if the margin is narrower than the innermost level and meets none. -/
  refused : (∃ e history, tokenize source = .error ⟨.mismatch e, history⟩ ∧
      countKind .newline history = (widths before).length + 1) ↔
    width (margin line.text) < innermost (widths before) ∧
      width (margin line.text) ∉ openLevels (widths before)
  /-- It is then refused with the tokens up to here, in the names of the width and of the level that
  is next to it. -/
  report : width (margin line.text) < innermost (widths before) →
    width (margin line.text) ∉ openLevels (widths before) →
    ∃ expected cause,
      IsGreatest {x | x ∈ openLevels (widths before) ∧ x < width (margin line.text)} expected ∧
      tokenize source = .error ⟨cause, (arrange [] before).1 ++ lineToken line ::
        markTokens (widths before) line⟩ ∧
      cause.message = "Unexpected dedent to column " ++ (width (margin line.text)).repr ++
        ". Expected dedent to " ++ expected.repr

/-- Every line end of a text does what the widths say, as long as those before it have met a level,
and a text is refused for its margins at the first line end that meets none. -/
theorem tokenize_indentation (source : String) :
    (∀ before line after, (Source.cut source).lexemes = before ++ line :: after →
      line.terminal = .newline → Regular (widths before) → LineRule source before line) ∧
    (∀ e history, tokenize source = .error ⟨.mismatch e, history⟩ →
      ∃ before line after, (Source.cut source).lexemes = before ++ line :: after ∧
        line.terminal = .newline ∧ Regular (widths before) ∧
        ¬ Meets (widths before) (width (margin line.text))) := by
  constructor
  · intro before line after hcut hline hregular
    obtain ⟨levels, -, hstands, hcount⟩ := arrange_of_regular hregular
    have hlines : countKind .newline ((arrange [] before).1 ++
        lineToken line :: markTokens (widths before) line) = (widths before).length + 1 := by
      rw [countKind_append, hcount, countKind_line hstands hline]
    obtain ⟨rest, hproduced, hrest⟩ := produced_tokenize source
    rw [hcut] at hproduced
    by_cases hmeets : Meets (widths before) (width (margin line.text))
    · obtain ⟨levels', hstands', hok, harrange⟩ := arrange_of_meets hregular hline hmeets after
      have hnot := mt not_meets_iff.mpr (not_not.mpr hmeets)
      refine ⟨fun _ => ⟨levels', hok, hstands'⟩, ⟨hcount, ?_⟩, ⟨?_, fun h => absurd h hnot⟩,
        fun hlt hmem => absurd ⟨hlt, hmem⟩ hnot⟩
      · rw [harrange, List.append_assoc] at hproduced
        refine ⟨_, hproduced, fun t ht => ?_⟩
        cases hmore : (arrange levels' after).1 with
        | nil =>
          rw [hmore, List.nil_append] at ht
          simp [hrest t (List.mem_of_mem_head? ht)]
        | cons u us =>
          rw [hmore] at ht
          exact head_arrange levels' after t (by rw [hmore]; exact ht)
      · rintro ⟨e, history, herror, hcounted⟩
        rw [tokenize_eq_mismatch_iff, hcut, harrange] at herror
        obtain ⟨rfl, hlater⟩ := Prod.mk.inj herror
        -- A later line end is refused, and has its own token.
        have hmore := countKind_of_mismatch hlater
        rw [countKind_append] at hcounted
        omega
    · obtain ⟨expected, hgreatest, harrange⟩ := arrange_of_not_meets hregular hline hmeets after
      have herror := tokenize_eq_mismatch_iff.mpr (hcut ▸ harrange)
      refine ⟨fun h => absurd h hmeets, ⟨hcount, ?_⟩,
        ⟨fun _ => not_meets_iff.mp hmeets, fun _ => ⟨_, _, herror, ?_⟩⟩,
        fun _ _ => ⟨expected, _, hgreatest, herror, rfl⟩⟩
      · rw [herror]
        exact ⟨[], by simp [produced], nofun⟩
      · exact hlines
  · intro e history h
    rw [tokenize_eq_mismatch_iff] at h
    exact exists_line_of_mismatch (congrArg Prod.snd h)

/-- Three blocks, each in the one before it, and a line that meets none of them. -/
def steppedText : String := "if a:\n  if b:\n\tif c:\n\t d\n     e\n"

/-- The lexemes of the stepped text before its fourth line end. -/
def steppedBefore : List Lexeme := (Source.cut steppedText).lexemes.take 16

def steppedLine : Lexeme := ⟨.newline, ['\n', ' ', ' ', ' ', ' ', ' '], ⟨4, 4⟩⟩

theorem tokenize_steppedText :
    (widths steppedBefore = [2, 8, 9] ∧ openLevels [2, 8, 9] = [0, 2, 8, 9] ∧
      LineRule steppedText steppedBefore steppedLine) ∧
    ∃ history, tokenize steppedText = .error ⟨.mismatch ⟨5, 2⟩, history⟩ ∧
      ∃ before line after, (Source.cut steppedText).lexemes = before ++ line :: after ∧
        line.terminal = .newline ∧ Regular (widths before) ∧
        ¬ Meets (widths before) (width (margin line.text)) := by
  have hwidths : widths steppedBefore = [2, 8, 9] := by decide +kernel
  have hregular : Regular (widths steppedBefore) := by
    have hone : Regular [2] := (@regular_concat_iff [] 2).mpr ⟨regular_nil, by decide⟩
    have htwo : Regular [2, 8] := (@regular_concat_iff [2] 8).mpr ⟨hone, by decide⟩
    rw [hwidths]
    exact (@regular_concat_iff [2, 8] 9).mpr ⟨htwo, by decide⟩
  have hcut : (Source.cut steppedText).lexemes =
      steppedBefore ++ steppedLine :: (Source.cut steppedText).lexemes.drop 17 := by decide +kernel
  refine ⟨⟨hwidths, by decide, (tokenize_indentation steppedText).1 _ _ _ hcut rfl hregular⟩, ?_⟩
  have herror : ∃ history, tokenize steppedText = .error ⟨.mismatch ⟨5, 2⟩, history⟩ := by
    refine ⟨produced (tokenize steppedText), ?_⟩
    decide +kernel
  obtain ⟨history, herror⟩ := herror
  exact ⟨history, herror, (tokenize_indentation steppedText).2 _ _ herror⟩

end TinyScript
