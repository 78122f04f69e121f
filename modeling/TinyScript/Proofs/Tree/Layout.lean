import TinyScript.Proofs.Text.Joined
import TinyScript.Tree.Outline

/-!
# The layout of outlines

An outline shows a tree of headers, and how far a line is indented tells where in the tree it
stands. The tree is determined by the text (`Entry.text_unique`), if every header is one line that
does not begin with a blank. The proof reads the lines in their order: those of an entry at some
depth go on to the first line that is not deeper.
-/

namespace TinyScript.Outline

open Text (joinWith)

/-- An entry of an outline: a header, and the entries below it. -/
inductive Entry where
  | node (header : String) (below : List Entry)

namespace Entry

mutual

/-- The lines of an entry at a given depth. -/
def lines (depth : Nat) : Entry → List String
  | node header below => line depth header :: linesAll (depth + 1) below

def linesAll (depth : Nat) : List Entry → List String
  | [] => []
  | t :: ts => t.lines depth ++ linesAll depth ts

end

def header : Entry → String
  | node header _ => header

theorem linesAll_append (depth : Nat) (ts us : List Entry) :
    linesAll depth (ts ++ us) = linesAll depth ts ++ linesAll depth us := by
  induction ts with
  | nil => rfl
  | cons t ts ih => rw [List.cons_append, linesAll, linesAll, ih, List.append_assoc]

end Entry

/-- The text has no line end. -/
def OneLine (s : String) : Prop := '\n' ∉ s.toList

instance (s : String) : Decidable (OneLine s) := inferInstanceAs (Decidable ('\n' ∉ s.toList))

theorem oneLine_empty : OneLine "" := by decide

theorem OneLine.append {s t : String} (hs : OneLine s) (ht : OneLine t) : OneLine (s ++ t) := by
  unfold OneLine
  rw [String.toList_append, List.mem_append]
  exact fun h => h.elim hs ht

/-- The text is one line that does not begin with a blank. -/
structure IsHeader (s : String) : Prop where
  oneLine : OneLine s
  solid : ∃ c ∈ s.toList.head?, c ≠ ' '

instance (s : String) : Decidable (IsHeader s) :=
  decidable_of_iff (OneLine s ∧ s.toList.head?.any (fun c => decide (c ≠ ' ')) = true)
    ⟨fun h => ⟨h.1, by simpa [Option.any_eq_true] using h.2⟩,
      fun h => ⟨h.oneLine, by simpa [Option.any_eq_true] using h.solid⟩⟩

theorem IsHeader.append {s t : String} (hs : IsHeader s) (ht : OneLine t) : IsHeader (s ++ t) := by
  refine ⟨hs.oneLine.append ht, ?_⟩
  obtain ⟨c, hc, hblank⟩ := hs.solid
  refine ⟨c, ?_, hblank⟩
  rw [String.toList_append, List.head?_append, hc]
  rfl

/-- Blanks before two texts that begin otherwise. -/
theorem blanks_unique {n m : Nat} {cs ds : List Char} (hc : ∃ c ∈ cs.head?, c ≠ ' ')
    (hd : ∃ d ∈ ds.head?, d ≠ ' ')
    (h : List.replicate n ' ' ++ cs = List.replicate m ' ' ++ ds) : n = m ∧ cs = ds := by
  induction n generalizing m with
  | zero =>
    cases m with
    | zero => exact ⟨rfl, h⟩
    | succ m =>
      obtain ⟨c, hmem, hblank⟩ := hc
      rw [show cs = ' ' :: _ from h] at hmem
      exact absurd (Option.some.inj hmem).symm hblank
  | succ n ih =>
    cases m with
    | zero =>
      obtain ⟨d, hmem, hblank⟩ := hd
      rw [show ds = ' ' :: _ from h.symm] at hmem
      exact absurd (Option.some.inj hmem).symm hblank
    | succ m =>
      obtain ⟨rfl, rfl⟩ := ih (List.cons.inj h).2
      exact ⟨rfl, rfl⟩

/-- A line tells its depth and its header. -/
theorem line_unique {n m : Nat} {s t : String} (hs : IsHeader s) (ht : IsHeader t)
    (h : line n s = line m t) : n = m ∧ s = t := by
  have hchars := congrArg String.toList h
  simp only [line, String.toList_append, String.toList_ofList] at hchars
  obtain ⟨hdepth, hheader⟩ := blanks_unique hs.solid ht.solid hchars
  exact ⟨by omega, String.toList_inj.mp hheader⟩

theorem line_ne_empty (n : Nat) {s : String} (hs : IsHeader s) : line n s ≠ "" := by
  intro h
  obtain ⟨c, hc, -⟩ := hs.solid
  rw [(String.append_eq_empty_iff.mp h).2] at hc
  cases hc

theorem oneLine_line (n : Nat) {s : String} (hs : IsHeader s) : OneLine (line n s) := by
  refine OneLine.append (fun h => ?_) hs.oneLine
  rw [String.toList_ofList] at h
  exact absurd (List.eq_of_mem_replicate h) (by decide)

namespace Entry

mutual

/-- All headers are headers indeed. -/
def Legible : Entry → Prop
  | node header below => IsHeader header ∧ AllLegible below

def AllLegible : List Entry → Prop
  | [] => True
  | t :: ts => t.Legible ∧ AllLegible ts

end

/-- The lines begin with one that is less than `depth` levels in, if there is one. -/
def Above (depth : Nat) (rest : List String) : Prop :=
  ∀ l ∈ rest.head?, ∃ n < depth, ∃ header, IsHeader header ∧ l = line n header

theorem above_nil (depth : Nat) : Above depth [] := by
  intro l hl
  cases hl

theorem Above.mono {n m : Nat} {rest : List String} (h : Above n rest) (hnm : n ≤ m) :
    Above m rest := by
  intro l hl
  obtain ⟨k, hk, hline⟩ := h l hl
  exact ⟨k, by omega, hline⟩

theorem above_lines {depth : Nat} {t : Entry} (ht : t.Legible) (rest : List String) :
    Above (depth + 1) (t.lines depth ++ rest) := by
  obtain ⟨header, below⟩ := t
  intro l hl
  exact ⟨depth, by omega, header, ht.1, (Option.some.inj hl).symm⟩

theorem above_linesAll {depth : Nat} {ts : List Entry} (hts : AllLegible ts) {rest : List String}
    (hrest : Above depth rest) : Above (depth + 1) (linesAll depth ts ++ rest) := by
  cases ts with
  | nil => exact hrest.mono (by omega)
  | cons t ts =>
    rw [linesAll, List.append_assoc]
    exact above_lines hts.1 _

/-- An entry does not begin with a line of a lesser depth. -/
theorem not_above_lines {depth : Nat} {t : Entry} (ht : t.Legible) (rest : List String) :
    ¬Above depth (t.lines depth ++ rest) := by
  obtain ⟨header, below⟩ := t
  intro h
  obtain ⟨n, hn, header', hheader', hline⟩ := h _ rfl
  have hdepth := (line_unique ht.1 hheader' hline).1
  omega

mutual

/-- The lines of an entry, and what follows them, are read in one way. -/
theorem lines_unique {depth : Nat} (t t' : Entry) {rest rest' : List String} (ht : t.Legible)
    (ht' : t'.Legible) (hrest : Above (depth + 1) rest) (hrest' : Above (depth + 1) rest')
    (h : t.lines depth ++ rest = t'.lines depth ++ rest') : t = t' ∧ rest = rest' := by
  obtain ⟨header, below⟩ := t
  obtain ⟨header', below'⟩ := t'
  obtain ⟨hline, hbelow⟩ := List.cons.inj h
  obtain ⟨-, rfl⟩ := line_unique ht.1 ht'.1 hline
  obtain ⟨rfl, rfl⟩ := linesAll_unique below below' ht.2 ht'.2 hrest hrest' hbelow
  exact ⟨rfl, rfl⟩

theorem linesAll_unique {depth : Nat} (ts ts' : List Entry) {rest rest' : List String}
    (hts : AllLegible ts) (hts' : AllLegible ts') (hrest : Above depth rest)
    (hrest' : Above depth rest')
    (h : linesAll depth ts ++ rest = linesAll depth ts' ++ rest') : ts = ts' ∧ rest = rest' := by
  cases ts with
  | nil =>
    cases ts' with
    | nil => exact ⟨rfl, h⟩
    | cons t' ts' =>
      have hstart : rest = t'.lines depth ++ (linesAll depth ts' ++ rest') := by
        rw [← List.append_assoc]
        exact h
      rw [hstart] at hrest
      exact absurd hrest (not_above_lines hts'.1 _)
  | cons t ts =>
    cases ts' with
    | nil =>
      have hstart : rest' = t.lines depth ++ (linesAll depth ts ++ rest) := by
        rw [← List.append_assoc]
        exact h.symm
      rw [hstart] at hrest'
      exact absurd hrest' (not_above_lines hts.1 _)
    | cons t' ts' =>
      rw [linesAll, linesAll, List.append_assoc, List.append_assoc] at h
      obtain ⟨rfl, hmore⟩ := lines_unique t t' hts.1 hts'.1 (above_linesAll hts.2 hrest)
        (above_linesAll hts'.2 hrest') h
      obtain ⟨rfl, rfl⟩ := linesAll_unique ts ts' hts.2 hts'.2 hrest hrest' hmore
      exact ⟨rfl, rfl⟩

end

mutual

theorem exists_line (depth : Nat) (t : Entry) (ht : t.Legible) :
    ∀ l ∈ t.lines depth, ∃ n header, IsHeader header ∧ l = line n header := by
  obtain ⟨header, below⟩ := t
  intro l hl
  obtain rfl | hl := List.mem_cons.mp hl
  · exact ⟨depth, header, ht.1, rfl⟩
  · exact exists_line_all (depth + 1) below ht.2 l hl

theorem exists_line_all (depth : Nat) (ts : List Entry) (hts : AllLegible ts) :
    ∀ l ∈ linesAll depth ts, ∃ n header, IsHeader header ∧ l = line n header := by
  cases ts with
  | nil => nofun
  | cons t ts =>
    intro l hl
    obtain hl | hl := List.mem_append.mp hl
    · exact exists_line depth t hts.1 l hl
    · exact exists_line_all depth ts hts.2 l hl

end

/-- A legible entry is determined by the text of its outline. -/
theorem text_unique {t t' : Entry} (ht : t.Legible) (ht' : t'.Legible)
    (h : joinWith "\n" (t.lines 0) = joinWith "\n" (t'.lines 0)) : t = t' := by
  have hline : ∀ u : Entry, u.Legible → ∀ l ∈ u.lines 0, l ≠ "" ∧ '\n' ∉ l.toList := by
    intro u hu l hl
    obtain ⟨n, header, hheader, rfl⟩ := exists_line 0 u hu l hl
    exact ⟨line_ne_empty n hheader, oneLine_line n hheader⟩
  have hlines := Text.joinWith_unique (Text.opensWith_of_head (c := '\n') rfl) (by decide)
    (hline t ht) (hline t' ht') h
  have hread : t.lines 0 ++ [] = t'.lines 0 ++ [] := by rw [hlines]
  exact (lines_unique t t' ht ht' (above_nil 1) (above_nil 1) hread).1

end Entry

end TinyScript.Outline
