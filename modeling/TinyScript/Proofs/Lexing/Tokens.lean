import TinyScript.Token.Layout

/-!
# The texts of tokens

What is known of the tokens of a text: keywords and symbols are spelt as they should be, names are
words that are no keywords, and numerals are made of digits. The last token is the end of the input.
-/

namespace TinyScript

open Text (isDigit isWord)

/-- A word of which the first character is no digit, and which is no keyword. -/
structure IsName (s : String) : Prop where
  word : ∃ c cs, s.toList = c :: cs ∧ isDigit c = false ∧ ∀ d ∈ c :: cs, isWord d = true
  free : Keyword.ofText? s = none

/-- The text of a token is one that its kind can have. -/
def Token.Faithful (t : Token) : Prop :=
  match t.kind with
  | .keyword k => t.text = k.text
  | .symbol s => t.text = String.ofList s.chars
  | .name => IsName t.text
  | .number => ∀ d ∈ t.text.toList, isDigit d = true
  | _ => True

theorem Terminal.take_run (p : Char → Bool) (cs : List Char) :
    cs.take (Terminal.run p cs) = cs.takeWhile p :=
  (List.prefix_iff_eq_take.mp (List.takeWhile_prefix p)).symm

theorem Terminal.of_mem_takeWhile {p : Char → Bool} {cs : List Char} {c : Char}
    (h : c ∈ cs.takeWhile p) : p c = true := by
  have hall := List.all_takeWhile (p := p) (l := cs)
  exact List.all_eq_true.mp hall c h

/-- A lexeme is what its class finds at the front of some text. -/
theorem Cut.exists_scan {p : Position} {cs : List Char} {l : Lexeme}
    (h : l ∈ (Cut.ofChars p cs).lexemes) :
    ∃ ds, l.text = ds.take (l.terminal.scan ds) ∧ 0 < l.terminal.scan ds := by
  fun_induction Cut.ofChars p cs with
  | case1 => cases h
  | case2 => cases h
  | case3 p c rest t n hfirst text ih =>
    rcases List.mem_cons.mp h with rfl | h
    · obtain ⟨hscan, hpos⟩ := Terminal.scan_of_first? hfirst
      exact ⟨c :: rest, by rw [hscan], by rw [hscan]; exact hpos⟩
    · exact ih h

namespace Lexeme

variable {l : Lexeme} {ds : List Char}

/-- What is known of a lexeme that was cut from a text. -/
def Scanned (l : Lexeme) : Prop :=
  ∃ ds, l.text = ds.take (l.terminal.scan ds) ∧ 0 < l.terminal.scan ds

theorem Scanned.symbol {s : Symbol} (h : l.Scanned) (hl : l.terminal = .symbol s) :
    l.text = s.chars := by
  obtain ⟨ds, htext, hpos⟩ := h
  rw [hl] at htext hpos
  simp only [Terminal.scan, Terminal.scanSymbol] at htext hpos
  split at hpos
  · next hprefix =>
    rw [htext, if_pos hprefix]
    exact (List.prefix_iff_eq_take.mp (List.isPrefixOf_iff_prefix.mp hprefix)).symm
  · exact absurd hpos (Nat.lt_irrefl _)

theorem Scanned.number (h : l.Scanned) (hl : l.terminal = .number) :
    ∀ d ∈ l.text, isDigit d = true := by
  obtain ⟨ds, htext, -⟩ := h
  rw [hl] at htext
  simp only [Terminal.scan, Terminal.take_run] at htext
  rw [htext]
  exact fun d hd => Terminal.of_mem_takeWhile hd

theorem Scanned.name (h : l.Scanned) (hl : l.terminal = .name) :
    ∃ c cs, l.text = c :: cs ∧ isDigit c = false ∧ ∀ d ∈ c :: cs, isWord d = true := by
  obtain ⟨ds, htext, hpos⟩ := h
  rw [hl] at htext hpos
  cases ds with
  | nil => exact absurd hpos (Nat.lt_irrefl _)
  | cons c cs =>
    simp only [Terminal.scan, Terminal.scanName] at htext hpos
    split at hpos
    · next hc =>
      obtain ⟨hword, hdigit⟩ := Bool.and_eq_true_iff.mp hc
      rw [if_pos hc, List.take_succ_cons, Terminal.take_run] at htext
      refine ⟨c, cs.takeWhile isWord, htext, by simpa using hdigit, ?_⟩
      intro d hd
      rcases List.mem_cons.mp hd with rfl | hd
      · exact hword
      · exact Terminal.of_mem_takeWhile hd
    · exact absurd hpos (Nat.lt_irrefl _)

/-- The token of a lexeme, unless the language ignores it. -/
def token? (l : Lexeme) : Option Token :=
  l.kind?.map fun k => ⟨k, String.ofList l.text, l.position⟩

theorem Scanned.faithful (h : l.Scanned) {t : Token} (ht : l.token? = some t) : t.Faithful := by
  obtain ⟨k, hk, rfl⟩ := Option.map_eq_some_iff.mp ht
  unfold Lexeme.kind? at hk
  split at hk
  · cases hk; trivial
  · cases hk; trivial
  · cases hk; trivial
  · cases hk
  · next hl =>
    split at hk
    · next k' hkey =>
      cases hk
      exact (Keyword.text_of_ofText? hkey).symm
    · next hkey =>
      cases hk
      obtain ⟨c, cs, htext, hdigit, hword⟩ := h.name hl
      exact ⟨⟨c, cs, by simp [htext], hdigit, hword⟩, hkey⟩
  · cases hk
  · next hl =>
    cases hk
    intro d hd
    exact h.number hl d (by simpa using hd)
  · next s hl =>
    cases hk
    exact congrArg String.ofList (h.symbol hl)

end Lexeme

theorem Layout.kind_of_mem_shift {levels : List Nat} {w : Nat} {k : Kind}
    (h : k ∈ (Layout.shift levels w).1) : k = .indent ∨ k = .dedent := by
  unfold Layout.shift at h
  split at h
  · exact .inl (List.mem_singleton.mp h)
  · exact .inr (List.eq_of_mem_replicate h)

/-- The tokens of a lexeme are its own, or marks of indentation. -/
theorem Layout.mem_place {levels : List Nat} {l : Lexeme} {t : Token}
    (h : t ∈ (Layout.place levels l).1) :
    l.token? = some t ∨ t.kind = .indent ∨ t.kind = .dedent := by
  unfold Layout.place at h
  cases hk : l.kind? with
  | none =>
    rw [hk] at h
    cases h
  | some k =>
    have hself : l.token? = some ⟨k, String.ofList l.text, l.position⟩ := by
      simp [Lexeme.token?, hk]
    simp only [hk] at h
    split at h
    · rcases List.mem_cons.mp h with rfl | hmark
      · exact .inl hself
      · obtain ⟨k', hk', rfl⟩ := List.mem_map.mp hmark
        exact .inr (Layout.kind_of_mem_shift hk')
    · rw [List.mem_singleton.mp h]
      exact .inl hself

/-- The tokens of an arrangement come from its lexemes, or are marks of indentation. -/
theorem Layout.mem_arrange {levels : List Nat} {ls : List Lexeme} {t : Token}
    (h : t ∈ (Layout.arrange levels ls).1) :
    (∃ l ∈ ls, l.token? = some t) ∨ t.kind = .indent ∨ t.kind = .dedent := by
  induction ls generalizing levels with
  | nil => cases h
  | cons l ls ih =>
    have hhead : t ∈ (Layout.place levels l).1 →
        (∃ l' ∈ l :: ls, l'.token? = some t) ∨ t.kind = .indent ∨ t.kind = .dedent :=
      fun hmem => (Layout.mem_place hmem).imp_left fun ht => ⟨l, List.mem_cons_self, ht⟩
    cases hplace : (Layout.place levels l).2 with
    | error e =>
      rw [Layout.arrange_cons_of_error hplace] at h
      exact hhead h
    | ok levels' =>
      rw [Layout.arrange_cons_of_ok hplace] at h
      rcases List.mem_append.mp h with hmem | hmem
      · exact hhead hmem
      · refine (ih hmem).imp_left ?_
        rintro ⟨l', hl', ht⟩
        exact ⟨l', List.mem_cons_of_mem _ hl', ht⟩

theorem Lexeme.kind_of_token? {l : Lexeme} {t : Token} (h : l.token? = some t) : t.kind ≠ .eof := by
  obtain ⟨k, hk, rfl⟩ := Option.map_eq_some_iff.mp h
  rintro rfl
  unfold Lexeme.kind? at hk
  repeat' split at hk
  all_goals simp at hk

/-- The tokens of a text are faithful, and the end of the input is the last of them only. -/
theorem faithful_of_tokenize {source : String} {ts : List Token} (h : tokenize source = .ok ts) :
    ∃ us e, ts = us ++ [e] ∧ e.kind = .eof ∧ ∀ t ∈ us, t.Faithful ∧ t.kind ≠ .eof := by
  unfold tokenize at h
  simp only at h
  split at h
  · cases h
  · cases h
  · next levels hok hstop =>
    cases h
    refine ⟨_, _, rfl, rfl, ?_⟩
    intro t ht
    rcases List.mem_append.mp ht with ht | ht
    · rcases Layout.mem_arrange ht with ⟨l, hl, hlt⟩ | hk | hk
      · exact ⟨Lexeme.Scanned.faithful (Cut.exists_scan hl) hlt, Lexeme.kind_of_token? hlt⟩
      · simp [Token.Faithful, hk]
      · simp [Token.Faithful, hk]
    · obtain ⟨_, -, rfl⟩ := List.mem_map.mp ht
      exact ⟨trivial, nofun⟩

end TinyScript
