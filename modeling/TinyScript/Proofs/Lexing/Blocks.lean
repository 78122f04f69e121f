import TinyScript.Proofs.Lexing.Seam
import Mathlib.Data.List.Chain

/-!
# Tokens are laid out in blocks

`Layout.Blocks n ts m` says what arranging lexemes can put out, from `n` open levels to `m`: tokens
of the text, a line end with the mark of a block that it opens, and a line end with the marks of the
blocks that it closes. Everything that is known of the layout follows from that by induction: where
marks stand, what their texts are, and how many of them there are before any place
(`tokenize_laidOut`).

That a line end has a line feed in it, and nothing but a margin behind the last one, is known of
ended texts only: there no comment is the last thing in its line end.
-/

namespace TinyScript

open Terminal (scanBreaks isMargin)

/-- The text holds a line feed, and behind the last one there are tabs and blanks only. -/
def EndsLine (w : List Char) : Prop :=
  ∃ head margin, w = head ++ '\n' :: margin ∧ ∀ c ∈ margin, isMargin c = true

theorem EndsLine.cons {w : List Char} (h : EndsLine w) (c : Char) : EndsLine (c :: w) := by
  obtain ⟨head, margin, rfl, hmargin⟩ := h
  exact ⟨c :: head, margin, rfl, hmargin⟩

theorem endsLine_line {margin : List Char} (h : ∀ c ∈ margin, isMargin c = true) :
    EndsLine ('\n' :: margin) :=
  ⟨[], margin, rfl, h⟩

/-- The margin that layout looks at is the one behind the last line feed. -/
theorem Layout.margin_append_line {head margin : List Char} (h : ∀ c ∈ margin, isMargin c = true) :
    Layout.margin (head ++ '\n' :: margin) = margin := by
  have hmargin : ∀ c ∈ margin.reverse, decide (c ≠ '\n') = true := by
    intro c hc
    have hne : c ≠ '\n' := Terminal.ne_of_class (h c (List.mem_reverse.mp hc)) rfl
    exact decide_eq_true hne
  have hreverse : (head ++ '\n' :: margin).reverse = margin.reverse ++ '\n' :: head.reverse := by
    simp
  rw [Layout.margin, hreverse, List.takeWhile_append_of_pos hmargin]
  simp

theorem EndsLine.margin {w : List Char} (h : EndsLine w) :
    ∀ c ∈ Layout.margin w, isMargin c = true := by
  obtain ⟨head, margin, rfl, hmargin⟩ := h
  rwa [Layout.margin_append_line hmargin]

/-- Line ends that are read from a text with a line feed at its end. They end a line, or are still
in the margin in which they began. -/
theorem Terminal.endsLine_of_scanBreaks (state : Margin) {cs : List Char}
    (hlast : ∀ c ∈ cs.getLast?, c = '\n') (hcomment : state = .comment → cs ≠ []) :
    EndsLine (cs.take (scanBreaks state cs)) ∨
      state ≠ .comment ∧ ∀ c ∈ cs.take (scanBreaks state cs), isMargin c = true := by
  have hrest : ∀ {c : Char} {cs : List Char}, (∀ d ∈ (c :: cs).getLast?, d = '\n') →
      ∀ d ∈ cs.getLast?, d = '\n' := by
    intro c cs h d hd
    refine h d ?_
    obtain ⟨ds, rfl⟩ := List.getLast?_eq_some_iff.mp hd
    exact List.getLast?_eq_some_iff.mpr ⟨c :: ds, rfl⟩
  have hmore : ∀ {c : Char} {cs : List Char}, (∀ d ∈ (c :: cs).getLast?, d = '\n') → c ≠ '\n' →
      cs ≠ [] := by
    rintro c cs h hc rfl
    exact hc (h c rfl)
  have hline : ∀ {cs : List Char},
      (EndsLine (cs.take (scanBreaks .inside cs)) ∨
        Margin.inside ≠ .comment ∧ ∀ c ∈ cs.take (scanBreaks .inside cs), isMargin c = true) →
      EndsLine ('\n' :: cs.take (scanBreaks .inside cs)) := by
    rintro cs (h | ⟨-, h⟩)
    · exact h.cons '\n'
    · exact endsLine_line h
  have hinside : ∀ cs : List Char, Margin.inside = .comment → cs ≠ [] := by
    intro cs h
    cases h
  have hnone : ∀ c ∈ ([] : List Char), isMargin c = true := by
    intro c hc
    cases hc
  fun_induction scanBreaks state cs with
  | case1 state => exact .inr ⟨fun h => hcomment h rfl, hnone⟩
  | case2 state cs ih => exact .inl (hline (ih (hrest hlast) (hinside _)))
  | case3 c cs hc ih =>
    rcases ih (hrest hlast) fun _ => hmore hlast hc with h | ⟨h, -⟩
    · exact .inl (h.cons c)
    · exact absurd rfl h
  | case4 state cs hn hstate ih =>
    rcases ih (hrest hlast) fun _ => hmore hlast (by decide) with h | ⟨h, -⟩
    · exact .inl (h.cons '#')
    · exact absurd rfl h
  | case5 state c cs hn hstate hc hmargin ih =>
    obtain ⟨rfl, hmargin⟩ := hmargin
    rcases ih (hrest hlast) (hinside _) with h | ⟨-, h⟩
    · exact .inl (h.cons c)
    · exact .inr ⟨hstate, List.forall_mem_cons.mpr ⟨hmargin, h⟩⟩
  | case6 state hstate | case8 state hstate | case9 state c cs hn hstate =>
    exact .inr ⟨hstate, hnone⟩
  | case7 state hstate cs hn hc hmargin ih =>
    exact .inl ((hline (ih (hrest (hrest hlast)) (hinside _))).cons '\r')

/-- A lexeme is what its class finds at the front of what is left of the text. -/
theorem Cut.exists_suffix {p : Position} {cs : List Char} {l : Lexeme}
    (h : l ∈ (Cut.ofChars p cs).lexemes) :
    ∃ ds, ds <:+ cs ∧ l.text = ds.take (l.terminal.scan ds) ∧ 0 < l.terminal.scan ds := by
  fun_induction Cut.ofChars p cs with
  | case1 => cases h
  | case2 => cases h
  | case3 p c rest t n hfirst text ih =>
    rcases List.mem_cons.mp h with rfl | h
    · obtain ⟨hscan, hpos⟩ := Terminal.scan_of_first? hfirst
      exact ⟨c :: rest, List.suffix_refl _, by rw [hscan], by rw [hscan]; exact hpos⟩
    · obtain ⟨ds, hds, hl⟩ := ih h
      exact ⟨ds, hds.trans (List.drop_suffix n _), hl⟩

theorem Cut.endsLine {p : Position} {cs : List Char} (hend : Source.Ended cs) {l : Lexeme}
    (hl : l ∈ (Cut.ofChars p cs).lexemes) (hline : l.terminal = .newline) : EndsLine l.text := by
  obtain ⟨ds, hds, htext, hpos⟩ := Cut.exists_suffix hl
  rw [hline] at htext hpos
  have hne : ds ≠ [] := by
    rintro rfl
    exact absurd hpos (Nat.lt_irrefl _)
  have hlast : ∀ c ∈ ds.getLast?, c = '\n' := by
    intro c hc
    rw [(hend.of_suffix hds hne).line] at hc
    exact (Option.some.inj hc).symm
  rw [htext]
  rcases Terminal.endsLine_of_scanBreaks .outside hlast nofun with h | ⟨-, h⟩
  · exact h
  · have hmem : '\n' ∈ ds := List.mem_of_getLast? (hend.of_suffix hds hne).line
    exact absurd (h _ (Terminal.mem_take_scanBreaks hmem hpos)) (by decide)

namespace Layout

/-- A token that ends a line. -/
structure IsLine (t : Token) : Prop where
  kind : t.kind = .newline
  text : EndsLine t.text.toList

/-- A mark of indentation of the given kind. -/
structure IsMark (k : Kind) (t : Token) : Prop where
  kind : t.kind = k
  text : ∀ c ∈ t.text.toList, isMargin c = true

/-- What stands between `n` open levels and `m`. -/
inductive Blocks : Nat → List Token → Nat → Prop where
  | nil {n : Nat} : Blocks n [] n
  | token {n m : Nat} {t : Token} {ts : List Token}
      (hkind : t.kind ∉ [.newline, .indent, .dedent, .eof]) (rest : Blocks n ts m) :
      Blocks n (t :: ts) m
  | opens {n m : Nat} {line mark : Token} {ts : List Token} (hline : IsLine line)
      (hmark : IsMark .indent mark) (rest : Blocks (n + 1) ts m) : Blocks n (line :: mark :: ts) m
  | closes {n m : Nat} {line : Token} {marks ts : List Token} (hline : IsLine line)
      (hmarks : ∀ t ∈ marks, IsMark .dedent t) (rest : Blocks n ts m) :
      Blocks (n + marks.length) (line :: (marks ++ ts)) m

/-- What a margin can do: open one level, or close some, perhaps none. -/
theorem shift_cases {levels levels' : List Nat} {w : Nat} (h : (shift levels w).2 = .ok levels') :
    ((shift levels w).1 = [.indent] ∧ levels'.length = levels.length + 1) ∨
      ∃ k, (shift levels w).1 = List.replicate k .dedent ∧ levels.length = levels'.length + k := by
  by_cases hwider : top levels < w
  · simp only [shift, if_pos hwider] at h ⊢
    cases h
    exact .inl ⟨trivial, rfl⟩
  · simp only [shift, if_neg hwider] at h ⊢
    split at h
    · cases h
      refine .inr ⟨_, rfl, ?_⟩
      have hsplit := congrArg List.length
        (List.takeWhile_append_dropWhile (p := fun l => decide (w < l)) (l := levels))
      rw [List.length_append] at hsplit
      omega
    · cases h

/-- The tokens of one lexeme, in front of what comes after them. -/
theorem blocks_place {levels levels' : List Nat} {l : Lexeme} {ts : List Token} {m : Nat}
    (hline : l.terminal = .newline → EndsLine l.text) (hplace : (place levels l).2 = .ok levels')
    (h : Blocks levels'.length ts m) : Blocks levels.length ((place levels l).1 ++ ts) m := by
  cases hk : l.kind? with
  | none =>
    simp only [place, hk] at hplace ⊢
    cases hplace
    exact h
  | some k =>
    by_cases hnew : k = .newline
    · subst hnew
      have hends := hline (Lexeme.terminal_of_kind? hk)
      have hisLine : IsLine ⟨.newline, String.ofList l.text, l.position⟩ :=
        ⟨rfl, by simpa using hends⟩
      have hmargin : ∀ c ∈ (String.ofList (margin l.text)).toList, isMargin c = true := by
        simpa using hends.margin
      simp only [place, hk, if_true] at hplace ⊢
      rcases shift_cases hplace with ⟨hkinds, hlen⟩ | ⟨k, hkinds, hlen⟩
      · rw [hkinds]
        rw [hlen] at h
        exact .opens hisLine ⟨rfl, hmargin⟩ h
      · rw [hkinds, List.map_replicate, hlen]
        have hmarks : ∀ t ∈ List.replicate k
            (⟨.dedent, String.ofList (margin l.text), l.position⟩ : Token), IsMark .dedent t := by
          intro t ht
          rw [List.eq_of_mem_replicate ht]
          exact ⟨rfl, hmargin⟩
        have hcloses := Blocks.closes hisLine hmarks h
        rwa [List.length_replicate] at hcloses
    · simp only [place, hk, hnew, if_false] at hplace ⊢
      cases hplace
      refine .token ?_ h
      have hout := Lexeme.kind_not_mem hk
      simp_all

/-- Arranging lexemes gives blocks, unless a margin meets no level. -/
theorem blocks_arrange {levels levels' : List Nat} {ls : List Lexeme}
    (hline : ∀ l ∈ ls, l.terminal = .newline → EndsLine l.text)
    (h : (arrange levels ls).2 = .ok levels') :
    Blocks levels.length (arrange levels ls).1 levels'.length := by
  induction ls generalizing levels with
  | nil =>
    cases h
    exact .nil
  | cons l ls ih =>
    obtain ⟨hl, hls⟩ := List.forall_mem_cons.mp hline
    cases hplace : (place levels l).2 with
    | error e =>
      rw [arrange_cons_of_error hplace] at h
      cases h
    | ok levels'' =>
      rw [arrange_cons_of_ok hplace] at h ⊢
      exact blocks_place hl hplace (ih hls h)

/-- How many tokens of a kind there are. -/
def countKind (k : Kind) (ts : List Token) : Nat := ts.countP (·.kind = k)

/-- A mark of indentation stands behind a line end, or behind a mark of the same line end. -/
structure Joined (t u : Token) : Prop where
  indent : u.kind = .indent → t.kind = .newline
  dedent : u.kind = .dedent → t.kind = .newline ∨ t.kind = .dedent

section Blocks

variable {n m : Nat} {ts us : List Token} {t : Token}

/-- A token of a block is one of the text, a line end, or a mark. -/
theorem Blocks.cases_of_mem (h : Blocks n ts m) (ht : t ∈ ts) :
    t.kind ∉ [.newline, .indent, .dedent, .eof] ∨ IsLine t ∨ IsMark .indent t ∨
      IsMark .dedent t := by
  induction h with
  | nil => cases ht
  | token hkind _ ih =>
    rcases List.mem_cons.mp ht with rfl | ht
    · exact .inl hkind
    · exact ih ht
  | opens hline hmark _ ih =>
    rcases List.mem_cons.mp ht with rfl | ht
    · exact .inr (.inl hline)
    · rcases List.mem_cons.mp ht with rfl | ht
      · exact .inr (.inr (.inl hmark))
      · exact ih ht
  | closes hline hmarks _ ih =>
    rcases List.mem_cons.mp ht with rfl | ht
    · exact .inr (.inl hline)
    · rcases List.mem_append.mp ht with ht | ht
      · exact .inr (.inr (.inr (hmarks t ht)))
      · exact ih ht

theorem Blocks.head (h : Blocks n ts m) : ∀ t ∈ ts.head?, t.kind ∉ [.indent, .dedent] := by
  intro t ht
  cases h with
  | nil => cases ht
  | token hkind _ =>
    cases ht
    simp_all
  | opens hline _ _ | closes hline _ _ =>
    cases ht
    simp [hline.kind]

/-- Whatever stands before a token that is no mark. -/
theorem Joined.of_not_mark (h : t.kind ∉ [.indent, .dedent]) (u : Token) : Joined u t where
  indent hk := by simp [hk] at h
  dedent hk := by simp [hk] at h

theorem isChain_marks (h : ∀ t ∈ ts, IsMark .dedent t) : ts.IsChain Joined := by
  induction ts with
  | nil => exact .nil
  | cons t ts ih =>
    obtain ⟨ht, hts⟩ := List.forall_mem_cons.mp h
    cases ts with
    | nil => exact .singleton t
    | cons u ts =>
      have hu := (hts u List.mem_cons_self).kind
      refine .cons_cons ⟨?_, fun _ => .inr ht.kind⟩ (ih hts)
      rw [hu]
      exact nofun

/-- Marks stand where they belong. -/
theorem Blocks.isChain (h : Blocks n ts m) : ts.IsChain Joined := by
  induction h with
  | nil => exact .nil
  | token hkind rest ih => exact ih.cons fun u hu => .of_not_mark (rest.head u hu) _
  | opens hline hmark rest ih =>
    refine .cons_cons ⟨fun _ => hline.kind, ?_⟩
      (ih.cons fun u hu => .of_not_mark (rest.head u hu) _)
    rw [hmark.kind]
    exact nofun
  | @closes n m line marks ts hline hmarks rest ih =>
    have hmore : (marks ++ ts).IsChain Joined := by
      refine List.isChain_append.mpr ⟨isChain_marks hmarks, ih, ?_⟩
      exact fun t _ u hu => .of_not_mark (rest.head u hu) t
    refine hmore.cons fun u hu => ?_
    cases marks with
    | nil => exact .of_not_mark (rest.head u hu) line
    | cons mark marks =>
      cases hu
      refine ⟨?_, fun _ => .inl hline.kind⟩
      rw [(hmarks u List.mem_cons_self).kind]
      exact nofun

theorem countKind_cons (k : Kind) (t : Token) (ts : List Token) :
    countKind k (t :: ts) = countKind k ts + if t.kind = k then 1 else 0 := by
  simp [countKind, List.countP_cons]

theorem countKind_append (k : Kind) (ts us : List Token) :
    countKind k (ts ++ us) = countKind k ts + countKind k us :=
  List.countP_append

theorem countKind_marks (h : ∀ t ∈ ts, IsMark .dedent t) :
    countKind .dedent ts = ts.length ∧ countKind .indent ts = 0 := by
  constructor
  · exact List.countP_eq_length.mpr fun t ht => decide_eq_true (h t ht).kind
  · refine List.countP_eq_zero.mpr fun t ht => ?_
    simp [(h t ht).kind]

/-- Every level that is opened is closed or still open. -/
theorem Blocks.count (h : Blocks n ts m) :
    n + countKind .indent ts = m + countKind .dedent ts := by
  induction h with
  | nil => rfl
  | token hkind _ ih =>
    simp only [List.mem_cons, not_or] at hkind
    simp only [countKind_cons, hkind, if_false]
    exact ih
  | opens hline hmark _ ih =>
    simp only [countKind_cons, hline.kind, hmark.kind]
    simp
    omega
  | closes hline hmarks _ ih =>
    obtain ⟨hdedent, hindent⟩ := countKind_marks hmarks
    simp only [countKind_cons, countKind_append, hline.kind, hdedent, hindent]
    simp
    omega

/-- No level is closed that is not open. -/
theorem Blocks.count_of_prefix (h : Blocks n ts m) (hus : us <+: ts) :
    countKind .dedent us ≤ n + countKind .indent us := by
  induction h generalizing us with
  | nil =>
    rw [List.prefix_nil.mp hus]
    exact Nat.zero_le _
  | token hkind _ ih =>
    simp only [List.mem_cons, not_or] at hkind
    rcases List.prefix_cons_iff.mp hus with rfl | ⟨us', rfl, hus'⟩
    · exact Nat.zero_le _
    · simp only [countKind_cons, hkind, if_false]
      exact ih hus'
  | opens hline hmark _ ih =>
    rcases List.prefix_cons_iff.mp hus with rfl | ⟨us', rfl, hus'⟩
    · exact Nat.zero_le _
    · rcases List.prefix_cons_iff.mp hus' with rfl | ⟨us'', rfl, hus''⟩
      · simp [countKind, hline.kind]
      · have := ih hus''
        simp only [countKind_cons, hline.kind, hmark.kind]
        simp
        omega
  | @closes n m line marks ts hline hmarks _ ih =>
    rcases List.prefix_cons_iff.mp hus with rfl | ⟨us', rfl, vs, hus'⟩
    · exact Nat.zero_le _
    · simp only [countKind_cons, hline.kind]
      -- The prefix stops among the marks, or it holds them all.
      rcases List.append_eq_append_iff.mp hus' with ⟨ws, rfl, -⟩ | ⟨ws, rfl, hts⟩
      · have hsome := (countKind_marks fun t ht => hmarks t (List.mem_append_left _ ht)).1
        simp [hsome, List.length_append]
        omega
      · obtain ⟨hdedent, hindent⟩ := countKind_marks hmarks
        have := ih ⟨vs, hts.symm⟩
        simp only [countKind_append, hdedent, hindent]
        simp
        omega

end Blocks

end Layout

open Layout

/-- How the tokens of a program lie. -/
structure LaidOut (ts : List Token) : Prop where
  /-- The last line is ended, then the open blocks are closed, and the end is the last token. -/
  ended : ∃ us line marks eof, ts = us ++ line :: marks ++ [eof] ∧ line.kind = .newline ∧
    (∀ t ∈ marks, t.kind = .dedent) ∧ eof.kind = .eof ∧ ∀ t ∈ us ++ line :: marks, t.kind ≠ .eof
  line : ∀ t ∈ ts, t.kind = .newline → EndsLine t.text.toList
  margin : ∀ t ∈ ts, t.kind = .indent ∨ t.kind = .dedent → ∀ c ∈ t.text.toList, isMargin c = true
  head : ∀ t ∈ ts.head?, t.kind ∉ [.indent, .dedent]
  joined : ts.IsChain Joined
  opened : ∀ us, us <+: ts → countKind .dedent us ≤ countKind .indent us
  closed : countKind .indent ts = countKind .dedent ts

/-- Blocks from no open level to none, the last line ended, with the end behind them. -/
theorem Layout.Blocks.laidOut {ts us marks : List Token} {line eof : Token} (h : Blocks 0 ts 0)
    (hts : ts = us ++ line :: marks) (hline : line.kind = .newline)
    (hmarks : ∀ t ∈ marks, t.kind = .dedent) (heof : eof.kind = .eof) : LaidOut (ts ++ [eof]) := by
  have hmem : ∀ {t}, t ∈ ts ++ [eof] → t.kind ≠ .eof → t ∈ ts := by
    intro t ht hne
    rcases List.mem_append.mp ht with ht | ht
    · exact ht
    · rw [List.mem_singleton.mp ht] at hne
      exact absurd heof hne
  have hnone : eof.kind ∉ [.indent, .dedent] := by simp [heof]
  have hcount : ∀ k, k ∈ [Kind.indent, .dedent] → countKind k (ts ++ [eof]) = countKind k ts := by
    intro k hk
    have hne : eof.kind ≠ k := fun h => hnone (h ▸ hk)
    simp [countKind, hne]
  have hne : ts ≠ [] := by simp [hts]
  constructor
  case ended =>
    refine ⟨us, line, marks, eof, by rw [hts], hline, hmarks, heof, fun t ht => ?_⟩
    rw [← hts] at ht
    rcases h.cases_of_mem ht with hkind | hkind | hkind | hkind
    · simp_all
    all_goals simp [hkind.kind]
  case line =>
    intro t ht hkind
    rcases h.cases_of_mem (hmem ht (by simp [hkind])) with hout | hline | hmark | hmark
    · simp [hkind] at hout
    · exact hline.text
    all_goals exact absurd (hkind.symm.trans hmark.kind) (by decide)
  case margin =>
    intro t ht hkind
    rcases h.cases_of_mem (hmem ht (by rcases hkind with hk | hk <;> simp [hk]))
      with hout | hline | hmark | hmark
    · rcases hkind with hk | hk <;> simp [hk] at hout
    · rcases hkind with hk | hk <;> exact absurd (hk.symm.trans hline.kind) (by decide)
    all_goals exact hmark.text
  case head =>
    rw [List.head?_append_of_ne_nil _ hne]
    exact h.head
  case joined =>
    refine List.isChain_append.mpr ⟨h.isChain, .singleton _, fun t _ u hu => ?_⟩
    cases hu
    exact .of_not_mark hnone t
  case opened =>
    intro vs hvs
    rcases List.prefix_concat_iff.mp hvs with rfl | hvs
    · rw [hcount _ (by simp), hcount _ (by simp)]
      simpa using h.count_of_prefix (List.prefix_refl ts)
    · simpa using h.count_of_prefix hvs
  case closed =>
    rw [hcount _ (by simp), hcount _ (by simp)]
    simpa using h.count

/-- The tokens of a text are laid out, and its end finds no block open. -/
theorem tokenize_laidOut {source : String} {ts : List Token} (h : tokenize source = .ok ts) :
    LaidOut ts ∧
      (Layout.arrange [] (Cut.ofChars .start (Source.padded source.toList)).lexemes).2 =
        .ok [] := by
  obtain ⟨hstop, hok, rfl⟩ := tokenize_eq_ok_iff.mp h
  have hended := Source.ended_padded source.toList
  have hblocks := Layout.blocks_arrange (fun l hl hline => Cut.endsLine hended hl hline) hok
  obtain ⟨-, us, line, n, hts, hline⟩ :=
    Layout.arrange_last_line (Cut.cover_of_stop hstop) hended hok
  refine ⟨hblocks.laidOut hts hline ?_ rfl, hok⟩
  intro t ht
  rw [List.eq_of_mem_replicate ht]

/-- A block with a comment in it, and a continuation where the text stops. -/
def danglingBlock : String := "if a:\n  b # c\n  d\\"

def danglingTokens : List Token :=
  [⟨.keyword .ifWord, "if", ⟨1, 1⟩⟩, ⟨.name, "a", ⟨1, 4⟩⟩, ⟨.symbol .colon, ":", ⟨1, 5⟩⟩,
    ⟨.newline, "\n  ", ⟨1, 6⟩⟩, ⟨.indent, "  ", ⟨1, 6⟩⟩, ⟨.name, "b", ⟨2, 3⟩⟩,
    ⟨.newline, "# c\n  ", ⟨2, 5⟩⟩, ⟨.name, "d", ⟨3, 3⟩⟩, ⟨.newline, "\n", ⟨4, 1⟩⟩,
    ⟨.dedent, "", ⟨4, 1⟩⟩, ⟨.eof, "", ⟨4, 1⟩⟩]

theorem tokenize_danglingBlock :
    tokenize danglingBlock = .ok danglingTokens ∧ LaidOut danglingTokens := by
  have htokens : tokenize danglingBlock = .ok danglingTokens := by decide +kernel
  exact ⟨htokens, (tokenize_laidOut htokens).1⟩

end TinyScript
