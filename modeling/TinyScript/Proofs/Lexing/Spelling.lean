import TinyScript.Proofs.Lexing.Tokens
import TinyScript.Proofs.Text.Quoted

/-!
# Texts that spell tokens

`Spells cs rest Q` says that `cs`, when `rest` comes after it, is cut off as whole lexemes whose
tokens are as `Q` describes. What comes after matters, because lexemes are as long as they can be: a
word must not be followed by a word character. Texts are put together by `Spells.append`, so the
text of an expression is followed piece by piece.
-/

namespace TinyScript

open Text (isDigit isWord forall_mem_of_all)
open Terminal (run scanFloat scanString scanBreaks scanContinuation scanName isBlank first?)

namespace Terminal

/-- The length of a run that is ended by what comes after it. -/
theorem run_append {p : Char → Bool} {cs rest : List Char} (h : ∀ c ∈ cs, p c = true)
    (hrest : ∀ c ∈ rest.head?, p c = false) : run p (cs ++ rest) = cs.length := by
  have hnil : rest.takeWhile p = [] := by
    cases rest with
    | nil => rfl
    | cons c rest => rw [List.takeWhile_cons, hrest c rfl]; rfl
  rw [run, List.takeWhile_append_of_pos h, hnil, List.append_nil]

theorem run_eq_zero {p : Char → Bool} {c : Char} (h : p c = false) (cs : List Char) :
    run p (c :: cs) = 0 := by
  rw [run, List.takeWhile_cons, h]
  rfl

theorem scanFloat_eq_zero {cs : List Char}
    (h : (cs.drop (run isDigit cs)).head? ≠ some '.') : scanFloat cs = 0 := by
  simp only [scanFloat]
  split
  · next rest hdrop =>
    rw [hdrop] at h
    exact absurd rfl h
  · rfl

theorem scanFloat_cons {c : Char} (hdigit : isDigit c = false) (hpoint : c ≠ '.')
    (cs : List Char) : scanFloat (c :: cs) = 0 := by
  apply scanFloat_eq_zero
  rw [run_eq_zero hdigit, List.drop_zero, List.head?_cons]
  exact fun h => hpoint (Option.some.inj h)

theorem scanString_cons {c : Char} (h : ¬(c = '"' ∨ c = '\'')) (cs : List Char) :
    scanString (c :: cs) = 0 := if_neg h

theorem scanBreaks_cons {c : Char} (hn : c ≠ '\n') (hc : c ≠ '#') (hr : c ≠ '\r')
    (cs : List Char) : scanBreaks .outside (c :: cs) = 0 := by
  cases cs with
  | nil => simp [scanBreaks, hn, hc, hr]
  | cons d cs => simp [scanBreaks, hn, hc, hr]

theorem scanContinuation_cons {c : Char} (h : c ≠ '\\') (cs : List Char) :
    scanContinuation (c :: cs) = 0 := by
  unfold scanContinuation
  split
  · next heq => exact absurd (List.cons.inj heq).1 h
  · rfl

/-- A class is taken if it finds something and no class before it does. -/
theorem first?_of_order (before : List Terminal) {after : List Terminal} {t : Terminal}
    {cs : List Char} {n : Nat} (horder : order = before ++ t :: after)
    (hbefore : ∀ u ∈ before, u.scan cs = 0) (ht : t.scan cs = n) (hn : 0 < n) :
    first? cs = some (t, n) := by
  have hnone : before.findSome? (fun u => if u.scan cs = 0 then none else some (u, u.scan cs)) =
      none := by
    rw [List.findSome?_eq_none_iff]
    intro u hu
    rw [if_pos (hbefore u hu)]
  rw [first?, horder, List.findSome?_append, hnone, Option.none_or, List.findSome?_cons, ht,
    if_neg (Nat.ne_of_gt hn)]

/-- Characters that begin neither a string nor anything that has to do with line ends. -/
def isInner (c : Char) : Bool :=
  !(c = '"' || c = '\'' || c = '\n' || c = '#' || c = '\r' || c = '\\')

theorem scan_of_isInner {c : Char} (h : isInner c = true) (cs : List Char) :
    ∀ t ∈ [string, newline, continuation], t.scan (c :: cs) = 0 := by
  simp only [isInner, Bool.not_eq_true', Bool.or_eq_false_iff, decide_eq_false_iff_not] at h
  obtain ⟨⟨⟨⟨⟨hquote, happ⟩, hn⟩, hhash⟩, hr⟩, hback⟩ := h
  intro t ht
  simp only [List.mem_cons, List.not_mem_nil, or_false] at ht
  rcases ht with rfl | rfl | rfl
  · exact scanString_cons (not_or.mpr ⟨hquote, happ⟩) cs
  · exact scanBreaks_cons hn hhash hr cs
  · exact scanContinuation_cons hback cs

theorem ne_of_class {p : Char → Bool} {c d : Char} (h : p c = true) (hd : p d = false) : c ≠ d := by
  rintro rfl
  rw [h] at hd
  cases hd

/-- A class of characters that has none of the special ones. -/
theorem isInner_of_class {p : Char → Bool} {c : Char} (h : p c = true)
    (hp : ∀ d ∈ ['"', '\'', '\n', '#', '\r', '\\'], p d = false) : isInner c = true := by
  have hne : ∀ d ∈ ['"', '\'', '\n', '#', '\r', '\\'], c ≠ d := fun d hd => ne_of_class h (hp d hd)
  simp only [List.mem_cons, List.not_mem_nil, or_false, forall_eq_or_imp, forall_eq] at hne
  obtain ⟨h₁, h₂, h₃, h₄, h₅, h₆⟩ := hne
  simp [isInner, h₁, h₂, h₃, h₄, h₅, h₆]

/-- A word is found as a whole, if no word character follows it. -/
theorem first?_name {c : Char} {cs rest : List Char} (hc : isDigit c = false)
    (hword : ∀ d ∈ c :: cs, isWord d = true) (hrest : ∀ d ∈ rest.head?, isWord d = false) :
    first? (c :: cs ++ rest) = some (.name, (c :: cs).length) := by
  have hcw := hword c List.mem_cons_self
  have hscan : scanName (c :: cs ++ rest) = (c :: cs).length := by
    have hcs := run_append (fun d hd => hword d (List.mem_cons_of_mem _ hd)) hrest
    simp [scanName, hcw, hc, hcs]
  refine first?_of_order [float, string, newline, continuation] rfl ?_ hscan (Nat.succ_pos _)
  intro u hu
  rcases List.mem_cons.mp hu with rfl | hu
  · exact scanFloat_cons hc (ne_of_class hcw (by decide)) _
  · exact scan_of_isInner (isInner_of_class hcw (forall_mem_of_all (by decide))) _ u hu

/-- Digits are found as a whole, if neither a digit nor a point follows them. -/
theorem first?_number {c : Char} {cs rest : List Char} (h : ∀ d ∈ c :: cs, isDigit d = true)
    (hrest : ∀ d ∈ rest.head?, isDigit d = false ∧ d ≠ '.') :
    first? (c :: cs ++ rest) = some (.number, (c :: cs).length) := by
  have hc := h c List.mem_cons_self
  have hscan : run isDigit (c :: cs ++ rest) = (c :: cs).length :=
    run_append h fun d hd => (hrest d hd).1
  refine first?_of_order [float, string, newline, continuation, name, blank] rfl ?_ hscan
    (Nat.succ_pos _)
  intro u hu
  simp only [List.mem_cons, List.not_mem_nil, or_false] at hu
  rcases hu with rfl | hu
  · refine scanFloat_eq_zero ?_
    rw [hscan, List.drop_left]
    exact fun hpoint => (hrest '.' hpoint).2 rfl
  · have hclass := isInner_of_class hc (forall_mem_of_all (by decide))
    have hinner := scan_of_isInner hclass (cs ++ rest)
    rcases hu with rfl | rfl | rfl | rfl | rfl
    · exact hinner _ (by simp)
    · exact hinner _ (by simp)
    · exact hinner _ (by simp)
    · have hname : ¬(isWord c && !isDigit c) = true := by simp [hc]
      exact if_neg hname
    · refine run_eq_zero ?_ (cs ++ rest)
      simp [isBlank, ne_of_class hc (by decide : isDigit '\t' = false),
        ne_of_class hc (by decide : isDigit ' ' = false),
        ne_of_class hc (by decide : isDigit '\x0c' = false)]

/-- The text of a float literal: digits around a point. -/
theorem exists_digits_of_scanFloat {cs : List Char} (h : scanFloat cs = cs.length) (hne : cs ≠ []) :
    ∃ whole fraction, cs = whole ++ '.' :: fraction ∧ (∀ d ∈ whole, isDigit d = true) ∧
      (∀ d ∈ fraction, isDigit d = true) ∧ ¬(whole.length = 0 ∧ fraction.length = 0) := by
  have hpos : 0 < cs.length := List.length_pos_iff.mpr hne
  have hcut : cs.takeWhile isDigit ++ cs.drop (run isDigit cs) = cs := by
    rw [← take_run, List.take_append_drop]
  simp only [scanFloat] at h
  split at h
  · next fraction hdrop =>
    rw [hdrop] at hcut
    have hlen := congrArg List.length hcut
    simp only [List.length_append, List.length_cons] at hlen
    split at h
    · omega
    · next hsome =>
      have hrun : (fraction.takeWhile isDigit).length = fraction.length := by
        simp only [run] at h
        omega
      have hall : fraction.takeWhile isDigit = fraction :=
        (List.takeWhile_prefix isDigit).eq_of_length hrun
      refine ⟨_, fraction, hcut.symm, fun d hd => of_mem_takeWhile hd, ?_, ?_⟩
      · intro d hd
        rw [← hall] at hd
        exact of_mem_takeWhile hd
      · rwa [← hrun]
  · omega

/-- Digits around a point are found as a whole, if no digit follows them. -/
theorem first?_pointed {whole fraction rest : List Char} (hwhole : ∀ d ∈ whole, isDigit d = true)
    (hfraction : ∀ d ∈ fraction, isDigit d = true)
    (hsome : ¬(whole.length = 0 ∧ fraction.length = 0))
    (hrest : ∀ d ∈ rest.head?, isDigit d = false) :
    first? (whole ++ '.' :: fraction ++ rest) =
      some (.float, (whole ++ '.' :: fraction).length) := by
  have hpoint : isDigit '.' = false := by decide
  have hrun : run isDigit (whole ++ '.' :: (fraction ++ rest)) = whole.length :=
    run_append hwhole fun d hd => by rwa [← Option.some.inj hd]
  have hscan : scanFloat (whole ++ '.' :: fraction ++ rest) =
      (whole ++ '.' :: fraction).length := by
    rw [List.append_assoc, List.cons_append]
    simp only [scanFloat, hrun, List.drop_left, run_append hfraction hrest, if_neg hsome]
    simp only [List.length_append, List.length_cons]
    omega
  exact first?_of_order [] rfl nofun hscan (List.length_pos_iff.mpr (by simp))

/-- A float literal is found as a whole, if no digit follows it. -/
theorem first?_float {cs rest : List Char} (h : scanFloat cs = cs.length) (hne : cs ≠ [])
    (hrest : ∀ d ∈ rest.head?, isDigit d = false) :
    first? (cs ++ rest) = some (.float, cs.length) := by
  obtain ⟨whole, fraction, rfl, hwhole, hfraction, hsome⟩ := exists_digits_of_scanFloat h hne
  exact first?_pointed hwhole hfraction hsome hrest

/-- A quoted text is found as a whole. -/
theorem first?_encode (cs rest : List Char) :
    first? (Text.Quoted.encode cs ++ rest) = some (.string, (Text.Quoted.encode cs).length) := by
  refine first?_of_order [float] rfl ?_ (Text.Quoted.scanString_encode cs rest) (Nat.succ_pos _)
  have hmark : ∀ c, Text.Quoted.IsMark c → ∀ ds, scanFloat (c :: ds) = 0 := by
    rintro c (rfl | rfl) ds
    · exact scanFloat_cons (by decide) (by decide) ds
    · exact scanFloat_cons (by decide) (by decide) ds
  intro u hu
  rw [List.mem_singleton.mp hu]
  exact hmark _ (Text.Quoted.isMark_mark cs) _

/-- Symbols that are found whatever follows, and the others before a blank. -/
theorem first?_symbol {s : Symbol} {rest : List Char}
    (h : s ∈ [.lpar, .rpar, .comma, .minus] ∨ rest.head? = some ' ') :
    first? (s.chars ++ rest) = some (.symbol s, s.chars.length) := by
  rcases h with h | h
  · simp only [List.mem_cons, List.not_mem_nil, or_false] at h
    rcases h with rfl | rfl | rfl | rfl <;> cases rest <;> rfl
  · obtain ⟨rest', rfl⟩ := List.head?_eq_some_iff.mp h
    cases s <;> cases rest' <;> rfl

/-- Blanks are found as a whole, if no blank follows them. -/
theorem first?_blanks {c : Char} {cs rest : List Char} (h : ∀ d ∈ c :: cs, isBlank d = true)
    (hrest : ∀ d ∈ rest.head?, isBlank d = false) :
    first? (c :: cs ++ rest) = some (.blank, (c :: cs).length) := by
  have hc : (c = '\t' ∨ c = ' ') ∨ c = '\x0c' := by
    simpa only [isBlank, Bool.or_eq_true, decide_eq_true_eq] using h c List.mem_cons_self
  refine first?_of_order [float, string, newline, continuation, name] rfl ?_ (run_append h hrest)
    (Nat.succ_pos _)
  intro u hu
  simp only [List.mem_cons, List.not_mem_nil, or_false] at hu
  rw [List.cons_append]
  generalize cs ++ rest = ds
  rcases hc with (rfl | rfl) | rfl
  all_goals rcases hu with rfl | rfl | rfl | rfl | rfl <;> cases ds <;> rfl

theorem first?_blank {rest : List Char} (h : ∀ d ∈ rest.head?, isBlank d = false) :
    first? (' ' :: rest) = some (.blank, 1) := by
  have hspace : ∀ d ∈ [' '], isBlank d = true := forall_mem_of_all (by decide)
  exact first?_blanks hspace h

end Terminal

namespace Cut

/-- A cut with more lexemes in front. -/
def prepend (ls : List Lexeme) (c : Cut) : Cut := { c with lexemes := ls ++ c.lexemes }

theorem prepend_append (ls ms : List Lexeme) (c : Cut) :
    c.prepend (ls ++ ms) = (c.prepend ms).prepend ls := by
  simp [prepend]

end Cut

/-- With `rest` after it, `cs` is cut off as whole lexemes, none of which is a line end, and `Q`
holds of their tokens. -/
def Spells (cs rest : List Char) (Q : List Token → Prop) : Prop :=
  ∀ p, ∃ ls p', Cut.ofChars p (cs ++ rest) = (Cut.ofChars p' rest).prepend ls ∧
    (∀ l ∈ ls, l.terminal ≠ .newline) ∧ Q (ls.filterMap Lexeme.token?)

section Spells

variable {cs ds rest : List Char} {Q R : List Token → Prop}

theorem Spells.imp (h : Spells cs rest Q) (hQ : ∀ us, Q us → R us) : Spells cs rest R := by
  intro p
  obtain ⟨ls, p', hcut, hline, hq⟩ := h p
  exact ⟨ls, p', hcut, hline, hQ _ hq⟩

/-- Texts are spelled one after the other, each before the next. -/
theorem Spells.append (h : Spells cs (ds ++ rest) Q)
    (hR : ∀ us, Q us → Spells ds rest fun vs => R (us ++ vs)) : Spells (cs ++ ds) rest R := by
  intro p
  obtain ⟨ls, p₁, hcut, hline, hq⟩ := h p
  obtain ⟨ms, p₂, hcut', hline', hr⟩ := hR _ hq p₁
  refine ⟨ls ++ ms, p₂, ?_, ?_, ?_⟩
  · rw [List.append_assoc, hcut, hcut', Cut.prepend_append]
  · intro l hl
    rcases List.mem_append.mp hl with hl | hl
    · exact hline l hl
    · exact hline' l hl
  · rwa [List.filterMap_append]

/-- A text that is one lexeme. -/
theorem spells_lexeme {t : Terminal} (h : first? (cs ++ rest) = some (t, cs.length))
    (ht : t ≠ .newline) (hQ : ∀ p, Q (Lexeme.token? ⟨t, cs, p⟩).toList) : Spells cs rest Q := by
  intro p
  refine ⟨[⟨t, cs, p⟩], p.after cs, ?_, ?_, ?_⟩
  · rw [Cut.ofChars_of_some h, List.take_left, List.drop_left]
    rfl
  · intro l hl
    rwa [List.mem_singleton.mp hl]
  · have hlexeme := hQ p
    cases htoken : Lexeme.token? ⟨t, cs, p⟩ with
    | none => simpa [htoken] using hlexeme
    | some u => simpa [htoken] using hlexeme

theorem spells_blank (h : ∀ d ∈ rest.head?, isBlank d = false) : Spells [' '] rest (· = []) :=
  spells_lexeme (Terminal.first?_blank h) nofun fun _ => rfl

theorem spells_symbol {s : Symbol}
    (h : s ∈ [.lpar, .rpar, .comma, .minus] ∨ rest.head? = some ' ') :
    Spells s.chars rest fun us => ∃ p, us = [⟨.symbol s, String.ofList s.chars, p⟩] :=
  spells_lexeme (Terminal.first?_symbol h) nofun fun p => ⟨p, rfl⟩

/-- A word is a keyword or a name. -/
theorem spells_word {s : String}
    (h : ∃ c cs, s.toList = c :: cs ∧ isDigit c = false ∧ ∀ d ∈ c :: cs, isWord d = true)
    (hrest : ∀ d ∈ rest.head?, isWord d = false) :
    Spells s.toList rest fun us => ∃ p,
      us = [⟨((Keyword.ofText? s).map Kind.keyword).getD .name, s, p⟩] := by
  obtain ⟨c, cs, hs, hdigit, hword⟩ := h
  have hfirst : first? (s.toList ++ rest) = some (.name, s.toList.length) := by
    rw [hs]
    exact Terminal.first?_name hdigit hword hrest
  refine spells_lexeme hfirst nofun fun p => ⟨p, ?_⟩
  simp only [Lexeme.token?, Lexeme.kind?, String.ofList_toList]
  cases Keyword.ofText? s with
  | none => rfl
  | some k => rfl

theorem spells_name {s : String} (h : IsName s) (hrest : ∀ d ∈ rest.head?, isWord d = false) :
    Spells s.toList rest fun us => ∃ p, us = [⟨.name, s, p⟩] := by
  have hword := spells_word h.word hrest
  rwa [h.free] at hword

theorem spells_keyword (k : Keyword) (hrest : ∀ d ∈ rest.head?, isWord d = false) :
    Spells k.text.toList rest fun us => ∃ p, us = [⟨.keyword k, k.text, p⟩] := by
  have hletters : ∃ c cs, k.text.toList = c :: cs ∧ isDigit c = false ∧
      ∀ d ∈ c :: cs, isWord d = true := by
    cases k <;> exact ⟨_, _, rfl, by decide, forall_mem_of_all (by decide)⟩
  have hword := spells_word hletters hrest
  rwa [Keyword.ofText?_text] at hword

theorem spells_number {s : String} (hne : s.toList ≠ []) (h : ∀ d ∈ s.toList, isDigit d = true)
    (hrest : ∀ d ∈ rest.head?, isDigit d = false ∧ d ≠ '.') :
    Spells s.toList rest fun us => ∃ p, us = [⟨.number, s, p⟩] := by
  obtain ⟨c, cs, hs⟩ := List.exists_cons_of_ne_nil hne
  have hfirst : first? (s.toList ++ rest) = some (.number, s.toList.length) := by
    rw [hs] at h ⊢
    exact Terminal.first?_number h hrest
  refine spells_lexeme hfirst nofun fun p => ⟨p, ?_⟩
  simp [Lexeme.token?, Lexeme.kind?]

theorem spells_float {s : String} (hne : s.toList ≠ []) (h : scanFloat s.toList = s.toList.length)
    (hrest : ∀ d ∈ rest.head?, isDigit d = false) :
    Spells s.toList rest fun us => ∃ p, us = [⟨.float, s, p⟩] := by
  refine spells_lexeme (Terminal.first?_float h hne hrest) nofun fun p => ⟨p, ?_⟩
  simp [Lexeme.token?, Lexeme.kind?]

theorem spells_string (s : String) (rest : List Char) :
    Spells (Text.quote s).toList rest fun us => ∃ p, us = [⟨.string, Text.quote s, p⟩] := by
  have hquote : (Text.quote s).toList = Text.Quoted.encode s.toList := by simp [Text.quote]
  rw [hquote]
  exact spells_lexeme (Terminal.first?_encode s.toList rest) nofun fun p => ⟨p, rfl⟩

end Spells

theorem Lexeme.terminal_of_kind? {l : Lexeme} (h : l.kind? = some .newline) :
    l.terminal = .newline := by
  unfold Lexeme.kind? at h
  split at h
  all_goals first | assumption | cases h | skip
  split at h <;> cases h

/-- Characters that neither end a line nor join it to the next, and are no blanks. -/
def isSolid (c : Char) : Bool := !(isBlank c || c = '\r' || c = '\n' || c = '\\')

theorem isSolid_of_class {p : Char → Bool} {c : Char} (h : p c = true)
    (hp : ∀ d ∈ ['\t', ' ', '\x0c', '\r', '\n', '\\'], p d = false) : isSolid c = true := by
  have hne : ∀ d ∈ ['\t', ' ', '\x0c', '\r', '\n', '\\'], c ≠ d :=
    fun d hd => Terminal.ne_of_class h (hp d hd)
  simp only [List.mem_cons, List.not_mem_nil, or_false, forall_eq_or_imp, forall_eq] at hne
  obtain ⟨h₁, h₂, h₃, h₄, h₅, h₆⟩ := hne
  simp [isSolid, isBlank, h₁, h₂, h₃, h₄, h₅, h₆]

end TinyScript
