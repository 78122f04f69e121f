import Mathlib.Data.List.Forall2
import TinyScript.Proofs.Lexing.Cover

/-!
# Texts with related tokens

Two texts are cut side by side. If their lexemes give related tokens, one by one, and leave the same
margins, then so do the texts as wholes: either both have tokens, which are related, or both are
refused after related tokens (`tokenize_related`). What the language ignores may be left out before
the lexemes are compared (`Layout.arrange_filter`).
-/

namespace TinyScript

/-- Lexemes that give related tokens, and leave the same margin if they are line ends. -/
structure Lexeme.Related (R : Token → Token → Prop) (l m : Lexeme) : Prop where
  kind : m.kind? = l.kind?
  token : ∀ k, l.kind? = some k →
    R ⟨k, String.ofList l.text, l.position⟩ ⟨k, String.ofList m.text, m.position⟩
  margin : l.kind? = some .newline → Layout.margin m.text = Layout.margin l.text
  mark : l.kind? = some .newline → ∀ k ∈ [Kind.indent, .dedent],
    R ⟨k, String.ofList (Layout.margin l.text), l.position⟩
      ⟨k, String.ofList (Layout.margin l.text), m.position⟩

section Related

variable {R : Token → Token → Prop}

theorem Lexeme.Related.refl (hR : ∀ t, R t t) (l : Lexeme) : l.Related R l :=
  ⟨rfl, fun _ _ => hR _, fun _ => rfl, fun _ _ _ => hR _⟩

theorem Lexeme.Related.trans (hR : ∀ {t u v}, R t u → R u v → R t v) {l m n : Lexeme}
    (h : l.Related R m) (h' : m.Related R n) : l.Related R n where
  kind := h'.kind.trans h.kind
  token k hk := hR (h.token k hk) (h'.token k (h.kind.trans hk))
  margin hk := (h'.margin (h.kind.trans hk)).trans (h.margin hk)
  mark hk k hmem := by
    have hmark := h'.mark (h.kind.trans hk) k hmem
    rw [h.margin hk] at hmark
    exact hR (h.mark hk k hmem) hmark

end Related

namespace Layout

variable {R : Token → Token → Prop}

theorem place_related (levels : List Nat) {l m : Lexeme} (h : l.Related R m) :
    List.Forall₂ R (place levels l).1 (place levels m).1 ∧
      (place levels m).2 = (place levels l).2 := by
  cases hk : l.kind? with
  | none =>
    have hk' := h.kind.trans hk
    simp [place, hk, hk']
  | some k =>
    have hk' := h.kind.trans hk
    by_cases hline : k = .newline
    · subst hline
      simp only [place, hk, hk', if_true, h.margin hk]
      refine ⟨.cons (h.token _ hk) ?_, trivial⟩
      rw [List.forall₂_map_left_iff, List.forall₂_map_right_iff, List.forall₂_same]
      exact fun k' hmem => h.mark hk k' (by simpa using kind_of_mem_shift hmem)
    · simp only [place, hk, hk', hline, if_false]
      exact ⟨.cons (h.token k hk) .nil, trivial⟩

/-- Related lexemes give related tokens, and end with the same levels or the same mismatch. -/
theorem arrange_related (levels : List Nat) {ls ms : List Lexeme}
    (h : List.Forall₂ (Lexeme.Related R) ls ms) :
    List.Forall₂ R (arrange levels ls).1 (arrange levels ms).1 ∧
      (arrange levels ms).2 = (arrange levels ls).2 := by
  induction h generalizing levels with
  | nil => exact ⟨.nil, rfl⟩
  | @cons l m ls ms hl hls ih =>
    obtain ⟨hplace, hout⟩ := place_related levels hl
    cases hcase : (place levels l).2 with
    | error e =>
      rw [arrange_cons_of_error hcase, arrange_cons_of_error (hout.trans hcase)]
      exact ⟨hplace, rfl⟩
    | ok levels' =>
      rw [arrange_cons_of_ok hcase, arrange_cons_of_ok (hout.trans hcase)]
      obtain ⟨hmore, hfinal⟩ := ih levels'
      exact ⟨List.rel_append hplace hmore, hfinal⟩

/-- What is ignored may be left out. -/
theorem arrange_filter (levels : List Nat) (ls : List Lexeme) :
    arrange levels (ls.filter (·.kind?.isSome)) = arrange levels ls := by
  induction ls generalizing levels with
  | nil => rfl
  | cons l ls ih =>
    cases hk : l.kind? with
    | none => simp [arrange, place, hk, ih]
    | some k => simp [arrange, hk, ih]

end Layout

/-- Related lists have related last tokens. -/
theorem getLast?_related {R : Token → Token → Prop} {ts us : List Token}
    (h : List.Forall₂ R ts us) : Option.Rel R ts.getLast? us.getLast? := by
  rw [← List.head?_reverse, ← List.head?_reverse]
  have hback := List.forall₂_reverse_iff.mpr h
  generalize ts.reverse = ts' at hback ⊢
  generalize us.reverse = us' at hback ⊢
  cases hback with
  | nil => exact .none
  | cons ht _ => exact .some ht

namespace Source

/-- The lexemes of a text, its padding included. -/
def cut (source : String) : Cut := Cut.ofChars .start (padded source.toList)

/-- The tokens of these lexemes, and the levels open at their end or the margin that met none. -/
def arranged (source : String) : List Token × Except Layout.Mismatch (List Nat) :=
  Layout.arrange [] (cut source).lexemes

end Source

section Outcome

variable {source : String} {e : Layout.Mismatch} {levels : List Nat}

/-- A text is refused at a margin that meets no level, whatever comes after it. -/
theorem tokenize_of_mismatch (h : (Source.arranged source).2 = .error e) :
    tokenize source = .error ⟨.mismatch e, (Source.arranged source).1⟩ := by
  simp only [tokenize, Source.arranged, Source.cut] at h ⊢
  rw [h]

theorem tokenize_of_stop {c : Char} {p : Position} (h : (Source.arranged source).2 = .ok levels)
    (hstop : (Source.cut source).stop = some (c, p)) :
    tokenize source = .error ⟨.unexpected c p, (Source.arranged source).1⟩ := by
  simp only [tokenize, Source.arranged, Source.cut] at h hstop ⊢
  rw [h, hstop]

theorem tokenize_of_end (h : (Source.arranged source).2 = .ok levels)
    (hstop : (Source.cut source).stop = none) :
    tokenize source = .ok ((Source.arranged source).1 ++
      [Token.eofAt (Token.lastPosition (Source.arranged source).1)]) := by
  obtain ⟨rfl, -⟩ := Layout.arrange_ended (Cut.cover_of_stop hstop) (Source.ended_padded _) h
  exact tokenize_eq_ok_iff.mpr ⟨hstop, h, rfl⟩

end Outcome

/-- Both have tokens, which are related one by one, or both are refused for related causes after
related tokens. -/
inductive SameTokens (R : Token → Token → Prop) (E : LexicalCause → LexicalCause → Prop) :
    Except LexicalError (List Token) → Except LexicalError (List Token) → Prop where
  | ok {ts us : List Token} (h : List.Forall₂ R ts us) : SameTokens R E (.ok ts) (.ok us)
  | error {c c' : LexicalCause} {ts us : List Token} (hcause : E c c')
      (hhistory : List.Forall₂ R ts us) : SameTokens R E (.error ⟨c, ts⟩) (.error ⟨c', us⟩)

theorem SameTokens.imp {R S : Token → Token → Prop} {E F : LexicalCause → LexicalCause → Prop}
    {r r' : Except LexicalError (List Token)} (h : SameTokens R E r r') (hR : ∀ t u, R t u → S t u)
    (hE : ∀ c c', E c c' → F c c') : SameTokens S F r r' := by
  cases h with
  | ok h => exact .ok (h.imp hR)
  | error hcause hhistory => exact .error (hE _ _ hcause) (hhistory.imp hR)

/-- Texts whose lexemes are arranged alike have related tokens. -/
theorem tokenize_related {R : Token → Token → Prop} {E : LexicalCause → LexicalCause → Prop}
    {a b : String}
    (heof : ∀ ts us, List.Forall₂ R ts us →
      R (.eofAt (Token.lastPosition ts)) (.eofAt (Token.lastPosition us)))
    (hmismatch : ∀ e, E (.mismatch e) (.mismatch e))
    (htokens : List.Forall₂ R (Source.arranged a).1 (Source.arranged b).1)
    (hlevels : (Source.arranged b).2 = (Source.arranged a).2)
    (hstop : Option.Rel (fun x y => E (.unexpected x.1 x.2) (.unexpected y.1 y.2))
      (Source.cut a).stop (Source.cut b).stop) :
    SameTokens R E (tokenize a) (tokenize b) := by
  cases hout : (Source.arranged a).2 with
  | error e =>
    rw [tokenize_of_mismatch hout, tokenize_of_mismatch (hlevels.trans hout)]
    exact .error (hmismatch e) htokens
  | ok levels =>
    generalize hx : (Source.cut a).stop = x at hstop
    generalize hy : (Source.cut b).stop = y at hstop
    cases hstop with
    | some hcause =>
      rw [tokenize_of_stop hout hx, tokenize_of_stop (hlevels.trans hout) hy]
      exact .error hcause htokens
    | none =>
      rw [tokenize_of_end hout hx, tokenize_of_end (hlevels.trans hout) hy]
      exact .ok (List.rel_append htokens (.cons (heof _ _ htokens) .nil))

end TinyScript
