import TinyScript.Proofs.Parsing.Concat
import TinyScript.Proofs.Parsing.Pairs

/-!
# Parsing alike tokens

Tokens that are alike are parsed alike: the program is the same, or both lists are rejected for the
same reason at alike tokens, or the same number cannot be read (`law_alongside`). What is said of
the tokens of two texts is so said of the programs that they spell (`parseProgram_of_alike`).
-/

namespace TinyScript

/-- Cursors at the same place of alike tokens. -/
structure Cursor.Alike (c c' : Cursor) : Prop where
  tokens : List.Forall₂ Token.Alike c.tokens.toList c'.tokens.toList
  pos : c'.pos = c.pos

theorem Token.alike_refl (t : Token) : t.Alike t := ⟨rfl, .inr rfl⟩

namespace Cursor

variable {c c' : Cursor}

theorem Alike.size (h : c.Alike c') : c'.tokens.size = c.tokens.size := h.tokens.length_eq.symm

theorem Alike.peek (h : c.Alike c') : c.peek.Alike c'.peek := by
  obtain ⟨hlen, hget⟩ := List.forall₂_iff_get.mp h.tokens
  have hlt : min c.pos (c.tokens.size - 1) < c.tokens.size := by have := c.nonempty; omega
  have halike := hget _ hlt (hlen ▸ hlt)
  simpa [Cursor.peek, h.pos, h.size] using halike

theorem Alike.next (h : c.Alike c') : c.next.Alike c'.next := ⟨h.tokens, congrArg (· + 1) h.pos⟩

theorem Alike.history (h : c.Alike c') : List.Forall₂ Token.Alike c.history c'.history := by
  rw [Cursor.history, Cursor.history, h.pos]
  exact List.forall₂_take _ h.tokens

theorem Alike.remaining (h : c.Alike c') : c'.remaining = c.remaining := by
  rw [Cursor.remaining, Cursor.remaining, h.size, h.pos]

theorem alike_terminated {ts us : List Token} (h : List.Forall₂ Token.Alike ts us) :
    List.Forall₂ Token.Alike (terminated ts) (terminated us) := by
  have hlast := getLast?_related h
  unfold terminated
  generalize ts.getLast? = last at hlast
  generalize us.getLast? = last' at hlast
  cases hlast with
  | none => exact List.forall₂_same.mpr fun t _ => t.alike_refl
  | some ht =>
    simp only [ht.1]
    split
    · exact h
    · exact List.rel_append h (.cons ⟨rfl, .inr rfl⟩ .nil)

theorem alike_ofTokens {ts us : List Token} (h : List.Forall₂ Token.Alike ts us) :
    (ofTokens ts).Alike (ofTokens us) :=
  ⟨alike_terminated h, rfl⟩

end Cursor

namespace Parser

/-- States before alike tokens. -/
structure State.Alike (s s' : State) : Prop where
  cursor : s.cursor.Alike s'.cursor
  depth : s'.functionDepth = s.functionDepth

/-- Failures of one kind, for one reason. -/
inductive Failure.Alike : Failure → Failure → Prop where
  | rejected {scope : Production} {cause : SyntaxCause} {t t' : Token} {ts ts' : List Token}
      (ht : t.Alike t') (hts : List.Forall₂ Token.Alike ts ts') :
      Alike (.rejected ⟨scope, cause, t, ts⟩) (.rejected ⟨scope, cause, t', ts'⟩)
  | unreadable (e : Number.ReadError) : Alike (.unreadable e) (.unreadable e)
  | tooDeep : Alike .tooDeep .tooDeep

/-- Two runs that end in the same way. -/
inductive Alongside {α : Type} :
    EStateM.Result Failure State α → EStateM.Result Failure State α → Prop where
  | ok {a : α} {s s' : State} (h : s.Alike s') : Alongside (.ok a s) (.ok a s')
  | error {e e' : Failure} {s s' : State} (he : e.Alike e') (h : s.Alike s') :
      Alongside (.error e s) (.error e' s')

/-- The steps do the same before alike tokens. -/
def InStep {α : Type} (p p' : Parse α) : Prop := ∀ s s', s.Alike s' → Alongside (p s) (p' s')

section InStep

variable {α β : Type} {p p' : Parse α} {f f' : α → Parse β}

theorem InStep.bind (h : InStep p p') (hf : ∀ a, InStep (f a) (f' a)) :
    InStep (p >>= f) (p' >>= f') := by
  intro s s' hs
  have hp := h s s' hs
  generalize hr : p s = r at hp
  generalize hr' : p' s' = r' at hp
  cases hp with
  | ok hv =>
    rw [bind_of_ok hr, bind_of_ok hr']
    exact hf _ _ _ hv
  | error he hv =>
    rw [bind_of_error hr, bind_of_error hr']
    exact .error he hv

theorem InStep.inFunction (h : InStep p p') : InStep (inFunction p) (inFunction p') := by
  intro s s' hs
  have hp := h { s with functionDepth := s.functionDepth + 1 }
    { s' with functionDepth := s'.functionDepth + 1 } ⟨hs.cursor, congrArg (· + 1) hs.depth⟩
  unfold Parser.inFunction
  generalize p { s with functionDepth := s.functionDepth + 1 } = r at hp
  generalize p' { s' with functionDepth := s'.functionDepth + 1 } = r' at hp
  cases hp with
  | ok hv => exact .ok ⟨hv.cursor, congrArg (· - 1) hv.depth⟩
  | error he hv => exact .error he ⟨hv.cursor, congrArg (· - 1) hv.depth⟩

theorem State.Alike.next {s s' : State} (h : s.Alike s') :
    State.Alike { s with cursor := s.cursor.next } { s' with cursor := s'.cursor.next } :=
  ⟨h.cursor.next, h.depth⟩

theorem looksAt_of_alike {s s' : State} (h : s.Alike s') (kinds : List Kind) :
    kinds.contains s'.cursor.peek.kind = kinds.contains s.cursor.peek.kind := by
  rw [h.cursor.peek.1]

/-- Alike tokens are parsed alike. -/
theorem law_alongside : PairLaw Token.Alike InStep where
  kind h := h.1
  text h hk := h.text_eq hk
  pure _ _ _ hs := .ok hs
  bind := InStep.bind
  peek_bind hf s s' hs := hf _ _ hs.cursor.peek s s' hs
  next_bind hf s s' hs := hf _ _ hs.cursor.peek _ _ hs.next
  take_bind {_ kinds f f' q q'} hf hq s s' hs := by
    show Alongside ((if kinds.contains s.cursor.peek.kind = true then next >>= f else q) s)
      ((if kinds.contains s'.cursor.peek.kind = true then next >>= f' else q') s')
    rw [looksAt_of_alike hs]
    split
    · next hk => exact hf _ _ hs.cursor.peek (List.contains_iff_mem.mp hk) _ _ hs.next
    · exact hq s s' hs
  looksAt kinds s s' hs := by
    unfold looksAt
    rw [looksAt_of_alike hs]
    exact .ok hs
  enter _ _ _ hs := .ok ⟨hs.cursor, hs.depth⟩
  patience s s' hs := by
    unfold patience
    rw [hs.cursor.remaining]
    exact .ok hs
  depth {_ p p' q q'} hp hq s s' hs := by
    show Alongside ((if s.functionDepth = 0 then p else q) s)
      ((if s'.functionDepth = 0 then p' else q') s')
    rw [hs.depth]
    split
    · exact hp s s' hs
    · exact hq s s' hs
  inFunction := InStep.inFunction
  reject scope cause ht s s' hs := .error (.rejected ht hs.cursor.history) hs
  tooDeep _ _ hs := .error .tooDeep hs
  number _ _ _ _ _ hs := .error (.unreadable _) hs
  float _ _ _ _ _ hs := .error (.unreadable _) hs

end InStep

end Parser

/-- Errors of one class. -/
inductive ParseError.SameClass : ParseError → ParseError → Prop where
  | lexical (e e' : LexicalError) : SameClass (.lexical e) (.lexical e')
  | rejected (e e' : SyntaxError) : SameClass (.rejected e) (.rejected e')
  | unreadable (e e' : Number.ReadError) : SameClass (.unreadable e) (.unreadable e')

/-- The same tree, or errors of one class. -/
inductive SameOutcome {α : Type} : Except ParseError α → Except ParseError α → Prop where
  | ok (a : α) : SameOutcome (.ok a) (.ok a)
  | error {e e' : ParseError} (h : e.SameClass e') : SameOutcome (.error e) (.error e')

theorem SameOutcome.exists_of_isOk {α : Type} {r r' : Except ParseError α} (h : SameOutcome r r')
    (hr : r.isOk = true) : ∃ a, r = .ok a ∧ r' = .ok a := by
  cases h with
  | ok a => exact ⟨a, rfl, rfl⟩
  | error _ => cases hr

theorem Parser.Failure.Alike.sameClass {e e' : Failure} (h : e.Alike e') (scope : Production)
    (s s' : State) : (e.parseError scope s).SameClass (e'.parseError scope s') := by
  cases h with
  | rejected => exact .rejected _ _
  | unreadable e => exact .unreadable e e
  | tooDeep => exact .rejected _ _

/-- Texts with alike tokens spell the same program, or are refused for errors of one class. -/
theorem parseProgram_of_alike {a b : String} {E : LexicalCause → LexicalCause → Prop}
    (h : SameTokens Token.Alike E (tokenize a) (tokenize b)) (room : Nat) (log log' : Log) :
    SameOutcome (parseProgram room a log).1 (parseProgram room b log').1 := by
  unfold parseProgram Parser.parseText
  generalize tokenize a = tokens at h
  generalize tokenize b = tokens' at h
  cases h with
  | error => exact .error (.lexical _ _)
  | @ok ts us h =>
    have hrun := Parser.law_alongside.program room (.start ts log) (.start us log')
      ⟨Cursor.alike_ofTokens h, rfl⟩
    dsimp only
    generalize Parser.program room (.start ts log) = r at hrun
    generalize Parser.program room (.start us log') = r' at hrun
    cases hrun with
    | ok => exact .ok _
    | error he => exact .error (he.sameClass _ _ _)

end TinyScript
