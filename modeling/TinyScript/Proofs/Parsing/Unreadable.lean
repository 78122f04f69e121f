import TinyScript.Proofs.Lexing.Pattern
import TinyScript.Proofs.Number.Numeral
import TinyScript.Proofs.Parsing.Law
import TinyScript.Proofs.Parsing.Step

/-!
# Numbers that cannot be read

Parsing can stop at a number without rejecting a token. The number is then one of the tokens, and
the tokens of a text are numerals, so there is only one reason left: it has more digits than an
integer may have (`unreadable_of_parseProgram`).
-/

namespace TinyScript

/-- A token of a number has the text of a number. -/
structure Token.Numeric (t : Token) : Prop where
  number : t.kind = .number → Terminal.number.Matches t.text.toList
  float : t.kind = .float → Terminal.float.Matches t.text.toList

theorem Token.numeric_of_kind {t : Token} (h : t.kind ∉ [.number, .float]) : t.Numeric where
  number hk := absurd hk (by simp_all)
  float hk := absurd hk (by simp_all)

theorem Lexeme.numeric_of_token? {l : Lexeme} {t : Token} (h : l.terminal.Matches l.text)
    (ht : l.token? = some t) : t.Numeric := by
  obtain ⟨k, hk, rfl⟩ := Option.map_eq_some_iff.mp ht
  unfold Lexeme.kind? at hk
  constructor
  · rintro rfl
    split at hk
    all_goals try cases hk
    · split at hk <;> cases hk
    · next hl =>
      rw [hl] at h
      simpa using h
  · rintro rfl
    split at hk
    all_goals try cases hk
    · next hl =>
      rw [hl] at h
      simpa using h
    · split at hk <;> cases hk

theorem numeric_of_tokenize {source : String} {ts : List Token} (h : tokenize source = .ok ts) :
    ∀ t ∈ ts, t.Numeric := by
  unfold tokenize at h
  simp only at h
  split at h
  · cases h
  · cases h
  · next levels hok hstop =>
    cases h
    intro t ht
    rcases List.mem_append.mp ht with ht | ht
    · rcases List.mem_append.mp ht with ht | ht
      · rcases Layout.mem_arrange ht with ⟨l, hl, hlt⟩ | hk | hk
        · obtain ⟨ds, htext, hpos⟩ := Cut.exists_scan hl
          exact Lexeme.numeric_of_token? (htext ▸ Terminal.matches_take_scan hpos) hlt
        · exact Token.numeric_of_kind (by simp [hk])
        · exact Token.numeric_of_kind (by simp [hk])
      · obtain ⟨_, -, rfl⟩ := List.mem_map.mp ht
        exact Token.numeric_of_kind (by simp)
    · rw [List.mem_singleton.mp ht]
      exact Token.numeric_of_kind (by simp [Token.eofAt])

/-- The text has more digits than an integer may have. -/
def Number.ReadError.IsExcess (e : Number.ReadError) : Prop :=
  ∃ n, e = .tooManyDigits n ∧ Number.maxDigits < n

/-- A numeral that cannot be read has too many digits. -/
theorem Token.Numeric.isExcess_of_readInt {t : Token} (h : t.Numeric) (hk : t.kind = .number)
    {e : Number.ReadError} (he : Number.readInt t.text = .error e) : e.IsExcess := by
  obtain ⟨hne, hdigit⟩ := h.number hk
  rw [← String.ofList_toList (s := t.text), Number.readInt_of_digits hne hdigit] at he
  split at he
  · next hlong =>
    cases he
    exact ⟨_, rfl, hlong⟩
  · cases he

theorem Token.Numeric.readFloat_ne_error {t : Token} (h : t.Numeric) (hk : t.kind = .float)
    (e : Number.ReadError) : Number.readFloat t.text ≠ .error e := by
  obtain ⟨whole, fraction, htext, hwhole, hfraction, hne⟩ := h.float hk
  obtain ⟨x, hx⟩ := Number.exists_readFloat hwhole hfraction hne
  rw [← htext, String.ofList_toList] at hx
  rw [hx]
  exact nofun

theorem Cursor.mem_terminated {ts : List Token} {t : Token} (h : t ∈ Cursor.terminated ts) :
    t ∈ ts ∨ t.kind = .eof := by
  unfold Cursor.terminated at h
  split at h
  · rw [List.mem_singleton.mp h]
    exact .inr rfl
  · split at h
    · exact .inl h
    · rcases List.mem_append.mp h with h | h
      · exact .inl h
      · rw [List.mem_singleton.mp h]
        exact .inr rfl

namespace Parser

/-- Every number among the tokens is a numeral. -/
def State.Numeric (s : State) : Prop := ∀ t ∈ s.cursor.tokens, t.Numeric

/-- The end of a step that has read numerals. -/
inductive Legible {α : Type} : EStateM.Result Failure State α → Prop where
  | ok {a : α} {s : State} (h : s.Numeric) : Legible (.ok a s)
  | error {e : Failure} {s : State} (h : ∀ r, e = .unreadable r → r.IsExcess) :
      Legible (.error e s)

theorem State.Numeric.peek {s : State} (h : s.Numeric) : s.cursor.peek.Numeric :=
  h _ (Array.getElem_mem _)

theorem State.numeric_start {ts : List Token} (h : ∀ t ∈ ts, t.Numeric) (log : Log) :
    (State.start ts log).Numeric := by
  intro t ht
  rcases Cursor.mem_terminated (List.mem_toArray.mp ht) with ht | hk
  · exact h t ht
  · exact Token.numeric_of_kind (by simp [hk])

/-- A step that reads numerals fails on a number only if it has too many digits. -/
theorem law_legible :
    Law Token.Numeric fun {α} (p : Parse α) => ∀ s, s.Numeric → Legible (p s) where
  pure _ _ hs := .ok hs
  bind {_ _ p f} hp hf s hs := by
    have hrun := hp s hs
    generalize hr : p s = r at hrun
    cases hrun with
    | ok hs' =>
      rw [bind_of_ok hr]
      exact hf _ _ hs'
    | error he =>
      rw [bind_of_error hr]
      exact .error he
  peek_bind hf s hs := hf _ hs.peek s hs
  next_bind hf s hs := hf _ hs.peek { s with cursor := s.cursor.next } hs
  looksAt _ _ hs := .ok hs
  enter _ _ hs := .ok hs
  patience _ hs := .ok hs
  depth {_ p q} hp hq s hs := by
    show Legible ((if s.functionDepth = 0 then p else q) s)
    split
    · exact hp s hs
    · exact hq s hs
  inFunction {_ p} hp s hs := by
    have hrun := hp { s with functionDepth := s.functionDepth + 1 } hs
    unfold inFunction
    generalize p { s with functionDepth := s.functionDepth + 1 } = r at hrun
    cases hrun with
    | ok hs' => exact .ok hs'
    | error he => exact .error he
  reject _ _ _ _ _ := .error nofun
  tooDeep _ _ := .error nofun
  number ht hk he _ _ := .error fun r hr => by
    cases hr
    exact ht.isExcess_of_readInt hk he
  float ht hk he _ _ := absurd he (ht.readFloat_ne_error hk _)

end Parser

/-- A number on which parsing stops has too many digits. -/
theorem unreadable_of_parseProgram {room : Nat} {source : String} {log : Log}
    {e : Number.ReadError} (h : (parseProgram room source log).1 = .error (.unreadable e)) :
    e.IsExcess := by
  unfold parseProgram Parser.parseText at h
  cases htokens : tokenize source with
  | error e =>
    rw [htokens] at h
    cases h
  | ok ts =>
    have hnumeric := Parser.State.numeric_start (numeric_of_tokenize htokens) log
    have hrun := Parser.law_legible.program room _ hnumeric
    simp only [htokens] at h
    generalize Parser.program room (.start ts log) = r at h hrun
    cases hrun with
    | ok => cases h
    | @error f s hf =>
      cases f with
      | rejected | tooDeep => cases h
      | unreadable r =>
        cases h
        exact hf e rfl

end TinyScript
