import TinyScript.Parser
import TinyScript.Tree.Text
import TinyScript.Proofs.Lexing.Spelling
import TinyScript.Proofs.Parsing.Program
import TinyScript.Proofs.Tree.Spelled

/-!
# Expressions read back

The text of an expression has every operation in parentheses. It is followed piece by piece through
the lexer, and a derivation is built along the way (`spellsItself`). So the text is parsed to the
same expression, unless its parentheses need more room than the parser has; `Expr.textRoom` says how
much they need.
-/

namespace TinyScript

open Text (forall_mem_of_all)

namespace Grammar

/-- A phrase of a rule that stands for `e`, with so many operators with one operand stacked and
nested so deep. -/
def Derived (t : Tier) (ts : List Token) (e : Expr) (stack nesting : Nat) : Prop :=
  ∃ d : ExprDerivation (.one t), d.yield = ts ∧ d.tree = e ∧ d.stack = stack ∧ d.nesting = nesting

namespace Derived

variable {l : Level} {t : Tier} {ts us : List Token} {a b : Expr} {s n m : Nat}

theorem single (h : Derived l.operand ts a s n) : Derived (.chain l) ts a s n := by
  obtain ⟨d, rfl, rfl, rfl, rfl⟩ := h
  refine ⟨.chain d .tailNil, ?_, rfl, ?_, ?_⟩
  · exact List.append_nil _
  · exact Nat.max_zero _
  · exact Nat.max_zero _

theorem binary (op : l.Operator) (ha : Derived l.operand ts a s n)
    (hb : Derived l.operand us b s m) :
    Derived (.chain l) (ts ++ op.val :: us) (l.join op.val.text a b) s (max n m) := by
  obtain ⟨d, rfl, rfl, rfl, rfl⟩ := ha
  obtain ⟨d', rfl, rfl, hs, rfl⟩ := hb
  refine ⟨.chain d (.tailCons op d' .tailNil), ?_, rfl, ?_, ?_⟩
  · simp [ExprDerivation.yield]
  · simp [ExprDerivation.stack, hs]
  · simp [ExprDerivation.nesting]

theorem positive (h : Derived (.chain .comparison) ts a s n) : Derived .notTest ts a (s + 1) n := by
  obtain ⟨d, rfl, rfl, rfl, rfl⟩ := h
  exact ⟨.positive d, rfl, rfl, rfl, rfl⟩

theorem negation (op : TokenOf (.keyword .notWord)) (h : Derived .notTest ts a s n) :
    Derived .notTest (op.val :: ts) (.logicUnary op.val.text a) (s + 1) n := by
  obtain ⟨d, rfl, rfl, rfl, rfl⟩ := h
  exact ⟨.negation op d, rfl, rfl, rfl, rfl⟩

theorem minus (op : TokenOf (.symbol .minus)) (h : Derived .factor ts a s n) :
    Derived .factor (op.val :: ts) (.arithUnary op.val.text a) (s + 1) n := by
  obtain ⟨d, rfl, rfl, rfl, rfl⟩ := h
  exact ⟨.minus op d, rfl, rfl, rfl, rfl⟩

theorem primary (h : Derived .atomOrCall ts a s n) : Derived .factor ts a 1 n := by
  obtain ⟨d, rfl, rfl, -, rfl⟩ := h
  exact ⟨.primary d, rfl, rfl, rfl, rfl⟩

theorem test (h : Derived (.chain .or) ts a s n) : Derived .test ts a 0 (max s n + 1) := by
  obtain ⟨d, rfl, rfl, rfl, rfl⟩ := h
  exact ⟨.test d, rfl, rfl, rfl, rfl⟩

theorem paren (lp : TokenOf (.symbol .lpar)) (rp : TokenOf (.symbol .rpar))
    (h : Derived .test ts a s n) : Derived .atomOrCall (lp.val :: (ts ++ [rp.val])) a 0 n := by
  obtain ⟨d, rfl, rfl, -, rfl⟩ := h
  exact ⟨.atom (.paren lp d rp), rfl, rfl, rfl, rfl⟩

end Derived

/-- What the operands of a level count as stacked when they have no operators of their own. -/
def Level.plainStack : Level → Nat
  | or | and => 2
  | comparison | arith | term => 1

namespace Derived

variable {ts : List Token} {a : Expr} {s n : Nat}

/-- A phrase without operators outside its parentheses is an operand of every level. -/
theorem operand (h : Derived .atomOrCall ts a s n) (l : Level) :
    Derived l.operand ts a l.plainStack n := by
  have hcomparison : Derived (.chain .arith) ts a 1 n := by
    refine Derived.single (l := .arith) (Derived.single (l := .term) ?_)
    exact h.primary
  have hand : Derived .notTest ts a 2 n := (Derived.single (l := .comparison) hcomparison).positive
  cases l with
  | or => exact Derived.single (l := .and) hand
  | and => exact hand
  | comparison => exact hcomparison
  | arith => exact Derived.single (l := .term) h.primary
  | term => exact h.primary

/-- A chain is an expression when no other operators stand around it. -/
theorem close {l : Level} (h : Derived (.chain l) ts a l.plainStack n) :
    Derived .test ts a 0 (max 2 n + 1) := by
  have hcomparison : Derived (.chain .comparison) ts a 1 n → Derived .test ts a 0 (max 2 n + 1) :=
    fun h => (Derived.single (l := .or) (Derived.single (l := .and) h.positive)).test
  cases l with
  | or => exact h.test
  | and => exact (Derived.single (l := .or) h).test
  | comparison => exact hcomparison h
  | arith => exact hcomparison (Derived.single (l := .comparison) h)
  | term =>
    exact hcomparison (Derived.single (l := .comparison) (Derived.single (l := .arith) h))

end Derived

end Grammar

namespace Expr

mutual

/-- The floats in an expression. -/
def floats : Expr → List Float
  | float x => [x]
  | var _ | int _ | str _ | hole => []
  | call _ args => floatsAll args
  | logic _ l r | compare _ l r | arith _ l r => l.floats ++ r.floats
  | logicUnary _ e | arithUnary _ e => e.floats

def floatsAll : List Expr → List Float
  | [] => []
  | e :: es => e.floats ++ floatsAll es

end

mutual

/-- How deep an expression is nested when it is written with all its parentheses. -/
def textRoom : Expr → Nat
  | var _ | int _ | float _ | str _ | hole => 3
  | call _ args => max 2 (textRoomAll args) + 1
  | logic _ l r | compare _ l r | arith _ l r => max l.textRoom r.textRoom + 1
  | logicUnary _ e | arithUnary _ e => max 4 e.textRoom + 1

def textRoomAll : List Expr → Nat
  | [] => 0
  | e :: es => max e.textRoom (textRoomAll es)

end

end Expr

/-- The text of a float is a float literal, and the literal is read as the float. -/
structure FloatReadsBack (x : Float) : Prop where
  nonempty : (Number.floatText x).toList ≠ []
  literal : Terminal.scanFloat (Number.floatText x).toList = (Number.floatText x).toList.length
  value : Number.readFloat (Number.floatText x) = .ok x

/-- The first character is solid. -/
def Begins (cs : List Char) : Prop := ∃ c ∈ cs.head?, isSolid c = true

theorem Begins.append {cs : List Char} (h : Begins cs) (ds : List Char) : Begins (cs ++ ds) := by
  obtain ⟨c, hc, hsolid⟩ := h
  refine ⟨c, ?_, hsolid⟩
  rw [List.head?_append, hc]
  rfl

/-- The first and the last character are solid. -/
structure Solid (cs : List Char) : Prop where
  begins : Begins cs
  last : ∃ c ∈ cs.getLast?, isSolid c = true

namespace Solid

variable {cs ds : List Char}

theorem singleton {c : Char} (h : isSolid c = true) : Solid [c] := ⟨⟨c, rfl, h⟩, c, rfl, h⟩

theorem of_forall (hne : cs ≠ []) (h : ∀ c ∈ cs, isSolid c = true) : Solid cs := by
  constructor
  · exact ⟨_, List.head?_eq_some_head hne, h _ (List.head_mem hne)⟩
  · exact ⟨_, List.getLast?_eq_some_getLast hne, h _ (List.getLast_mem hne)⟩

theorem around (h : Solid cs) (h' : Solid ds) (mid : List Char) : Solid (cs ++ mid ++ ds) := by
  constructor
  · rw [List.append_assoc]
    exact h.begins.append _
  · obtain ⟨d, hd, hsolid⟩ := h'.last
    refine ⟨d, ?_, hsolid⟩
    rw [List.getLast?_append, hd]
    rfl

end Solid

/-- A blank before a text is skipped. -/
theorem Spells.blank {cs rest : List Char} {Q : List Token → Prop} (h : Spells cs rest Q)
    (hbegins : Begins cs) : Spells (' ' :: cs) rest Q := by
  have hblank : ∀ d ∈ (cs ++ rest).head?, Terminal.isBlank d = false := by
    obtain ⟨c, hc, hsolid⟩ := hbegins.append rest
    intro d hd
    obtain rfl : c = d := Option.some.inj (hc.symm.trans hd)
    cases hblank : Terminal.isBlank c with
    | false => rfl
    | true => simp [isSolid, hblank] at hsolid
  refine (spells_blank hblank).append ?_
  rintro _ rfl
  exact h

theorem IsName.solid {x : String} (h : IsName x) : Solid x.toList := by
  obtain ⟨c, cs, hx, -, hword⟩ := h.word
  rw [hx]
  refine Solid.of_forall (List.cons_ne_nil c cs) fun d hd => ?_
  exact isSolid_of_class (hword d hd) (forall_mem_of_all (by decide))

theorem Kind.solid_spelling {k : Kind} {s : String} (h : k.spelling? = some s) :
    Solid s.toList := by
  cases k with
  | keyword k =>
    cases h
    cases k <;> exact Solid.of_forall (List.cons_ne_nil _ _) (forall_mem_of_all (by decide))
  | symbol s =>
    cases h
    rw [String.toList_ofList]
    cases s <;> exact Solid.of_forall (List.cons_ne_nil _ _) (forall_mem_of_all (by decide))
  | _ => cases h

theorem FloatReadsBack.solid {x : Float} (h : FloatReadsBack x) :
    Solid (Number.floatText x).toList := by
  obtain ⟨whole, fraction, htext, hwhole, hfraction, -⟩ :=
    Terminal.exists_digits_of_scanFloat h.literal h.nonempty
  refine Solid.of_forall h.nonempty fun c hc => ?_
  rw [htext, List.mem_append, List.mem_cons] at hc
  rcases hc with hc | rfl | hc
  · exact isSolid_of_class (hwhole c hc) (forall_mem_of_all (by decide))
  · decide
  · exact isSolid_of_class (hfraction c hc) (forall_mem_of_all (by decide))

theorem Number.toList_intText {n : Int} (h : 0 ≤ n) :
    ∃ m : Nat, (Number.intText n).toList = Nat.toDigits 10 m := by
  obtain ⟨m, rfl⟩ := Int.eq_ofNat_of_zero_le h
  exact ⟨m, String.toList_ofList⟩

/-- The text of an expression neither begins nor ends with anything that a line could lose. -/
theorem Expr.solid_text (e : Expr) (h : e.Spelled) (hfloat : ∀ x ∈ e.floats, FloatReadsBack x) :
    Solid e.text.toList := by
  have hopen : Solid ['('] := .singleton (by decide)
  have hclose : Solid [')'] := .singleton (by decide)
  cases e with
  | var x => exact h.solid
  | int n =>
    obtain ⟨m, hm⟩ := Number.toList_intText h.1
    rw [Expr.text, hm]
    refine Solid.of_forall (List.length_pos_iff.mp Nat.length_toDigits_pos) fun c hc => ?_
    exact isSolid_of_class (Number.isDigit_of_mem_toDigits m c hc) (forall_mem_of_all (by decide))
  | float x => exact (hfloat x List.mem_cons_self).solid
  | str s =>
    have hmark : ∀ c, Text.Quoted.IsMark c → Solid [c] := by
      rintro c (rfl | rfl)
      · exact .singleton (by decide)
      · exact .singleton (by decide)
    have hends := hmark _ (Text.Quoted.isMark_mark s.toList)
    rw [Expr.text, Text.quote, String.toList_ofList]
    exact hends.around hends _
  | call f args =>
    simpa [Expr.text] using h.1.solid.around hclose ('(' :: (Text.commaList (texts args)).toList)
  | logic op l r | compare op l r | arith op l r =>
    simpa [Expr.text] using
      hopen.around hclose (l.text.toList ++ ' ' :: (op.toList ++ ' ' :: r.text.toList))
  | logicUnary op e =>
    simpa [Expr.text] using hopen.around hclose (op.toList ++ ' ' :: e.text.toList)
  | arithUnary op e =>
    simpa [Expr.text] using hopen.around hclose (op.toList ++ e.text.toList)
  | hole => exact h.elim

open Grammar

/-- What comes after an expression inside a text. -/
def Ends (rest : List Char) : Prop := ∀ d ∈ rest.head?, d ∈ [' ', ')', ',', '\n']

theorem ends_cons {c : Char} {rest : List Char} (h : c ∈ [' ', ')', ',', '\n']) :
    Ends (c :: rest) := by
  intro d hd
  rwa [← Option.some.inj hd]

theorem Ends.forall {rest : List Char} (h : Ends rest) {P : Char → Prop}
    (hP : ∀ d ∈ [' ', ')', ',', '\n'], P d) : ∀ d ∈ rest.head?, P d :=
  fun d hd => hP d (h d hd)

/-- The tokens of an expression that is written with all its parentheses. -/
def Printed (e : Expr) (us : List Token) : Prop :=
  ∃ n, Derived .atomOrCall us e 0 n ∧ max 2 n + 1 = e.textRoom

theorem Printed.test {e : Expr} {us : List Token} (h : Printed e us) :
    Derived .test us e 0 e.textRoom := by
  obtain ⟨n, hd, hn⟩ := h
  rw [← hn]
  exact ((hd.operand .or).single).close

theorem printed_literal {t : Token} {e : Expr} (h : t.literal? = some e) (hroom : e.textRoom = 3) :
    Printed e [t] :=
  ⟨0, ⟨.atom (.literal t e h), rfl, rfl, rfl, rfl⟩, hroom.symm⟩

/-- The text of the expression spells it wherever it stands. -/
def SpellsItself (e : Expr) : Prop := ∀ rest, Ends rest → Spells e.text.toList rest (Printed e)

/-- An operator between blanks. -/
theorem spells_operator {l : Level} {op : String} (h : l.IsOperator op) (rest : List Char) :
    Spells op.toList (' ' :: rest) fun us => ∃ o : l.Operator, us = [o.val] ∧ o.val.text = op := by
  obtain ⟨k, hk, hspelling⟩ := h
  have hblank : ∀ d ∈ (' ' :: rest).head?, Text.isWord d = false := by
    intro d hd
    rw [← Option.some.inj hd]
    decide
  cases k with
  | keyword k =>
    cases hspelling
    refine (spells_keyword k hblank).imp ?_
    rintro _ ⟨p, rfl⟩
    exact ⟨⟨_, hk⟩, rfl, rfl⟩
  | symbol s =>
    cases hspelling
    rw [String.toList_ofList]
    refine (spells_symbol (.inr rfl)).imp ?_
    rintro _ ⟨p, rfl⟩
    exact ⟨⟨_, hk⟩, rfl, rfl⟩
  | _ => cases hspelling

/-- Punctuation, whatever comes after it. -/
theorem spells_punctuation (s : Symbol) (h : s ∈ [.lpar, .rpar, .comma, .minus])
    (rest : List Char) :
    Spells s.chars rest fun us =>
      ∃ t : TokenOf (.symbol s), us = [t.val] ∧ t.val.text = String.ofList s.chars := by
  refine (spells_symbol (.inl h)).imp ?_
  rintro _ ⟨p, rfl⟩
  exact ⟨⟨_, rfl⟩, rfl, rfl⟩

/-- Anything in parentheses. -/
theorem spells_paren {cs rest : List Char} {e : Expr} {n : Nat}
    (h : Spells cs (')' :: rest) fun us => Derived .test us e 0 n) (hn : max 2 n + 1 = e.textRoom) :
    Spells ('(' :: (cs ++ [')'])) rest (Printed e) := by
  refine (spells_punctuation .lpar (by decide) _).append ?_
  rintro _ ⟨lp, rfl, -⟩
  refine h.append ?_
  intro us hus
  refine (spells_punctuation .rpar (by decide) rest).imp ?_
  rintro _ ⟨rp, rfl, -⟩
  exact ⟨n, hus.paren lp rp, hn⟩

theorem spells_var {x : String} (h : IsName x) : SpellsItself (.var x) := by
  intro rest hrest
  refine (spells_name h (hrest.forall (forall_mem_of_all (by decide)))).imp ?_
  rintro _ ⟨p, rfl⟩
  exact ⟨0, ⟨.atom (.name ⟨⟨.name, x, p⟩, rfl⟩), rfl, rfl, rfl, rfl⟩, rfl⟩

theorem spells_int {n : Int} (h : 0 ≤ n) (hfits : Number.fits n = true) :
    SpellsItself (.int n) := by
  intro rest hrest
  obtain ⟨m, hm⟩ := Number.toList_intText h
  have hne : (Number.intText n).toList ≠ [] := by
    rw [hm]
    exact List.length_pos_iff.mp Nat.length_toDigits_pos
  have hdigits : ∀ d ∈ (Number.intText n).toList, Text.isDigit d = true := by
    rw [hm]
    exact Number.isDigit_of_mem_toDigits m
  refine (spells_number hne hdigits (hrest.forall (forall_mem_of_all (by decide)))).imp ?_
  rintro _ ⟨p, rfl⟩
  refine printed_literal ?_ rfl
  simp [Token.literal?, Number.readInt_intText hfits, Except.toOption]

theorem spells_floatText {x : Float} (h : FloatReadsBack x) : SpellsItself (.float x) := by
  intro rest hrest
  refine (spells_float h.nonempty h.literal (hrest.forall (forall_mem_of_all (by decide)))).imp ?_
  rintro _ ⟨p, rfl⟩
  refine printed_literal ?_ rfl
  simp [Token.literal?, h.value, Except.toOption]

theorem spells_str (s : String) : SpellsItself (.str s) := by
  intro rest hrest
  refine (spells_string s rest).imp ?_
  rintro _ ⟨p, rfl⟩
  refine printed_literal ?_ rfl
  simp [Token.literal?, Text.quote, Text.Quoted.decode_encode, Except.toOption]

theorem Expr.three_le_textRoom (e : Expr) : 3 ≤ e.textRoom := by
  cases e with
  | call f args => simp only [textRoom]; omega
  | logic op l r | compare op l r | arith op l r =>
    have := l.three_le_textRoom
    simp only [textRoom]
    omega
  | logicUnary op e | arithUnary op e => simp only [textRoom]; omega
  | _ => exact Nat.le_refl 3

theorem textRoom_join (l : Level) (op : String) (a b : Expr) :
    (l.join op a b).textRoom = max a.textRoom b.textRoom + 1 := by
  cases l <;> rfl

/-- Two operands with their operator. -/
theorem spells_binary {l : Level} {op : String} (hop : l.IsOperator op) {a b : Expr}
    (ha : SpellsItself a) (hb : SpellsItself b) (hsolid : Solid b.text.toList) :
    SpellsItself (l.join op a b) := by
  intro rest hrest
  have htext : (l.join op a b).text.toList =
      '(' :: ((a.text.toList ++ (' ' :: (op.toList ++ (' ' :: b.text.toList)))) ++ [')']) := by
    cases l <;> simp [Level.join, Expr.text]
  have hsolidOp : Solid op.toList := by
    obtain ⟨k, -, hspelling⟩ := hop
    exact Kind.solid_spelling hspelling
  have hroom : max 2 (max a.textRoom b.textRoom) + 1 = (l.join op a b).textRoom := by
    have := a.three_le_textRoom
    rw [textRoom_join]
    omega
  rw [htext]
  refine spells_paren ?_ hroom
  refine (ha _ (ends_cons (by decide))).append ?_
  rintro us ⟨n, hus, hn⟩
  refine Spells.blank ?_ (hsolidOp.begins.append _)
  refine (spells_operator hop _).append ?_
  rintro _ ⟨o, rfl, rfl⟩
  refine Spells.blank ?_ hsolid.begins
  refine (hb _ (ends_cons (by decide))).imp ?_
  rintro vs ⟨m, hvs, hm⟩
  have hchain := (Derived.binary o (hus.operand l) (hvs.operand l)).close
  have hnesting : max 2 (max n m) + 1 = max a.textRoom b.textRoom := by omega
  rwa [hnesting] at hchain

theorem spells_negation {a : Expr} (ha : SpellsItself a) (hsolid : Solid a.text.toList) :
    SpellsItself (.logicUnary Keyword.notWord.text a) := by
  intro rest hrest
  have htext : (Expr.logicUnary Keyword.notWord.text a).text.toList =
      '(' :: ((Keyword.notWord.text.toList ++ (' ' :: a.text.toList)) ++ [')']) := by
    simp [Expr.text]
  have hroom : max 2 (max 4 a.textRoom) + 1 =
      (Expr.logicUnary Keyword.notWord.text a).textRoom := by
    simp only [Expr.textRoom]
    omega
  rw [htext]
  refine spells_paren ?_ hroom
  refine (spells_keyword .notWord ?_).append ?_
  · intro d hd
    rw [← Option.some.inj hd]
    decide
  rintro _ ⟨p, rfl⟩
  refine Spells.blank ?_ hsolid.begins
  refine (ha _ (ends_cons (by decide))).imp ?_
  rintro us ⟨n, hus, hn⟩
  have hphrase := (hus.operand .and).negation ⟨⟨.keyword .notWord, Keyword.notWord.text, p⟩, rfl⟩
  have htest := ((hphrase.single (l := .and)).single (l := .or)).test
  have hnesting : max (Level.and.plainStack + 1) n + 1 = max 4 a.textRoom := by
    simp only [Level.plainStack]
    omega
  rwa [hnesting] at htest

theorem spells_minus {a : Expr} (ha : SpellsItself a) :
    SpellsItself (.arithUnary (String.ofList Symbol.minus.chars) a) := by
  intro rest hrest
  have htext : (Expr.arithUnary (String.ofList Symbol.minus.chars) a).text.toList =
      '(' :: ((Symbol.minus.chars ++ a.text.toList) ++ [')']) := by
    simp [Expr.text]
  have hroom : max 2 (max 4 a.textRoom) + 1 =
      (Expr.arithUnary (String.ofList Symbol.minus.chars) a).textRoom := by
    simp only [Expr.textRoom]
    omega
  rw [htext]
  refine spells_paren ?_ hroom
  refine (spells_punctuation .minus (by decide) _).append ?_
  rintro _ ⟨op, rfl, hop⟩
  refine (ha _ (ends_cons (by decide))).imp ?_
  rintro us ⟨n, hus, hn⟩
  have hphrase := hus.primary.minus op
  have hcomparison := ((hphrase.single (l := .term)).single (l := .arith)).single (l := .comparison)
  have htest := ((hcomparison.positive.single (l := .and)).single (l := .or)).test
  have hnesting : max (1 + 1 + 1) n + 1 = max 4 a.textRoom := by omega
  rwa [hnesting, hop] at htest

/-- The tokens of expressions with commas between them. -/
def PrintedList (es : List Expr) (us : List Token) : Prop :=
  ∃ d : ExprDerivation .testList, d.yield = us ∧ d.tree = es ∧ d.nesting = Expr.textRoomAll es

theorem Printed.list {e : Expr} {us : List Token} (h : Printed e us) : PrintedList [e] us := by
  obtain ⟨d, rfl, rfl, -, hn⟩ := h.test
  refine ⟨.list d .listNil, ?_, rfl, ?_⟩
  · exact List.append_nil _
  · simp [ExprDerivation.nesting, hn, Expr.textRoomAll]

theorem Printed.cons {e : Expr} {us vs : List Token} {es : List Expr} (h : Printed e us)
    (comma : TokenOf (.symbol .comma)) (hs : PrintedList es vs) :
    PrintedList (e :: es) (us ++ comma.val :: vs) := by
  obtain ⟨d, rfl, rfl, -, hn⟩ := h.test
  obtain ⟨d', rfl, rfl, hm⟩ := hs
  cases d' with
  | list first rest =>
    refine ⟨.list d (.listCons comma first rest), rfl, rfl, ?_⟩
    rw [Expr.textRoomAll, ← hm, ← hn]
    rfl

/-- Texts of expressions with commas between them. -/
theorem spells_commaList {e : Expr} {es : List Expr}
    (h : ∀ a ∈ e :: es, SpellsItself a ∧ Solid a.text.toList) {rest : List Char}
    (hrest : Ends rest) :
    Spells (Text.commaList (Expr.texts (e :: es))).toList rest (PrintedList (e :: es)) := by
  induction es generalizing e with
  | nil => exact ((h e List.mem_cons_self).1 rest hrest).imp fun us hus => hus.list
  | cons e' es ih =>
    obtain ⟨he, -⟩ := h e List.mem_cons_self
    obtain ⟨-, hsolid⟩ := h e' (List.mem_cons_of_mem _ List.mem_cons_self)
    have hmore := ih fun a ha => h a (List.mem_cons_of_mem _ ha)
    have hbegins : Begins (Text.commaList (Expr.texts (e' :: es))).toList := by
      cases es with
      | nil => exact hsolid.begins
      | cons e'' es =>
        simp only [Expr.texts, Text.commaList, Text.joinWith_cons_cons, String.toList_append,
          List.append_assoc]
        exact hsolid.begins.append _
    have htext : (Text.commaList (Expr.texts (e :: e' :: es))).toList =
        e.text.toList ++ (Symbol.comma.chars ++
          (' ' :: (Text.commaList (Expr.texts (e' :: es))).toList)) := by
      simp [Expr.texts, Text.joinWith_cons_cons, Symbol.chars]
    rw [htext]
    refine (he _ (ends_cons (by decide))).append ?_
    intro us hus
    refine (spells_punctuation .comma (by decide) _).append ?_
    rintro _ ⟨comma, rfl, -⟩
    refine Spells.blank ?_ hbegins
    exact hmore.imp fun vs hvs => hus.cons comma hvs

theorem spells_call {f : String} (hf : IsName f) {args : List Expr}
    (h : ∀ a ∈ args, SpellsItself a ∧ Solid a.text.toList) : SpellsItself (.call f args) := by
  intro rest hrest
  have hword : ∀ d ∈ ('(' :: ((Text.commaList (Expr.texts args)).toList ++ ')' :: rest)).head?,
      Text.isWord d = false := by
    intro d hd
    rw [← Option.some.inj hd]
    decide
  have htext : (Expr.call f args).text.toList = f.toList ++
      (Symbol.lpar.chars ++ ((Text.commaList (Expr.texts args)).toList ++ Symbol.rpar.chars)) := by
    simp [Expr.text, Symbol.chars]
  rw [htext]
  refine (spells_name hf ?_).append ?_
  · simpa [Symbol.chars] using hword
  rintro _ ⟨p, rfl⟩
  refine (spells_punctuation .lpar (by decide) _).append ?_
  rintro _ ⟨lp, rfl, -⟩
  cases args with
  | nil =>
    refine (spells_punctuation .rpar (by decide) _).imp ?_
    rintro _ ⟨rp, rfl, -⟩
    exact ⟨0, ⟨.callEmpty ⟨⟨.name, f, p⟩, rfl⟩ lp rp, rfl, rfl, rfl, rfl⟩, rfl⟩
  | cons e es =>
    refine (spells_commaList h (ends_cons (by decide))).append ?_
    rintro _ ⟨d, rfl, htree, hn⟩
    refine (spells_punctuation .rpar (by decide) _).imp ?_
    rintro _ ⟨rp, rfl, -⟩
    refine ⟨_, ⟨.call ⟨⟨.name, f, p⟩, rfl⟩ lp d rp, rfl, ?_, rfl, hn⟩, rfl⟩
    simp [ExprDerivation.tree, htree]

mutual

/-- The text of an expression spells the expression. -/
theorem spellsItself (e : Expr) (h : e.Spelled) (hfloat : ∀ x ∈ e.floats, FloatReadsBack x) :
    SpellsItself e := by
  cases e with
  | var x => exact spells_var h
  | int n => exact spells_int h.1 h.2
  | float x => exact spells_floatText (hfloat x List.mem_cons_self)
  | str s => exact spells_str s
  | call f args => exact spells_call h.1 (spellThemselves args h.2 hfloat)
  | logic op l r | arith op l r =>
    have hleft := spellsItself l h.2.1 fun x hx => hfloat x (List.mem_append_left _ hx)
    have hright := spellsItself r h.2.2 fun x hx => hfloat x (List.mem_append_right _ hx)
    have hsolid := r.solid_text h.2.2 fun x hx => hfloat x (List.mem_append_right _ hx)
    rcases h.1 with hop | hop
    · exact spells_binary hop hleft hright hsolid
    · exact spells_binary hop hleft hright hsolid
  | compare op l r =>
    have hleft := spellsItself l h.2.1 fun x hx => hfloat x (List.mem_append_left _ hx)
    have hright := spellsItself r h.2.2 fun x hx => hfloat x (List.mem_append_right _ hx)
    have hsolid := r.solid_text h.2.2 fun x hx => hfloat x (List.mem_append_right _ hx)
    exact spells_binary h.1 hleft hright hsolid
  | logicUnary op e =>
    obtain ⟨rfl, he⟩ := h
    exact spells_negation (spellsItself e he hfloat) (e.solid_text he hfloat)
  | arithUnary op e =>
    obtain ⟨rfl, he⟩ := h
    exact spells_minus (spellsItself e he hfloat)
  | hole => exact h.elim

theorem spellThemselves (es : List Expr) (h : Expr.AllSpelled es)
    (hfloat : ∀ x ∈ Expr.floatsAll es, FloatReadsBack x) :
    ∀ a ∈ es, SpellsItself a ∧ Solid a.text.toList := by
  cases es with
  | nil => exact nofun
  | cons e es =>
    have hfirst : ∀ x ∈ e.floats, FloatReadsBack x :=
      fun x hx => hfloat x (List.mem_append_left _ hx)
    have hself := spellsItself e h.1 hfirst
    have hmore := spellThemselves es h.2 fun x hx => hfloat x (List.mem_append_right _ hx)
    intro a ha
    rcases List.mem_cons.mp ha with hae | ha
    · rw [hae]
      exact ⟨hself, e.solid_text h.1 hfirst⟩
    · exact hmore a ha

end

namespace Parser

end Parser

mutual

/-- Integers that a text can spell can be written again. -/
theorem Expr.writable_of_spelled (e : Expr) (h : e.Spelled) : e.writable = true := by
  cases e with
  | var x | float x | str s => rfl
  | int n => exact h.2
  | call f args => exact Expr.allWritable_of_spelled args h.2
  | logic op l r | compare op l r | arith op l r =>
    exact Bool.and_eq_true_iff.mpr ⟨l.writable_of_spelled h.2.1, r.writable_of_spelled h.2.2⟩
  | logicUnary op e | arithUnary op e => exact e.writable_of_spelled h.2
  | hole => exact h.elim

theorem Expr.allWritable_of_spelled (es : List Expr) (h : Expr.AllSpelled es) :
    Expr.allWritable es = true := by
  cases es with
  | nil => rfl
  | cons e es =>
    exact Bool.and_eq_true_iff.mpr ⟨e.writable_of_spelled h.1, Expr.allWritable_of_spelled es h.2⟩

end

namespace Parser

end Parser

/-- The sum `1 + 1 + … + 1` with so many operators, grouped to the left. -/
def sumOfOnes : Nat → Expr
  | 0 => .int 1
  | n + 1 => .arith "+" (sumOfOnes n) (.int 1)

end TinyScript
