import TinyScript.Proofs.Grammar.Expr
import TinyScript.Proofs.Lexing.Tokens
import TinyScript.Proofs.Number.Numeral

/-!
# Trees of parsed expressions

Trees built by hand can hold any text as an operator and any text as a name. The tree of a
derivation whose tokens come from a text holds only operators of the right kind and names that can
be written (`ExprDerivation.spelled`). Its integers are not negative, and not longer than what can
be read.
-/

namespace TinyScript

/-- How tokens of a kind are spelt, if there is only one way. -/
def Kind.spelling? : Kind → Option String
  | .keyword k => some k.text
  | .symbol s => some (String.ofList s.chars)
  | _ => none

theorem Token.Faithful.text_eq {t : Token} (h : t.Faithful) {s : String}
    (hs : t.kind.spelling? = some s) : t.text = s := by
  unfold Token.Faithful at h
  cases hk : t.kind with
  | keyword k | symbol s =>
    rw [hk] at h hs
    exact h.trans (Option.some.inj hs)
  | _ =>
    rw [hk] at hs
    cases hs

/-- A text that is an operator of the level. -/
def Grammar.Level.IsOperator (l : Grammar.Level) (op : String) : Prop :=
  ∃ k ∈ l.operators, k.spelling? = some op

/-- What all operators of a level have in common, their texts have. -/
theorem Grammar.Level.IsOperator.forall_spelling {l : Grammar.Level} {op : String}
    (h : l.IsOperator op) {P : String → Bool}
    (hP : l.operators.all fun k => k.spelling?.all P) : P op = true := by
  obtain ⟨k, hk, hop⟩ := h
  have hall := List.all_eq_true.mp hP k hk
  rwa [hop] at hall

open Grammar

mutual

/-- Names, integers and operators are such as a text can spell. -/
def Expr.Spelled : Expr → Prop
  | .var x => IsName x
  | .int n => 0 ≤ n ∧ Number.fits n = true
  | .float _ | .str _ => True
  | .call f args => IsName f ∧ Expr.AllSpelled args
  | .logic op l r => (Level.or.IsOperator op ∨ Level.and.IsOperator op) ∧ l.Spelled ∧ r.Spelled
  | .logicUnary op e => op = Keyword.notWord.text ∧ e.Spelled
  | .compare op l r => Level.comparison.IsOperator op ∧ l.Spelled ∧ r.Spelled
  | .arith op l r => (Level.arith.IsOperator op ∨ Level.term.IsOperator op) ∧ l.Spelled ∧ r.Spelled
  | .arithUnary op e => op = String.ofList Symbol.minus.chars ∧ e.Spelled
  | .hole => False

def Expr.AllSpelled : List Expr → Prop
  | [] => True
  | e :: es => e.Spelled ∧ Expr.AllSpelled es

end

theorem Expr.spelled_of_mem {es : List Expr} (h : Expr.AllSpelled es) {e : Expr} (he : e ∈ es) :
    e.Spelled := by
  induction es with
  | nil => cases he
  | cons e' es ih =>
    rcases List.mem_cons.mp he with rfl | he
    · exact h.1
    · exact ih h.2 he

namespace Grammar.ExprDerivation

theorem literal_spelled {t : Token} {e : Expr} (h : t.literal? = some e) (ht : t.Faithful) :
    e.Spelled := by
  unfold Token.literal? at h
  split at h
  · next hk =>
    obtain ⟨n, hn, rfl⟩ := Option.map_eq_some_iff.mp h
    unfold Token.Faithful at ht
    rw [hk] at ht
    cases hread : Number.readInt t.text with
    | error e => simp [hread, Except.toOption] at hn
    | ok m =>
      simp only [hread, Except.toOption, Option.some.injEq] at hn
      exact hn ▸ Number.readInt_digits ht hread
  · obtain ⟨x, -, rfl⟩ := Option.map_eq_some_iff.mp h
    trivial
  · obtain ⟨cs, -, rfl⟩ := Option.map_eq_some_iff.mp h
    trivial
  · cases h

/-- What the tree of a phrase is like. A tail keeps the property of the operand on its left. -/
def IsSpelled : {n : ExprRule} → n.Tree → Prop
  | .one _, e => e.Spelled
  | .tail _, f => ∀ left : Expr, left.Spelled → (f left).Spelled
  | .testList, es | .listTail, es => Expr.AllSpelled es

theorem join_spelled {l : Level} {op : String} (h : l.IsOperator op) {a b : Expr}
    (ha : a.Spelled) (hb : b.Spelled) : (l.join op a b).Spelled := by
  cases l with
  | or | arith => exact ⟨.inl h, ha, hb⟩
  | and | term => exact ⟨.inr h, ha, hb⟩
  | comparison => exact ⟨h, ha, hb⟩

theorem isName_of_faithful (x : TokenOf .name) (h : x.val.Faithful) : IsName x.val.text := by
  unfold Token.Faithful at h
  rwa [x.2] at h

theorem isOperator_of_faithful {l : Level} {op : Token} (hop : op.kind ∈ l.operators)
    (h : op.Faithful) : l.IsOperator op.text := by
  have hspelling : ∀ k ∈ l.operators, k.spelling?.isSome := by cases l <;> decide
  obtain ⟨s, hs⟩ := Option.isSome_iff_exists.mp (hspelling _ hop)
  exact ⟨op.kind, hop, by rw [hs, h.text_eq hs]⟩

/-- The tree of a derivation from faithful tokens is spelled. -/
theorem spelled {n : ExprRule} (d : ExprDerivation n) (h : ∀ t ∈ d.yield, t.Faithful) :
    IsSpelled d.tree := by
  induction d with
  | test d ih | positive d ih | primary d ih | atom d ih => exact ih h
  | tailNil => exact fun left hleft => hleft
  | listNil => trivial
  | @chain l first rest ihf ihr =>
    exact ihr (fun t ht => h t (List.mem_append_right _ ht)) _
      (ihf fun t ht => h t (List.mem_append_left _ ht))
  | @tailCons l op right rest ihr iht =>
    intro left hleft
    have hop := isOperator_of_faithful op.2 (h op.val List.mem_cons_self)
    have hright := ihr fun t ht => h t (List.mem_cons_of_mem _ (List.mem_append_left _ ht))
    have hrest := iht fun t ht => h t (List.mem_cons_of_mem _ (List.mem_append_right _ ht))
    exact hrest _ (join_spelled hop hleft hright)
  | negation op d ih | minus op d ih =>
    have hop : op.val.text = _ := (h op.val List.mem_cons_self).text_eq (by rw [op.2]; rfl)
    exact ⟨hop, ih fun t ht => h t (List.mem_cons_of_mem _ ht)⟩
  | callEmpty f l r => exact ⟨isName_of_faithful f (h f.val List.mem_cons_self), trivial⟩
  | call f l args r ih =>
    refine ⟨isName_of_faithful f (h f.val List.mem_cons_self), ih fun t ht => h t ?_⟩
    exact List.mem_cons_of_mem _ (List.mem_cons_of_mem _ (List.mem_append_left _ ht))
  | name x => exact isName_of_faithful x (h x.val List.mem_cons_self)
  | literal t e he => exact literal_spelled he (h t List.mem_cons_self)
  | paren l d r ih =>
    exact ih fun t ht => h t (List.mem_cons_of_mem _ (List.mem_append_left _ ht))
  | list first rest ihf ihr =>
    exact ⟨ihf fun t ht => h t (List.mem_append_left _ ht),
      ihr fun t ht => h t (List.mem_append_right _ ht)⟩
  | listCons comma e rest ihe ihr =>
    exact ⟨ihe fun t ht => h t (List.mem_cons_of_mem _ (List.mem_append_left _ ht)),
      ihr fun t ht => h t (List.mem_cons_of_mem _ (List.mem_append_right _ ht))⟩

end Grammar.ExprDerivation

end TinyScript
