import TinyScript.Proofs.Grammar.Expr
import TinyScript.Proofs.Parsing.Step

/-!
# Expressions are parsed by their grammar

`accepts_test` says that a result of the parser has a derivation; `reads_test` says that what has a
derivation is parsed, if its nesting fits into the room, and that otherwise the room is what is
missing. The nesting of a derivation is defined here: it counts parentheses, calls, and the
operators with one operand that are stacked on each other.
-/

namespace TinyScript.Grammar

namespace ExprDerivation

/-- How many operators with one operand are stacked on each other, the operand counted. -/
@[simp] def stack : {n : ExprRule} → ExprDerivation n → Nat
  | _, chain first rest => max first.stack rest.stack
  | _, tailCons _ right rest => max right.stack rest.stack
  | _, negation _ d | _, minus _ d | _, positive d => d.stack + 1
  | _, primary _ => 1
  | _, _ => 0

/-- How deep expressions are nested: inside the parentheses for the rules below `test`, and with the
expression itself counted for `test`. -/
@[simp] def nesting : {n : ExprRule} → ExprDerivation n → Nat
  | _, test d => max d.stack d.nesting + 1
  | _, positive d | _, primary d | _, atom d | _, negation _ d | _, minus _ d
  | _, paren _ d _ => d.nesting
  | _, chain first rest => max first.nesting rest.nesting
  | _, tailCons _ right rest => max right.nesting rest.nesting
  | _, call _ _ args _ => args.nesting
  | _, list first rest => max first.nesting rest.nesting
  | _, listCons _ e rest => max e.nesting rest.nesting
  | _, tailNil | _, callEmpty .. | _, name _ | _, literal .. | _, listNil => 0

/-- An expression without operators outside its parentheses. -/
def ofPrimary (d : ExprDerivation (.one .atomOrCall)) : ExprDerivation (.one .test) :=
  .test (.chain (l := .or) (.chain (l := .and) (.positive (.chain (l := .comparison)
    (.chain (l := .arith) (.chain (l := .term) (.primary d) .tailNil) .tailNil) .tailNil)) .tailNil)
    .tailNil)

@[simp] theorem yield_ofPrimary (d : ExprDerivation (.one .atomOrCall)) :
    d.ofPrimary.yield = d.yield := by
  simp [ofPrimary, yield]

@[simp] theorem nesting_ofPrimary (d : ExprDerivation (.one .atomOrCall)) :
    d.ofPrimary.nesting = max 2 d.nesting + 1 := by
  simp [ofPrimary, nesting, stack]

end ExprDerivation

/-- The tokens have a derivation that stands for `a`. -/
def ExprRule.Derives (n : ExprRule) (ts : List Token) (a : n.Tree) : Prop :=
  ∃ d : ExprDerivation n, d.yield = ts ∧ d.tree = a

end TinyScript.Grammar

namespace TinyScript.Parser

open Grammar

/-- The production that parses a chain of operators. -/
def levelScope : Level → Production
  | .or => .orTest
  | .and => .andTest
  | .comparison => .comparison
  | .arith => .arithExpr
  | .term => .term

/-- The parser of the expressions of one rule. -/
def tier : Tier → (nested : Parse Expr) → (room : Nat) → Parse Expr
  | .test, nested, _ => nested
  | .chain .or, nested, room => orTest nested room
  | .chain .and, nested, room => andTest nested room
  | .chain .comparison, nested, room => comparison nested room
  | .chain .arith, nested, room => arithExpr nested room
  | .chain .term, nested, room => term nested room
  | .notTest, nested, room => notTest nested room
  | .factor, nested, room => factor nested room
  | .atomOrCall, nested, _ => atomOrCall nested
  | .atom, nested, _ => atom nested

/-- The five productions with operators of two operands are one. -/
theorem tier_chain (l : Level) (nested : Parse Expr) (room : Nat) :
    tier (.chain l) nested room =
      enter (levelScope l) >>= fun _ =>
        leftChain l.operators l.join (tier l.operand nested room) := by
  cases l <;> rfl

theorem eof_notMem_operators (l : Level) : Kind.eof ∉ l.operators := by
  cases l <;> decide

section Accepts

variable {depth : Nat} {nested : Parse Expr}

theorem accepts_leftChain {l : Level} {operand : Parse Expr}
    (h : Accepts operand depth (ExprRule.one l.operand).Derives) :
    Accepts (leftChain l.operators l.join operand) depth (ExprRule.one (.chain l)).Derives := by
  refine h.bind ?_
  rintro _ _ ⟨first, rfl, rfl⟩
  -- A round joins its operand to what stands on the left, so the rounds after it are a tail of what
  -- it gave.
  refine (accepts_iterate
    (I := fun left ts e => ∃ d : ExprDerivation (.tail l), d.yield = ts ∧ d.tree left = e)
    (fun left => ⟨.tailNil, rfl, rfl⟩) (fun left => ?_) first.tree).imp ?_
  · refine Accepts.take (eof_notMem_operators l) (fun op => ?_) (accepts_pure rfl)
    refine h.bind ?_
    rintro _ _ ⟨right, rfl, rfl⟩
    refine accepts_pure ?_
    rintro _ _ ⟨rest, rfl, rfl⟩
    exact ⟨.tailCons op right rest, by simp [ExprDerivation.yield], rfl⟩
  · rintro _ _ ⟨rest, rfl, rfl⟩
    exact ⟨.chain first rest, rfl, rfl⟩

theorem accepts_testList (h : Accepts nested depth (ExprRule.one .test).Derives) :
    Accepts (testList nested) depth ExprRule.testList.Derives := by
  refine Accepts.enter_bind (h.bind ?_)
  rintro _ _ ⟨first, rfl, rfl⟩
  refine (accepts_collect (C := ExprRule.listTail.Derives) ⟨.listNil, rfl, rfl⟩ ?_).bind ?_
  · refine Accepts.take (by decide) (fun comma => ?_) (accepts_pure rfl)
    refine h.bind ?_
    rintro _ _ ⟨e, rfl, rfl⟩
    refine accepts_pure ?_
    rintro _ _ ⟨rest, rfl, rfl⟩
    have hcomma : comma.val.kind = .symbol .comma := List.mem_singleton.mp comma.2
    exact ⟨.listCons ⟨comma.val, hcomma⟩ e rest, by simp [ExprDerivation.yield], rfl⟩
  · rintro _ _ ⟨rest, rfl, rfl⟩
    exact accepts_pure ⟨.list first rest, by simp [ExprDerivation.yield], rfl⟩

/-- A literal is an atom as soon as its text can be converted. -/
theorem accepts_literal {t : Token} {e : Expr} (h : t.literal? = some e) :
    Accepts (pure e) depth fun ts e => (ExprRule.one .atom).Derives (t :: ts) e :=
  accepts_pure ⟨.literal t e h, rfl, rfl⟩

theorem accepts_number {t : Token} (hk : t.kind = .number) :
    Accepts (number t) depth fun ts e => (ExprRule.one .atom).Derives (t :: ts) e := by
  unfold number
  split
  · next n hn => exact accepts_literal (by simp [Token.literal?, hk, hn, Except.toOption])
  · exact accepts_throw _

theorem accepts_float {t : Token} (hk : t.kind = .float) :
    Accepts (float t) depth fun ts e => (ExprRule.one .atom).Derives (t :: ts) e := by
  unfold float
  split
  · next x hx => exact accepts_literal (by simp [Token.literal?, hk, hx, Except.toOption])
  · exact accepts_throw _

theorem accepts_string {t : Token} (hk : t.kind = .string) :
    Accepts (string t) depth fun ts e => (ExprRule.one .atom).Derives (t :: ts) e := by
  unfold string
  split
  · next cs hcs => exact accepts_literal (by simp [Token.literal?, hk, hcs, Except.toOption])
  · exact accepts_reject _ _ _

theorem accepts_atom (h : Accepts nested depth (ExprRule.one .test).Derives) :
    Accepts (atom nested) depth (ExprRule.one .atom).Derives := by
  refine Accepts.enter_bind (accepts_next_bind (fun t _ => ?_) ?_)
  · split
    · next hk => exact accepts_pure ⟨.name ⟨t, hk⟩, rfl, rfl⟩
    · next hk => exact accepts_number hk
    · next hk => exact accepts_float hk
    · next hk => exact accepts_string hk
    · next hk =>
      refine h.bind ?_
      rintro _ _ ⟨e, rfl, rfl⟩
      refine Accepts.expect_bind nofun fun r => accepts_pure ?_
      exact ⟨.paren ⟨t, hk⟩ e r, by simp [ExprDerivation.yield], rfl⟩
    · exact accepts_reject _ _ _
  · intro t s b s' ht hp
    simp only [ht] at hp
    cases hp

theorem accepts_call (h : Accepts nested depth (ExprRule.one .test).Derives) (f : TokenOf .name) :
    Accepts (call nested f.val.text) depth fun ts e =>
      (ExprRule.one .atomOrCall).Derives (f.val :: ts) e := by
  refine Accepts.enter_bind (Accepts.expect_bind nofun fun l => ?_)
  refine Accepts.ite ?_ ((accepts_testList h).bind ?_)
  · exact Accepts.expect_bind nofun fun r => accepts_pure ⟨.callEmpty f l r, rfl, rfl⟩
  · rintro _ _ ⟨args, rfl, rfl⟩
    exact Accepts.expect_bind nofun fun r => accepts_pure ⟨.call f l args r, rfl, rfl⟩

theorem accepts_atomOrCall (h : Accepts nested depth (ExprRule.one .test).Derives) :
    Accepts (atomOrCall nested) depth (ExprRule.one .atomOrCall).Derives := by
  refine Accepts.enter_bind (accepts_peek_bind fun first => ?_)
  refine AcceptsAt.bind (accepts_atom h) ?_
  rintro _ _ ⟨d, rfl, rfl⟩ hfirst
  have hatom : Accepts (pure d.tree) depth fun ts e =>
      (ExprRule.one .atomOrCall).Derives (d.yield ++ ts) e :=
    accepts_pure ⟨.atom d, by simp [ExprDerivation.yield], rfl⟩
  split
  · next hk =>
    -- The atom was the name that had been looked at, and may turn out to be called.
    have hname : d.yield = [first] := by
      obtain ⟨t, ts, hy, -⟩ := d.yield_head rfl
      obtain rfl : t = first := hfirst t (by simp [hy])
      have happ : d.yield ++ [] = t :: ts := by rw [hy, List.append_nil]
      rw [hy, ← d.rest_eq_of_name (f := ⟨t, hk⟩) happ]
    refine Accepts.ite ?_ hatom
    rw [hname]
    exact accepts_call h ⟨first, hk⟩
  · exact hatom

theorem accepts_chain {l : Level} {room : Nat}
    (h : Accepts (tier l.operand nested room) depth (ExprRule.one l.operand).Derives) :
    Accepts (tier (.chain l) nested room) depth (ExprRule.one (.chain l)).Derives := by
  rw [tier_chain]
  exact Accepts.enter_bind (accepts_leftChain h)

theorem accepts_factor (h : Accepts nested depth (ExprRule.one .test).Derives) (room : Nat) :
    Accepts (factor nested room) depth (ExprRule.one .factor).Derives := by
  induction room with
  | zero => exact accepts_throw _
  | succ room ih =>
    refine Accepts.enter_bind (Accepts.take (by decide) (fun op => ?_) ?_)
    · refine ih.bind ?_
      rintro _ _ ⟨d, rfl, rfl⟩
      refine accepts_pure ⟨.minus ⟨op.val, List.mem_singleton.mp op.2⟩ d, ?_, rfl⟩
      simp [ExprDerivation.yield]
    · refine (accepts_atomOrCall h).imp ?_
      rintro _ _ ⟨d, rfl, rfl⟩
      exact ⟨.primary d, rfl, rfl⟩

theorem accepts_comparison (h : Accepts nested depth (ExprRule.one .test).Derives) (room : Nat) :
    Accepts (comparison nested room) depth (ExprRule.one (.chain .comparison)).Derives :=
  have hterm : Accepts (tier (.chain .term) nested room) depth _ :=
    accepts_chain (accepts_factor h room)
  have harith : Accepts (tier (.chain .arith) nested room) depth _ := accepts_chain hterm
  accepts_chain (l := .comparison) harith

theorem accepts_notTest (h : Accepts nested depth (ExprRule.one .test).Derives) (room : Nat) :
    Accepts (notTest nested room) depth (ExprRule.one .notTest).Derives := by
  induction room with
  | zero => exact accepts_throw _
  | succ room ih =>
    refine Accepts.enter_bind (Accepts.take (by decide) (fun op => ?_) ?_)
    · refine ih.bind ?_
      rintro _ _ ⟨d, rfl, rfl⟩
      refine accepts_pure ⟨.negation ⟨op.val, List.mem_singleton.mp op.2⟩ d, ?_, rfl⟩
      simp [ExprDerivation.yield]
    · refine (accepts_comparison h room).imp ?_
      rintro _ _ ⟨d, rfl, rfl⟩
      exact ⟨.positive d, rfl, rfl⟩

/-- Whatever the parser of expressions gives has a derivation. -/
theorem accepts_test (room : Nat) : Accepts (test room) depth (ExprRule.one .test).Derives := by
  induction room with
  | zero => exact accepts_throw _
  | succ room ih =>
    have hand : Accepts (tier (.chain .and) (test room) room) depth _ :=
      accepts_chain (accepts_notTest ih room)
    have hor : Accepts (tier (.chain .or) (test room) room) depth _ := accepts_chain hand
    refine Accepts.enter_bind (hor.imp ?_)
    rintro _ _ ⟨d, rfl, rfl⟩
    exact ⟨.test d, rfl, rfl⟩

end Accepts

/-- One operator with its right operand, if there is one. -/
def chainRound (l : Level) (operand : Parse Expr) (left : Expr) : Parse (Option Expr) := do
  if ← looksAt l.operators then
    let op ← next
    let right ← operand
    return some (l.join op.text left right)
  else return none

theorem leftChain_eq (l : Level) (operand : Parse Expr) :
    leftChain l.operators l.join operand = operand >>= iterate (chainRound l operand) := rfl

/-- A comma with the expression after it, if there is one. -/
def listRound (nested : Parse Expr) : Parse (Option Expr) := do
  if ← looksAt [.symbol .comma] then
    let _ ← next
    let e ← nested
    return some e
  else return none

theorem testList_eq (nested : Parse Expr) :
    testList nested = enter .testList >>= fun _ => nested >>= fun first =>
      collect (listRound nested) >>= fun others => pure (first :: others) := rfl

/-- What the parser of a rule makes of a derivation, when the tokens after it end it. For a
repetition this is said of its rounds. -/
def IsRead : {n : ExprRule} → ExprDerivation n → Prop
  | .one t, d => ∀ depth inner room rest, StopsAt t.rank rest →
      Reads (tier t (test inner) room) depth d.yield rest d.tree
        (d.stack ≤ room ∧ d.nesting ≤ inner)
  | .tail l, d => ∀ depth inner room rest fuel left, StopsAt l.rank rest → d.yield.length < fuel →
      Reads (iterateFor (chainRound l (tier l.operand (test inner) room)) fuel left) depth d.yield
        rest (d.tree left) (d.stack ≤ room ∧ d.nesting ≤ inner)
  | .testList, d => ∀ depth inner rest, StopsAt 1 rest →
      Reads (testList (test inner)) depth d.yield rest d.tree (d.nesting ≤ inner)
  | .listTail, d => ∀ depth inner rest fuel, StopsAt 1 rest → d.yield.length < fuel →
      Reads (collectFor (listRound (test inner)) fuel) depth d.yield rest d.tree (d.nesting ≤ inner)

section IsRead

variable {l : Level}

theorem isRead_test {d : ExprDerivation (.one (.chain .or))} (h : IsRead d) : IsRead d.test := by
  intro depth inner room rest hrest
  cases inner with
  | zero =>
    refine reads_tooDeep fun hfits => ?_
    exact Nat.not_succ_le_zero _ hfits.2
  | succ inner =>
    refine Reads.enter_bind ((h depth inner inner rest hrest).congr ?_)
    simp only [ExprDerivation.stack, ExprDerivation.nesting]
    omega

theorem isRead_tailNil : IsRead (ExprDerivation.tailNil (l := l)) := by
  intro depth inner room rest fuel left hrest hfuel
  obtain ⟨t, us, rfl, ht⟩ := hrest.exists_cons
  have hk : t.kind ∉ l.operators := by
    intro hmem
    rw [Level.strength_of_mem hmem] at ht
    exact Nat.lt_irrefl _ ht
  have hround : Reads (chainRound l (tier l.operand (test inner) room) left) depth [] (t :: us)
      none True := Reads.ite_neg rfl hk reads_pure
  refine (reads_iterateFor_none hfuel hround).congr ?_
  simp [ExprDerivation.stack, ExprDerivation.nesting]

theorem isRead_tailCons {op : l.Operator} {right : ExprDerivation (.one l.operand)}
    {tail : ExprDerivation (.tail l)} (hright : IsRead right) (htail : IsRead tail) :
    IsRead (.tailCons op right tail) := by
  intro depth inner room rest fuel left hrest hfuel
  simp only [ExprDerivation.yield, List.length_cons, List.length_append] at hfuel
  obtain ⟨fuel, rfl⟩ := Nat.exists_eq_add_of_lt (Nat.zero_lt_of_lt hfuel)
  have heof : op.val.kind ≠ .eof := ne_of_mem_of_not_mem op.2 (eof_notMem_operators l)
  have hright := hright depth inner room _ (tail.stopsAt_tail hrest)
  have hround : Reads (chainRound l (tier l.operand (test inner) room) left) depth
      (op.val :: right.yield) (tail.yield ++ rest)
      (some (l.join op.val.text left right.tree)) (right.stack ≤ room ∧ right.nesting ≤ inner) :=
    Reads.ite_pos rfl op.2 (Reads.next_bind heof hright.map)
  have htail := htail depth inner room rest (0 + fuel) (l.join op.val.text left right.tree) hrest
    (by omega)
  refine (reads_iterateFor_some hround htail).congr ?_
  simp only [ExprDerivation.stack, ExprDerivation.nesting]
  omega

theorem isRead_chain {first : ExprDerivation (.one l.operand)} {tail : ExprDerivation (.tail l)}
    (hfirst : IsRead first) (htail : IsRead tail) : IsRead (.chain first tail) := by
  intro depth inner room rest hrest
  have hfirst := hfirst depth inner room _ (tail.stopsAt_tail hrest)
  have htail := Reads.patience_bind fun fuel hfuel =>
    htail depth inner room rest fuel first.tree hrest hfuel
  rw [tier_chain, leftChain_eq]
  refine Reads.enter_bind ((hfirst.bind htail).congr ?_)
  simp only [ExprDerivation.stack, ExprDerivation.nesting]
  omega

theorem isRead_negation {op : TokenOf (.keyword .notWord)} {d : ExprDerivation (.one .notTest)}
    (h : IsRead d) : IsRead (.negation op d) := by
  intro depth inner room rest hrest
  cases room with
  | zero =>
    refine reads_tooDeep fun hfits => ?_
    exact Nat.not_succ_le_zero _ hfits.1
  | succ room =>
    refine Reads.enter_bind (Reads.ite_pos rfl (by simp [op.2]) ?_)
    refine Reads.next_bind (by simp [op.2]) ?_
    refine (h depth inner room rest hrest).map.congr ?_
    simp only [ExprDerivation.stack, ExprDerivation.nesting]
    omega

/-- The first token of an operand without an operator of its own. -/
theorem exists_head {t : Tier} (d : ExprDerivation (.one t)) (rest : List Token) :
    ∃ u us, d.yield ++ rest = u :: us ∧ u.kind ∈ t.starts := by
  obtain ⟨u, us, hy, hu⟩ := d.yield_head rfl
  exact ⟨u, us ++ rest, by rw [hy, List.cons_append], hu⟩

theorem isRead_positive {d : ExprDerivation (.one (.chain .comparison))} (h : IsRead d) :
    IsRead (.positive d) := by
  intro depth inner room rest hrest
  cases room with
  | zero =>
    refine reads_tooDeep fun hfits => ?_
    exact Nat.not_succ_le_zero _ hfits.1
  | succ room =>
    obtain ⟨u, us, hu, hk⟩ := exists_head d rest
    have hnot : u.kind ∉ [Kind.keyword .notWord] := fun hmem =>
      absurd (List.mem_singleton.mp hmem ▸ hk) (by decide)
    refine Reads.enter_bind (Reads.ite_neg hu hnot ((h depth inner room rest hrest).congr ?_))
    simp only [ExprDerivation.stack, ExprDerivation.nesting]
    omega

theorem isRead_minus {op : TokenOf (.symbol .minus)} {d : ExprDerivation (.one .factor)}
    (h : IsRead d) : IsRead (.minus op d) := by
  intro depth inner room rest hrest
  cases room with
  | zero =>
    refine reads_tooDeep fun hfits => ?_
    exact Nat.not_succ_le_zero _ hfits.1
  | succ room =>
    refine Reads.enter_bind (Reads.ite_pos rfl (by simp [op.2]) ?_)
    refine Reads.next_bind (by simp [op.2]) ?_
    refine (h depth inner room rest hrest).map.congr ?_
    simp only [ExprDerivation.stack, ExprDerivation.nesting]
    omega

theorem isRead_primary {d : ExprDerivation (.one .atomOrCall)} (h : IsRead d) :
    IsRead (.primary d) := by
  intro depth inner room rest hrest
  cases room with
  | zero =>
    refine reads_tooDeep fun hfits => ?_
    exact Nat.not_succ_le_zero _ hfits.1
  | succ room =>
    obtain ⟨u, us, hu, hk⟩ := exists_head d rest
    have hminus : u.kind ∉ [Kind.symbol .minus] := fun hmem =>
      absurd (List.mem_singleton.mp hmem ▸ hk) (by decide)
    refine Reads.enter_bind (Reads.ite_neg hu hminus ((h depth inner 0 rest hrest).congr ?_))
    cases d <;> simp [ExprDerivation.stack, ExprDerivation.nesting]

theorem isRead_name {x : TokenOf .name} : IsRead (.name x) := by
  intro depth inner room rest hrest
  refine Reads.enter_bind (Reads.next_bind (by simp [x.2]) ?_)
  simp only [x.2]
  refine reads_pure.congr ?_
  simp [ExprDerivation.stack, ExprDerivation.nesting]

theorem isRead_literal {t : Token} {e : Expr} (h : t.literal? = some e) :
    IsRead (.literal t e h) := by
  intro depth inner room rest hrest
  have heof : t.kind ≠ .eof := by
    rcases Token.kind_of_literal? h with hk | hk | hk <;> simp [hk]
  have hfits : True ↔ (ExprDerivation.literal t e h).stack ≤ room ∧
      (ExprDerivation.literal t e h).nesting ≤ inner := by
    simp [ExprDerivation.stack, ExprDerivation.nesting]
  refine Reads.enter_bind (Reads.next_bind heof (Reads.congr ?_ hfits))
  unfold Token.literal? at h
  split at h
  · next hk =>
    simp only [hk, number]
    cases hn : Number.readInt t.text with
    | error e => simp [hn, Except.toOption] at h
    | ok n =>
      simp only [hn, Except.toOption, Option.map_some, Option.some.injEq] at h
      exact h ▸ reads_pure
  · next hk =>
    simp only [hk, float]
    cases hx : Number.readFloat t.text with
    | error e => simp [hx, Except.toOption] at h
    | ok x =>
      simp only [hx, Except.toOption, Option.map_some, Option.some.injEq] at h
      exact h ▸ reads_pure
  · next hk =>
    simp only [hk, string]
    cases hcs : Text.Literal.decode t.text.toList with
    | error r => simp [hcs, Except.toOption] at h
    | ok cs =>
      simp only [hcs, Except.toOption, Option.map_some, Option.some.injEq] at h
      exact h ▸ reads_pure
  · cases h

theorem isRead_paren {lp : TokenOf (.symbol .lpar)} {d : ExprDerivation (.one .test)}
    {rp : TokenOf (.symbol .rpar)} (h : IsRead d) : IsRead (.paren lp d rp) := by
  intro depth inner room rest hrest
  refine Reads.enter_bind (Reads.next_bind (by simp [lp.2]) ?_)
  simp only [lp.2]
  have hclose : Reads (expect .atom (.symbol .rpar) >>= fun _ => pure d.tree) depth [rp.val] rest
      d.tree True := Reads.expect_bind nofun rp.2 reads_pure
  refine Reads.congr (Reads.bind (h depth inner room _ (rp.stopsAt Nat.two_pos rest)) hclose) ?_
  cases d
  simp [ExprDerivation.stack, ExprDerivation.nesting]

theorem isRead_listNil : IsRead .listNil := by
  intro depth inner rest fuel hrest hfuel
  obtain ⟨t, us, rfl, ht⟩ := hrest.exists_cons
  have hk : t.kind ∉ [Kind.symbol .comma] := by
    intro hmem
    rw [List.mem_singleton.mp hmem] at ht
    exact absurd ht (by decide)
  have hround : Reads (listRound (test inner)) depth [] (t :: us) none True :=
    Reads.ite_neg rfl hk reads_pure
  refine (reads_collectFor_none hfuel hround).congr ?_
  simp [ExprDerivation.nesting]

theorem isRead_listCons {comma : TokenOf (.symbol .comma)} {e : ExprDerivation (.one .test)}
    {tail : ExprDerivation .listTail} (he : IsRead e) (htail : IsRead tail) :
    IsRead (.listCons comma e tail) := by
  intro depth inner rest fuel hrest hfuel
  simp only [ExprDerivation.yield, List.length_cons, List.length_append] at hfuel
  obtain ⟨fuel, rfl⟩ := Nat.exists_eq_add_of_lt (Nat.zero_lt_of_lt hfuel)
  have he := he depth inner e.stack _ (tail.stopsAt_listTail hrest)
  have hround : Reads (listRound (test inner)) depth (comma.val :: e.yield) (tail.yield ++ rest)
      (some e.tree) (e.stack ≤ e.stack ∧ e.nesting ≤ inner) :=
    Reads.ite_pos rfl (by simp [comma.2]) (Reads.next_bind (by simp [comma.2]) he.map)
  have htail := htail depth inner rest (0 + fuel) hrest (by omega)
  refine (reads_collectFor_some hround htail).congr ?_
  simp only [ExprDerivation.nesting]
  omega

theorem isRead_list {first : ExprDerivation (.one .test)} {tail : ExprDerivation .listTail}
    (hfirst : IsRead first) (htail : IsRead tail) : IsRead (.list first tail) := by
  intro depth inner rest hrest
  have hfirst := hfirst depth inner first.stack _ (tail.stopsAt_listTail hrest)
  have htail := Reads.patience_bind fun fuel hfuel => htail depth inner rest fuel hrest hfuel
  rw [testList_eq]
  refine Reads.enter_bind (Reads.congr (Reads.bind hfirst htail.map) ?_)
  simp only [ExprDerivation.nesting]
  omega

/-- A name before the token that ends its phrase is not called. -/
theorem isRead_atom {d : ExprDerivation (.one .atom)} (h : IsRead d) : IsRead (.atom d) := by
  intro depth inner room rest hrest
  obtain ⟨u, us, hu, hk⟩ := exists_head d rest
  obtain ⟨t, more, rfl, ht⟩ := hrest.exists_cons
  have hcall : t.kind ∉ [Kind.symbol .lpar] := by
    intro hmem
    rw [List.mem_singleton.mp hmem] at ht
    exact absurd ht (by decide)
  refine Reads.enter_bind (Reads.peek_bind hu ?_)
  have hatom := (h depth inner room _ (hrest.mono (Nat.le_succ _)))
  refine Reads.congr (Reads.bind_nil hatom ?_) ?_
  · split
    · exact Reads.ite_neg rfl hcall reads_pure
    · exact reads_pure
  · cases d <;> simp [ExprDerivation.stack, ExprDerivation.nesting]

/-- A name before a parenthesis is read by looking at it first. -/
theorem reads_called {f : TokenOf .name} {lp : TokenOf (.symbol .lpar)} {inner depth : Nat}
    {ts rest : List Token} {e : Expr} {P : Prop}
    (h : Reads (call (test inner) f.val.text) depth (lp.val :: ts) rest e P) :
    Reads (atomOrCall (test inner)) depth (f.val :: lp.val :: ts) rest e P := by
  refine Reads.enter_bind (Reads.peek_bind rfl ?_)
  have hname : Reads (atom (test inner)) depth [f.val] (lp.val :: ts ++ rest)
      (.var f.val.text) True := by
    refine Reads.enter_bind (Reads.next_bind (by simp [f.2]) ?_)
    simp only [f.2]
    exact reads_pure
  refine Reads.congr (Reads.bind hname ?_) (iff_of_eq (true_and P))
  rw [if_pos f.2]
  exact Reads.ite_pos rfl (by simp [lp.2]) h

theorem isRead_callEmpty {f : TokenOf .name} {lp : TokenOf (.symbol .lpar)}
    {rp : TokenOf (.symbol .rpar)} : IsRead (.callEmpty f lp rp) := by
  intro depth inner room rest hrest
  refine reads_called (Reads.enter_bind (Reads.expect_bind nofun lp.2 ?_))
  refine Reads.ite_pos rfl (by simp [rp.2]) ?_
  refine Reads.expect_bind nofun rp.2 (reads_pure.congr ?_)
  simp [ExprDerivation.stack, ExprDerivation.nesting]

theorem isRead_call {f : TokenOf .name} {lp : TokenOf (.symbol .lpar)}
    {args : ExprDerivation .testList} {rp : TokenOf (.symbol .rpar)} (h : IsRead args) :
    IsRead (.call f lp args rp) := by
  intro depth inner room rest hrest
  refine reads_called (Reads.enter_bind (Reads.expect_bind nofun lp.2 ?_))
  obtain ⟨t, ts, hy, ht⟩ := args.yield_head rfl
  have hnot : t.kind ∉ [Kind.symbol .rpar] := fun hmem =>
    absurd (List.mem_singleton.mp hmem ▸ ht) (by decide)
  have hargs := h depth inner _ (rp.stopsAt Nat.one_pos rest)
  refine Reads.ite_neg (by rw [hy]; rfl) hnot (Reads.congr (Reads.bind (Q := True) hargs ?_) ?_)
  · exact Reads.expect_bind nofun rp.2 reads_pure
  · simp [ExprDerivation.stack, ExprDerivation.nesting]

end IsRead

/-- Whatever has a derivation is read by the parser of its rule. -/
theorem isRead {n : ExprRule} (d : ExprDerivation n) : IsRead d := by
  induction d with
  | test d ih => exact isRead_test ih
  | chain first tail ihf iht => exact isRead_chain ihf iht
  | tailNil => exact isRead_tailNil
  | tailCons op right tail ihr iht => exact isRead_tailCons ihr iht
  | negation op d ih => exact isRead_negation ih
  | positive d ih => exact isRead_positive ih
  | minus op d ih => exact isRead_minus ih
  | primary d ih => exact isRead_primary ih
  | atom d ih => exact isRead_atom ih
  | callEmpty f lp rp => exact isRead_callEmpty
  | call f lp args rp ih => exact isRead_call ih
  | name x => exact isRead_name
  | literal t e h => exact isRead_literal h
  | paren lp d rp ih => exact isRead_paren ih
  | list first tail ihf iht => exact isRead_list ihf iht
  | listNil => exact isRead_listNil
  | listCons comma e tail ihe iht => exact isRead_listCons ihe iht

/-- Expressions with a derivation are parsed, if they are not nested too deep. -/
theorem reads_test (d : ExprDerivation (.one .test)) {rest : List Token} (h : StopsAt 2 rest)
    (depth room : Nat) : Reads (test room) depth d.yield rest d.tree (d.nesting ≤ room) := by
  refine (isRead d depth room d.stack rest h).congr ?_
  simp

theorem reads_testList (d : ExprDerivation .testList) {rest : List Token} (h : StopsAt 1 rest)
    (depth room : Nat) :
    Reads (testList (test room)) depth d.yield rest d.tree (d.nesting ≤ room) :=
  isRead d depth room rest h

end TinyScript.Parser
