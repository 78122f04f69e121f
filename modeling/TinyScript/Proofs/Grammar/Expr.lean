import TinyScript.Parser.Expr

/-!
# Derivations of expressions

The grammar of expressions as a type of derivations, given without reference to the parser:

    test_list    = test { "," test }
    test         = or_test
    or_test      = and_test { "or" and_test }
    and_test     = not_test { "and" not_test }
    not_test     = "not" not_test | comparison
    comparison   = arith_expr { ("==" | "!=" | "<" | ">" | "<=" | ">=") arith_expr }
    arith_expr   = term { ("+" | "-") term }
    term         = factor { ("*" | "/" | "%") factor }
    factor       = "-" factor | atom_or_call
    atom_or_call = atom | NAME "(" [ test_list ] ")"
    atom         = NAME | NUMBER | FLOAT | STRING | "(" test ")"

A derivation knows the tokens it spans (`yield`) and the expression it stands for (`tree`). The five
rules with operators of two operands have one shape and differ only in their `Level`; a repetition
in braces is a rule of its own, whose tree is a function of what stands to its left.

`unique` says that the grammar is unambiguous: a token list has at most one derivation by each rule,
even when more tokens follow, as long as the first of them cannot continue the phrase.
-/

namespace TinyScript

/-- The expression that a literal token stands for, if its text can be converted. -/
def Token.literal? (t : Token) : Option Expr :=
  match t.kind with
  | .number => (Number.readInt t.text).toOption.map Expr.int
  | .float => (Number.readFloat t.text).toOption.map Expr.float
  | .string =>
    (Text.Literal.decode t.text.toList).toOption.map fun cs => .str (String.ofList cs)
  | _ => none

namespace Grammar

/-- A token of a given kind. -/
abbrev TokenOf (k : Kind) := {t : Token // t.kind = k}

/-- The levels of operators with two operands, loosest first. -/
inductive Level where
  | or | and | comparison | arith | term
  deriving DecidableEq, Repr

/-- The rules for one expression. -/
inductive Tier where
  | test
  | chain (l : Level)
  | notTest
  | factor
  | atomOrCall
  | atom
  deriving DecidableEq, Repr

/-- The rules of the grammar of expressions, the repetitions among them included. -/
inductive ExprRule where
  | one (t : Tier)
  /-- Operators of a level, each with its right operand. -/
  | tail (l : Level)
  | testList
  /-- Commas, each with the expression after it. -/
  | listTail
  deriving DecidableEq, Repr

namespace Level

def operators : Level → List Kind
  | or => [.keyword .orWord]
  | and => [.keyword .andWord]
  | comparison => Parser.comparisonKinds
  | arith => [.symbol .plus, .symbol .minus]
  | term => [.symbol .star, .symbol .slash, .symbol .percent]

/-- The node that an operator of the level makes of its operands. -/
def join : Level → String → Expr → Expr → Expr
  | or | and => .logic
  | comparison => .compare
  | arith | term => .arith

/-- The rule for the operands. -/
def operand : Level → Tier
  | or => .chain .and
  | and => .notTest
  | comparison => .chain .arith
  | arith => .chain .term
  | term => .factor

/-- A token that is an operator of the level. -/
abbrev Operator (l : Level) := {t : Token // t.kind ∈ l.operators}

end Level

/-- What a phrase of a rule stands for. The tail of a chain waits for the operand on its left. -/
abbrev ExprRule.Tree : ExprRule → Type
  | one _ => Expr
  | tail _ => Expr → Expr
  | testList | listTail => List Expr

/-- Derivations by a rule. -/
inductive ExprDerivation : ExprRule → Type where
  | test (d : ExprDerivation (.one (.chain .or))) : ExprDerivation (.one .test)
  | chain {l : Level} (first : ExprDerivation (.one l.operand)) (rest : ExprDerivation (.tail l)) :
      ExprDerivation (.one (.chain l))
  | tailNil {l : Level} : ExprDerivation (.tail l)
  | tailCons {l : Level} (op : l.Operator) (right : ExprDerivation (.one l.operand))
      (rest : ExprDerivation (.tail l)) : ExprDerivation (.tail l)
  | negation (op : TokenOf (.keyword .notWord)) (d : ExprDerivation (.one .notTest)) :
      ExprDerivation (.one .notTest)
  | positive (d : ExprDerivation (.one (.chain .comparison))) : ExprDerivation (.one .notTest)
  | minus (op : TokenOf (.symbol .minus)) (d : ExprDerivation (.one .factor)) :
      ExprDerivation (.one .factor)
  | primary (d : ExprDerivation (.one .atomOrCall)) : ExprDerivation (.one .factor)
  | atom (d : ExprDerivation (.one .atom)) : ExprDerivation (.one .atomOrCall)
  | callEmpty (f : TokenOf .name) (l : TokenOf (.symbol .lpar)) (r : TokenOf (.symbol .rpar)) :
      ExprDerivation (.one .atomOrCall)
  | call (f : TokenOf .name) (l : TokenOf (.symbol .lpar)) (args : ExprDerivation .testList)
      (r : TokenOf (.symbol .rpar)) : ExprDerivation (.one .atomOrCall)
  | name (x : TokenOf .name) : ExprDerivation (.one .atom)
  | literal (t : Token) (e : Expr) (h : t.literal? = some e) : ExprDerivation (.one .atom)
  | paren (l : TokenOf (.symbol .lpar)) (d : ExprDerivation (.one .test))
      (r : TokenOf (.symbol .rpar)) : ExprDerivation (.one .atom)
  | list (first : ExprDerivation (.one .test)) (rest : ExprDerivation .listTail) :
      ExprDerivation .testList
  | listNil : ExprDerivation .listTail
  | listCons (comma : TokenOf (.symbol .comma)) (e : ExprDerivation (.one .test))
      (rest : ExprDerivation .listTail) : ExprDerivation .listTail

namespace ExprDerivation

/-- The tokens that a derivation spans. -/
@[simp] def yield : {n : ExprRule} → ExprDerivation n → List Token
  | _, test d | _, positive d | _, primary d | _, atom d => d.yield
  | _, chain first rest => first.yield ++ rest.yield
  | _, tailNil | _, listNil => []
  | _, tailCons op right rest => op.val :: (right.yield ++ rest.yield)
  | _, negation op d => op.val :: d.yield
  | _, minus op d => op.val :: d.yield
  | _, callEmpty f l r => [f.val, l.val, r.val]
  | _, call f l args r => f.val :: l.val :: (args.yield ++ [r.val])
  | _, name x => [x.val]
  | _, literal t _ _ => [t]
  | _, paren l d r => l.val :: (d.yield ++ [r.val])
  | _, list first rest => first.yield ++ rest.yield
  | _, listCons comma e rest => comma.val :: (e.yield ++ rest.yield)

/-- The expression that a derivation stands for. A tail joins its first operator to the left operand
before it goes on, so operators of one level group to the left. -/
@[simp] def tree : {n : ExprRule} → ExprDerivation n → n.Tree
  | _, test d | _, positive d | _, primary d | _, atom d => d.tree
  | _, chain first rest => rest.tree first.tree
  | _, tailNil => id
  | _, @tailCons l op right rest => fun left => rest.tree (l.join op.val.text left right.tree)
  | _, negation op d => .logicUnary op.val.text d.tree
  | _, minus op d => .arithUnary op.val.text d.tree
  | _, callEmpty f _ _ => .call f.val.text []
  | _, call f _ args _ => .call f.val.text args.tree
  | _, name x => .var x.val.text
  | _, literal _ e _ => e
  | _, paren _ d _ => d.tree
  | _, list first rest => first.tree :: rest.tree
  | _, listNil => []
  | _, listCons _ e rest => e.tree :: rest.tree

/-- No name stands before a parenthesis without being called; `following` are the tokens after the
phrase. -/
def NamesCalled : {n : ExprRule} → ExprDerivation n → (following : List Token) → Prop
  | _, test d, following | _, positive d, following | _, primary d, following
  | _, atom d, following | _, negation _ d, following | _, minus _ d, following =>
    d.NamesCalled following
  | _, chain first rest, following =>
    first.NamesCalled (rest.yield ++ following) ∧ rest.NamesCalled following
  | _, tailCons _ right rest, following =>
    right.NamesCalled (rest.yield ++ following) ∧ rest.NamesCalled following
  | _, tailNil, _ | _, listNil, _ | _, callEmpty .., _ | _, literal .., _ => True
  | _, call _ _ args r, following => args.NamesCalled (r.val :: following)
  | _, name _, following => ∀ t ∈ following.head?, t.kind ≠ .symbol .lpar
  | _, paren _ d r, following => d.NamesCalled (r.val :: following)
  | _, list first rest, following =>
    first.NamesCalled (rest.yield ++ following) ∧ rest.NamesCalled following
  | _, listCons _ e rest, following =>
    e.NamesCalled (rest.yield ++ following) ∧ rest.NamesCalled following

end ExprDerivation

/-- How tightly a token binds to the expression on its left; zero if it does not. Every rule has a
rank, and its phrases are continued by exactly the tokens whose strength is not below it. -/
def strength : Kind → Nat
  | .symbol .comma => 1
  | .keyword .orWord => 2
  | .keyword .andWord => 3
  | .symbol .eq | .symbol .ne | .symbol .lt | .symbol .gt | .symbol .le | .symbol .ge => 4
  | .symbol .plus | .symbol .minus => 5
  | .symbol .star | .symbol .slash | .symbol .percent => 6
  | .symbol .lpar => 7
  | _ => 0

def Level.rank : Level → Nat
  | or => 2
  | and => 3
  | comparison => 4
  | arith => 5
  | term => 6

def Tier.rank : Tier → Nat
  | test => 2
  | chain l => l.rank
  | notTest => 4
  | factor | atomOrCall => 7
  | atom => 8

def ExprRule.rank : ExprRule → Nat
  | one t => t.rank
  | tail l => l.rank
  | testList | listTail => 1

theorem Level.strength_of_mem {l : Level} {k : Kind} (h : k ∈ l.operators) :
    strength k = l.rank := by
  revert k
  cases l <;> decide

theorem Level.rank_operand (l : Level) : l.operand.rank = l.rank + 1 := by
  cases l <;> rfl

/-- The tokens begin with one that does not continue a phrase of the given rank. -/
def StopsAt (rank : Nat) : List Token → Prop
  | [] => False
  | t :: _ => strength t.kind < rank

@[simp] theorem stopsAt_cons {rank : Nat} {t : Token} {ts : List Token} :
    StopsAt rank (t :: ts) ↔ strength t.kind < rank := Iff.rfl

theorem StopsAt.mono {rank rank' : Nat} {ts : List Token} (h : StopsAt rank ts)
    (hle : rank ≤ rank') : StopsAt rank' ts := by
  cases ts with
  | nil => exact h
  | cons t ts => exact Nat.lt_of_lt_of_le h hle

theorem StopsAt.exists_cons {rank : Nat} {ts : List Token} (h : StopsAt rank ts) :
    ∃ t us, ts = t :: us ∧ strength t.kind < rank := by
  cases ts with
  | nil => exact h.elim
  | cons t us => exact ⟨t, us, rfl, h⟩

theorem TokenOf.stopsAt {k : Kind} (t : TokenOf k) {rank : Nat} (h : strength k < rank)
    (ts : List Token) : StopsAt rank (t.val :: ts) := by
  rw [stopsAt_cons, t.2]
  exact h

/-- An operator continues the phrases of its own level. -/
theorem Level.not_stopsAt_operator {l : Level} (op : l.Operator) (ts : List Token) :
    ¬StopsAt l.rank (op.val :: ts) := by
  rw [stopsAt_cons, Level.strength_of_mem op.2]
  exact Nat.lt_irrefl _

/-- The kinds of tokens with which an atom begins. -/
def atomKinds : List Kind := [.name, .number, .float, .string, .symbol .lpar]

/-- The kinds of tokens with which a phrase begins. -/
def Tier.starts : Tier → List Kind
  | atom | atomOrCall => atomKinds
  | factor | chain .comparison | chain .arith | chain .term => .symbol .minus :: atomKinds
  | test | notTest | chain .or | chain .and => .keyword .notWord :: .symbol .minus :: atomKinds

/-- Repetitions may be empty, so they have no beginning of their own. -/
def ExprRule.starts? : ExprRule → Option (List Kind)
  | one t => some t.starts
  | testList => some Tier.test.starts
  | tail _ | listTail => none

end Grammar

theorem Token.kind_of_literal? {t : Token} {e : Expr} (h : t.literal? = some e) :
    t.kind = .number ∨ t.kind = .float ∨ t.kind = .string := by
  unfold Token.literal? at h
  split at h <;> simp_all

theorem Token.false_of_literal? {t : Token} {e : Expr} (h : t.literal? = some e) {k : Kind}
    (hk : t.kind = k) (hne : k ∉ [Kind.number, .float, .string]) : False := by
  apply hne
  rw [← hk]
  simpa using kind_of_literal? h

theorem Token.kind_mem_atomKinds {t : Token} {e : Expr} (h : t.literal? = some e) :
    t.kind ∈ Grammar.atomKinds := by
  rcases kind_of_literal? h with hk | hk | hk <;> rw [hk] <;> decide

namespace Grammar

namespace ExprDerivation

/-- The operand of a chain ends where its tail begins. -/
theorem stopsAt_tail {l : Level} (d : ExprDerivation (.tail l)) {rest : List Token}
    (h : StopsAt l.rank rest) : StopsAt (ExprRule.one l.operand).rank (d.yield ++ rest) := by
  change StopsAt l.operand.rank (d.yield ++ rest)
  rw [l.rank_operand]
  cases d with
  | tailNil => exact h.mono (Nat.le_succ _)
  | tailCons op right more =>
    simp only [yield, List.cons_append, stopsAt_cons, Level.strength_of_mem op.2]
    exact Nat.lt_succ_self _

theorem stopsAt_listTail (d : ExprDerivation .listTail) {rest : List Token}
    (h : StopsAt 1 rest) : StopsAt (ExprRule.one .test).rank (d.yield ++ rest) := by
  cases d with
  | listNil => exact h.mono (Nat.le_succ _)
  | listCons comma e more =>
    simp only [yield, List.cons_append, stopsAt_cons, comma.2]
    decide

/-- A phrase that cannot be empty begins with one of the tokens that its rule allows there. -/
theorem yield_head {n : ExprRule} (d : ExprDerivation n) {ks : List Kind}
    (h : n.starts? = some ks) : ∃ t ts, d.yield = t :: ts ∧ t.kind ∈ ks := by
  induction d generalizing ks with
  | tailNil | tailCons | listNil | listCons => cases h
  | test d ih | atom d ih =>
    obtain ⟨t, ts, hy, ht⟩ := ih rfl
    cases h
    exact ⟨t, ts, hy, ht⟩
  | positive d ih | primary d ih =>
    obtain ⟨t, ts, hy, ht⟩ := ih rfl
    cases h
    exact ⟨t, ts, hy, List.mem_cons_of_mem _ ht⟩
  | @chain l first more ih _ =>
    obtain ⟨t, ts, hy, ht⟩ := ih rfl
    cases h
    refine ⟨t, ts ++ more.yield, by simp [yield, hy], ?_⟩
    cases l <;> exact ht
  | list first more ih _ =>
    obtain ⟨t, ts, hy, ht⟩ := ih rfl
    cases h
    exact ⟨t, ts ++ more.yield, by simp [yield, hy], ht⟩
  | negation op d _ | minus op d _ =>
    cases h
    exact ⟨_, _, rfl, by simp [Tier.starts, op.2]⟩
  | callEmpty x _ _ | call x _ _ _ | name x | paren x _ _ =>
    cases h
    exact ⟨_, _, rfl, by simp [Tier.starts, atomKinds, x.2]⟩
  | literal t e he =>
    cases h
    exact ⟨_, _, rfl, Token.kind_mem_atomKinds he⟩

/-- Two phrases that begin with the same tokens cannot begin with different kinds of tokens. -/
theorem kind_mem_of_yield_eq {n : ExprRule} (d : ExprDerivation n) {ks : List Kind}
    (h : n.starts? = some ks) {rest us : List Token} {u : Token}
    (heq : d.yield ++ rest = u :: us) : u.kind ∈ ks := by
  obtain ⟨t, ts, hy, ht⟩ := d.yield_head h
  rw [hy, List.cons_append, List.cons.injEq] at heq
  exact heq.1 ▸ ht

/-- An atom that begins with a name is that name. -/
theorem rest_eq_of_name (d : ExprDerivation (.one .atom)) {f : TokenOf .name}
    {rest us : List Token} (h : d.yield ++ rest = f.val :: us) : rest = us := by
  cases d with
  | name x => exact (List.cons.inj h).2
  | literal t e he =>
    have hk : t.kind = .name := (List.cons.inj h).1 ▸ f.2
    exact (Token.false_of_literal? he hk (by decide)).elim
  | paren l d r =>
    have hk : l.val.kind = .name := (List.cons.inj h).1 ▸ f.2
    simp [l.2] at hk

/-- A name before a parenthesis is no atom, if the phrase ends there. -/
theorem not_stopsAt_of_call (d : ExprDerivation (.one .atom)) {f : TokenOf .name}
    {l : TokenOf (.symbol .lpar)} {rest us : List Token}
    (h : d.yield ++ rest = f.val :: l.val :: us) : ¬StopsAt Tier.atomOrCall.rank rest := by
  rw [d.rest_eq_of_name h, stopsAt_cons, l.2]
  decide

/-- Which derivation by the rule begins a list of tokens, and where it ends, is determined, if the
tokens after it do not continue it. -/
def Determined {n : ExprRule} (d : ExprDerivation n) : Prop :=
  ∀ (d' : ExprDerivation n) {rest rest' : List Token}, d.yield ++ rest = d'.yield ++ rest' →
    StopsAt n.rank rest → StopsAt n.rank rest' → d = d' ∧ rest = rest'

section Determined

-- The first token decides between the alternatives of a rule; what follows decides whether a
-- repetition goes on, and whether a name is called.

theorem determined_test {d : ExprDerivation (.one (.chain .or))} (ih : Determined d) :
    Determined (.test d) := by
  intro d' rest rest' h hr hr'
  cases d' with
  | test d' =>
    obtain ⟨rfl, rfl⟩ := ih d' h hr hr'
    exact ⟨rfl, rfl⟩

theorem determined_chain {l : Level} {first : ExprDerivation (.one l.operand)}
    {tail : ExprDerivation (.tail l)} (ihf : Determined first) (iht : Determined tail) :
    Determined (.chain first tail) := by
  intro d' rest rest' h hr hr'
  cases d' with
  | chain first' tail' =>
    simp only [yield, List.append_assoc] at h
    obtain ⟨rfl, htail⟩ := ihf first' h (tail.stopsAt_tail hr) (tail'.stopsAt_tail hr')
    obtain ⟨rfl, rfl⟩ := iht tail' htail hr hr'
    exact ⟨rfl, rfl⟩

theorem determined_tailNil {l : Level} : Determined (.tailNil : ExprDerivation (.tail l)) := by
  intro d' rest rest' h hr hr'
  cases d' with
  | tailNil => exact ⟨rfl, h⟩
  | tailCons op right tail =>
    simp only [yield, List.nil_append, List.cons_append] at h
    exact absurd (h ▸ hr) (Level.not_stopsAt_operator op _)

theorem determined_tailCons {l : Level} {op} {right : ExprDerivation (.one l.operand)}
    {tail : ExprDerivation (.tail l)} (ihr : Determined right) (iht : Determined tail) :
    Determined (.tailCons op right tail) := by
  intro d' rest rest' h hr hr'
  cases d' with
  | tailNil =>
    simp only [yield, List.nil_append, List.cons_append] at h
    exact absurd (h ▸ hr') (Level.not_stopsAt_operator op _)
  | tailCons op' right' tail' =>
    simp only [yield, List.cons_append, List.append_assoc, List.cons.injEq] at h
    obtain rfl := Subtype.ext h.1
    obtain ⟨rfl, htail⟩ := ihr right' h.2 (tail.stopsAt_tail hr) (tail'.stopsAt_tail hr')
    obtain ⟨rfl, rfl⟩ := iht tail' htail hr hr'
    exact ⟨rfl, rfl⟩

theorem determined_negation {op} {d : ExprDerivation (.one .notTest)} (ih : Determined d) :
    Determined (.negation op d) := by
  intro d' rest rest' h hr hr'
  cases d' with
  | negation op' d' =>
    simp only [yield, List.cons_append, List.cons.injEq] at h
    obtain rfl := Subtype.ext h.1
    obtain ⟨rfl, rfl⟩ := ih d' h.2 hr hr'
    exact ⟨rfl, rfl⟩
  | positive d' =>
    have hk := d'.kind_mem_of_yield_eq rfl h.symm
    simp [op.2, Tier.starts, atomKinds] at hk

theorem determined_positive {d : ExprDerivation (.one (.chain .comparison))} (ih : Determined d) :
    Determined (.positive d) := by
  intro d' rest rest' h hr hr'
  cases d' with
  | negation op' d' =>
    have hk := d.kind_mem_of_yield_eq rfl h
    simp [op'.2, Tier.starts, atomKinds] at hk
  | positive d' =>
    obtain ⟨rfl, rfl⟩ := ih d' h hr hr'
    exact ⟨rfl, rfl⟩

theorem determined_minus {op} {d : ExprDerivation (.one .factor)} (ih : Determined d) :
    Determined (.minus op d) := by
  intro d' rest rest' h hr hr'
  cases d' with
  | minus op' d' =>
    simp only [yield, List.cons_append, List.cons.injEq] at h
    obtain rfl := Subtype.ext h.1
    obtain ⟨rfl, rfl⟩ := ih d' h.2 hr hr'
    exact ⟨rfl, rfl⟩
  | primary d' =>
    have hk := d'.kind_mem_of_yield_eq rfl h.symm
    simp [op.2, Tier.starts, atomKinds] at hk

theorem determined_primary {d : ExprDerivation (.one .atomOrCall)} (ih : Determined d) :
    Determined (.primary d) := by
  intro d' rest rest' h hr hr'
  cases d' with
  | minus op' d' =>
    have hk := d.kind_mem_of_yield_eq rfl h
    simp [op'.2, Tier.starts, atomKinds] at hk
  | primary d' =>
    obtain ⟨rfl, rfl⟩ := ih d' h hr hr'
    exact ⟨rfl, rfl⟩

theorem determined_atom {d : ExprDerivation (.one .atom)} (ih : Determined d) :
    Determined (.atom d) := by
  intro d' rest rest' h hr hr'
  cases d' with
  | atom d' =>
    obtain ⟨rfl, rfl⟩ := ih d' h (hr.mono (Nat.le_succ _)) (hr'.mono (Nat.le_succ _))
    exact ⟨rfl, rfl⟩
  | callEmpty f l r => exact absurd hr (d.not_stopsAt_of_call h)
  | call f l args r => exact absurd hr (d.not_stopsAt_of_call h)

theorem determined_callEmpty {f l r} : Determined (.callEmpty f l r) := by
  intro d' rest rest' h hr hr'
  cases d' with
  | atom d' => exact absurd hr' (d'.not_stopsAt_of_call h.symm)
  | callEmpty f' l' r' =>
    simp only [yield, List.cons_append, List.nil_append, List.cons.injEq] at h
    obtain rfl := Subtype.ext h.1
    obtain rfl := Subtype.ext h.2.1
    obtain rfl := Subtype.ext h.2.2.1
    exact ⟨rfl, h.2.2.2⟩
  | call f' l' args r' =>
    simp only [yield, List.cons_append, List.nil_append, List.append_assoc, List.cons.injEq] at h
    have hk := args.kind_mem_of_yield_eq rfl h.2.2.symm
    simp [r.2, Tier.starts, atomKinds] at hk

theorem determined_call {f l r} {args : ExprDerivation .testList} (ih : Determined args) :
    Determined (.call f l args r) := by
  intro d' rest rest' h hr hr'
  cases d' with
  | atom d' => exact absurd hr' (d'.not_stopsAt_of_call h.symm)
  | callEmpty f' l' r' =>
    simp only [yield, List.cons_append, List.nil_append, List.append_assoc, List.cons.injEq] at h
    have hk := args.kind_mem_of_yield_eq rfl h.2.2
    simp [r'.2, Tier.starts, atomKinds] at hk
  | call f' l' args' r' =>
    simp only [yield, List.cons_append, List.nil_append, List.append_assoc, List.cons.injEq] at h
    obtain rfl := Subtype.ext h.1
    obtain rfl := Subtype.ext h.2.1
    obtain ⟨rfl, hclose⟩ := ih args' h.2.2 (r.stopsAt Nat.one_pos _) (r'.stopsAt Nat.one_pos _)
    obtain rfl := Subtype.ext (List.cons.inj hclose).1
    exact ⟨rfl, (List.cons.inj hclose).2⟩

theorem determined_name {x} : Determined (.name x) := by
  intro d' rest rest' h hr hr'
  cases d' with
  | name x' =>
    obtain rfl := Subtype.ext (List.cons.inj h).1
    exact ⟨rfl, (List.cons.inj h).2⟩
  | literal t e he =>
    have hk : t.kind = .name := (List.cons.inj h).1 ▸ x.2
    exact (Token.false_of_literal? he hk (by decide)).elim
  | paren l d r =>
    have hk : l.val.kind = .name := (List.cons.inj h).1 ▸ x.2
    simp [l.2] at hk

theorem determined_literal {t e he} : Determined (.literal t e he) := by
  intro d' rest rest' h hr hr'
  cases d' with
  | name x =>
    have hk : t.kind = .name := (List.cons.inj h).1 ▸ x.2
    exact (Token.false_of_literal? he hk (by decide)).elim
  | literal t' e' he' =>
    obtain ⟨rfl, rfl⟩ := List.cons.inj h
    obtain rfl : e = e' := Option.some.inj (he.symm.trans he')
    exact ⟨rfl, rfl⟩
  | paren l d r =>
    have hk : t.kind = .symbol .lpar := (List.cons.inj h).1 ▸ l.2
    exact (Token.false_of_literal? he hk (by decide)).elim

theorem determined_paren {l r} {d : ExprDerivation (.one .test)} (ih : Determined d) :
    Determined (.paren l d r) := by
  intro d' rest rest' h hr hr'
  cases d' with
  | name x =>
    have hk : l.val.kind = .name := (List.cons.inj h).1 ▸ x.2
    simp [l.2] at hk
  | literal t e he =>
    have hk : t.kind = .symbol .lpar := (List.cons.inj h).1 ▸ l.2
    exact (Token.false_of_literal? he hk (by decide)).elim
  | paren l' d' r' =>
    simp only [yield, List.cons_append, List.nil_append, List.append_assoc, List.cons.injEq] at h
    obtain rfl := Subtype.ext h.1
    obtain ⟨rfl, hclose⟩ := ih d' h.2 (r.stopsAt Nat.two_pos _) (r'.stopsAt Nat.two_pos _)
    obtain rfl := Subtype.ext (List.cons.inj hclose).1
    exact ⟨rfl, (List.cons.inj hclose).2⟩

theorem determined_list {first : ExprDerivation (.one .test)} {tail : ExprDerivation .listTail}
    (ihf : Determined first) (iht : Determined tail) :
    Determined (.list first tail) := by
  intro d' rest rest' h hr hr'
  cases d' with
  | list first' tail' =>
    simp only [yield, List.append_assoc] at h
    obtain ⟨rfl, htail⟩ := ihf first' h (tail.stopsAt_listTail hr) (tail'.stopsAt_listTail hr')
    obtain ⟨rfl, rfl⟩ := iht tail' htail hr hr'
    exact ⟨rfl, rfl⟩

theorem determined_listNil : Determined .listNil := by
  intro d' rest rest' h hr hr'
  cases d' with
  | listNil => exact ⟨rfl, h⟩
  | listCons comma e tail =>
    simp only [yield, List.nil_append, List.cons_append] at h
    subst h
    simp [comma.2, strength, ExprRule.rank] at hr

theorem determined_listCons {comma} {e : ExprDerivation (.one .test)}
    {tail : ExprDerivation .listTail} (ihe : Determined e) (iht : Determined tail) :
    Determined (.listCons comma e tail) := by
  intro d' rest rest' h hr hr'
  cases d' with
  | listNil =>
    simp only [yield, List.nil_append, List.cons_append] at h
    subst h
    simp [comma.2, strength, ExprRule.rank] at hr'
  | listCons comma' e' tail' =>
    simp only [yield, List.cons_append, List.append_assoc, List.cons.injEq] at h
    obtain rfl := Subtype.ext h.1
    obtain ⟨rfl, htail⟩ := ihe e' h.2 (tail.stopsAt_listTail hr) (tail'.stopsAt_listTail hr')
    obtain ⟨rfl, rfl⟩ := iht tail' htail hr hr'
    exact ⟨rfl, rfl⟩

end Determined

theorem determined {n : ExprRule} (d : ExprDerivation n) : Determined d := by
  induction d with
  | test d ih => exact determined_test ih
  | chain first tail ihf iht => exact determined_chain ihf iht
  | tailNil => exact determined_tailNil
  | tailCons op right tail ihr iht => exact determined_tailCons ihr iht
  | negation op d ih => exact determined_negation ih
  | positive d ih => exact determined_positive ih
  | minus op d ih => exact determined_minus ih
  | primary d ih => exact determined_primary ih
  | atom d ih => exact determined_atom ih
  | callEmpty f l r => exact determined_callEmpty
  | call f l args r ih => exact determined_call ih
  | name x => exact determined_name
  | literal t e he => exact determined_literal
  | paren l d r ih => exact determined_paren ih
  | list first tail ihf iht => exact determined_list ihf iht
  | listNil => exact determined_listNil
  | listCons comma e tail ihe iht => exact determined_listCons ihe iht

/-- The grammar is unambiguous: of two derivations by one rule from the front of one token list,
each ending where its rule must end, neither differs from the other. -/
theorem unique {n : ExprRule} (d d' : ExprDerivation n) {rest rest' : List Token}
    (h : d.yield ++ rest = d'.yield ++ rest') (hr : StopsAt n.rank rest)
    (hr' : StopsAt n.rank rest') : d = d' ∧ rest = rest' :=
  d.determined d' h hr hr'

/-- What ends a phrase is no parenthesis, so the condition on names holds of every derivation. -/
theorem namesCalled {n : ExprRule} (d : ExprDerivation n) {rest : List Token}
    (h : StopsAt n.rank rest) (hcall : StopsAt Tier.atomOrCall.rank rest) :
    d.NamesCalled rest := by
  induction d generalizing rest with
  | tailNil | listNil | callEmpty | literal => trivial
  | test d ih | positive d ih | primary d ih | negation op d ih | minus op d ih => exact ih h hcall
  | atom d ih => exact ih (h.mono (Nat.le_succ _)) hcall
  | @chain l first tail ihf iht | @tailCons l _ first tail ihf iht =>
    have hfirst := tail.stopsAt_tail h
    refine ⟨ihf hfirst (hfirst.mono ?_), iht h hcall⟩
    cases l <;> decide
  | list first tail ihf iht | listCons _ first tail ihf iht =>
    have hfirst := tail.stopsAt_listTail h
    exact ⟨ihf hfirst (hfirst.mono (by decide)), iht h hcall⟩
  | call f l args r ih => exact ih (r.stopsAt Nat.one_pos _) (r.stopsAt (Nat.succ_pos 6) _)
  | paren l d r ih => exact ih (r.stopsAt Nat.two_pos _) (r.stopsAt (Nat.succ_pos 6) _)
  | name x =>
    intro t ht hk
    obtain ⟨u, us, rfl, hu⟩ := hcall.exists_cons
    cases ht
    rw [hk] at hu
    exact absurd hu (by decide)

end ExprDerivation

end Grammar

end TinyScript
