import TinyScript.Parser.Stmt
import TinyScript.Proofs.Grammar.Expr

/-!
# Derivations of programs

The grammar of statements as a type of derivations:

    file_input  = { NEWLINE | statement }
    statement   = simple NEWLINE
                | "for" NAME "in" "range" "(" test_list ")" ":" suite
                | "if" test ":" suite { "elif" test ":" suite } [ "else" ":" suite ]
                | "def" NAME "(" [ NAME { "," NAME } ] ")" ":" func_suite
    simple      = "print" test_list | NAME "=" test | return_stmt
    return_stmt = "return" test
    suite       = NEWLINE INDENT statement { statement } DEDENT
    func_suite  = NEWLINE INDENT { statement | return_stmt } DEDENT

The end of the input is not part of a derivation. The last rule is written so that a `return` in a
function body could go without its line end. Whether it may is a parameter of the grammar, `bare`.

What the rules do not say is said by `Lawful` and `NamesCalled`: how many arguments a loop may have,
that parameters are distinct, that `return` stands in function bodies only, and that a name before a
parenthesis is a call.
-/

namespace TinyScript.Grammar

/-- The rules of the grammar of statements, the repetitions among them included. -/
inductive StmtRule where
  | file
  | statement
  | simple
  | returnStmt
  | suite
  | statements
  | funcSuite
  | body
  /-- The `elif` and `else` branches of a conditional. -/
  | arms
  | params
  | paramTail
  deriving DecidableEq, Repr

/-- What a phrase of a rule stands for. -/
abbrev StmtRule.Tree : StmtRule → Type
  | file | suite | statements | funcSuite | body => Block
  | statement | simple | returnStmt => Stmt
  | arms => Arms
  | params | paramTail => List String

/-- Derivations by a rule. With `bare`, a `return` in a function body may lack its line end. -/
inductive StmtDerivation (bare : Bool) : StmtRule → Type where
  | fileNil : StmtDerivation bare .file
  | fileNewline (nl : TokenOf .newline) (rest : StmtDerivation bare .file) :
      StmtDerivation bare .file
  | fileStatement (s : StmtDerivation bare .statement) (rest : StmtDerivation bare .file) :
      StmtDerivation bare .file
  | line (s : StmtDerivation bare .simple) (nl : TokenOf .newline) : StmtDerivation bare .statement
  | loop (kw : TokenOf (.keyword .forWord)) (x : TokenOf .name) (kwIn : TokenOf (.keyword .inWord))
      (kwRange : TokenOf (.keyword .rangeWord)) (l : TokenOf (.symbol .lpar))
      (args : ExprDerivation .testList) (r : TokenOf (.symbol .rpar))
      (colon : TokenOf (.symbol .colon)) (body : StmtDerivation bare .suite) :
      StmtDerivation bare .statement
  | conditional (kw : TokenOf (.keyword .ifWord)) (c : ExprDerivation (.one .test))
      (colon : TokenOf (.symbol .colon)) (body : StmtDerivation bare .suite)
      (arms : StmtDerivation bare .arms) : StmtDerivation bare .statement
  | definition (kw : TokenOf (.keyword .defWord)) (f : TokenOf .name) (l : TokenOf (.symbol .lpar))
      (ps : StmtDerivation bare .params) (r : TokenOf (.symbol .rpar))
      (colon : TokenOf (.symbol .colon)) (body : StmtDerivation bare .funcSuite) :
      StmtDerivation bare .statement
  | print (kw : TokenOf (.keyword .printWord)) (es : ExprDerivation .testList) :
      StmtDerivation bare .simple
  | assign (x : TokenOf .name) (eq : TokenOf (.symbol .assign)) (e : ExprDerivation (.one .test)) :
      StmtDerivation bare .simple
  | ret (s : StmtDerivation bare .returnStmt) : StmtDerivation bare .simple
  | returnStmt (kw : TokenOf (.keyword .returnWord)) (e : ExprDerivation (.one .test)) :
      StmtDerivation bare .returnStmt
  | suite (nl : TokenOf .newline) (indent : TokenOf .indent)
      (first : StmtDerivation bare .statement) (rest : StmtDerivation bare .statements)
      (dedent : TokenOf .dedent) : StmtDerivation bare .suite
  | statementsNil : StmtDerivation bare .statements
  | statementsCons (s : StmtDerivation bare .statement) (rest : StmtDerivation bare .statements) :
      StmtDerivation bare .statements
  | funcSuite (nl : TokenOf .newline) (indent : TokenOf .indent) (body : StmtDerivation bare .body)
      (dedent : TokenOf .dedent) : StmtDerivation bare .funcSuite
  | bodyNil : StmtDerivation bare .body
  | bodyStatement (s : StmtDerivation bare .statement) (rest : StmtDerivation bare .body) :
      StmtDerivation bare .body
  | bodyReturn (h : bare = true) (s : StmtDerivation bare .returnStmt)
      (rest : StmtDerivation bare .body) : StmtDerivation bare .body
  | armsDone : StmtDerivation bare .arms
  | armsElse (kw : TokenOf (.keyword .elseWord)) (colon : TokenOf (.symbol .colon))
      (body : StmtDerivation bare .suite) : StmtDerivation bare .arms
  | armsElif (kw : TokenOf (.keyword .elifWord)) (c : ExprDerivation (.one .test))
      (colon : TokenOf (.symbol .colon)) (body : StmtDerivation bare .suite)
      (rest : StmtDerivation bare .arms) : StmtDerivation bare .arms
  | paramsNone : StmtDerivation bare .params
  | paramsSome (x : TokenOf .name) (rest : StmtDerivation bare .paramTail) :
      StmtDerivation bare .params
  | paramNil : StmtDerivation bare .paramTail
  | paramCons (comma : TokenOf (.symbol .comma)) (x : TokenOf .name)
      (rest : StmtDerivation bare .paramTail) : StmtDerivation bare .paramTail

namespace StmtDerivation

variable {bare : Bool}

/-- The tokens that a derivation spans. -/
@[simp] def yield : {n : StmtRule} → StmtDerivation bare n → List Token
  | _, fileNil | _, statementsNil | _, bodyNil | _, armsDone | _, paramsNone | _, paramNil => []
  | _, fileNewline nl rest => nl.val :: rest.yield
  | _, fileStatement s rest => s.yield ++ rest.yield
  | _, line s nl => s.yield ++ [nl.val]
  | _, loop kw x kwIn kwRange l args r colon body =>
    kw.val :: x.val :: kwIn.val :: kwRange.val :: l.val ::
      (args.yield ++ r.val :: colon.val :: body.yield)
  | _, conditional kw c colon body arms =>
    kw.val :: (c.yield ++ colon.val :: (body.yield ++ arms.yield))
  | _, definition kw f l ps r colon body =>
    kw.val :: f.val :: l.val :: (ps.yield ++ r.val :: colon.val :: body.yield)
  | _, print kw es => kw.val :: es.yield
  | _, assign x eq e => x.val :: eq.val :: e.yield
  | _, ret s => s.yield
  | _, returnStmt kw e => kw.val :: e.yield
  | _, suite nl indent first rest dedent =>
    nl.val :: indent.val :: (first.yield ++ (rest.yield ++ [dedent.val]))
  | _, statementsCons s rest | _, bodyStatement s rest => s.yield ++ rest.yield
  | _, funcSuite nl indent body dedent => nl.val :: indent.val :: (body.yield ++ [dedent.val])
  | _, bodyReturn _ s rest => s.yield ++ rest.yield
  | _, armsElse kw colon body => kw.val :: colon.val :: body.yield
  | _, armsElif kw c colon body rest =>
    kw.val :: (c.yield ++ colon.val :: (body.yield ++ rest.yield))
  | _, paramsSome x rest => x.val :: rest.yield
  | _, paramCons comma x rest => comma.val :: x.val :: rest.yield

/-- The part of a program that a derivation stands for: statements in their order, each branch with
the conditional whose block it follows. -/
@[simp] def tree : {n : StmtRule} → StmtDerivation bare n → n.Tree
  | _, fileNil | _, statementsNil | _, bodyNil | _, paramsNone | _, paramNil => []
  | _, fileNewline _ rest => rest.tree
  | _, fileStatement s rest => s.tree :: rest.tree
  | _, line s _ => s.tree
  | _, loop _ x _ _ _ args _ _ body => .forRange x.val.text args.tree body.tree
  | _, conditional _ c _ body arms => .ifElse c.tree body.tree arms.tree
  | _, definition _ f _ ps _ _ body => .define f.val.text ps.tree body.tree false
  | _, print _ es => .print es.tree
  | _, assign x _ e => .assign x.val.text e.tree
  | _, ret s => s.tree
  | _, returnStmt _ e => .ret e.tree
  | _, suite _ _ first rest _ => first.tree :: rest.tree
  | _, statementsCons s rest | _, bodyStatement s rest => s.tree :: rest.tree
  | _, funcSuite _ _ body _ => body.tree
  | _, bodyReturn _ s rest => s.tree :: rest.tree
  | _, armsDone => .done
  | _, armsElse _ _ body => .otherwise body.tree
  | _, armsElif _ c _ body rest => .elif c.tree body.tree rest.tree
  | _, paramsSome x rest => x.val.text :: rest.tree
  | _, paramCons _ x rest => x.val.text :: rest.tree

/-- The conditions on numbers of arguments, on parameters and on the place of `return`: a loop has
one to three arguments, parameters are distinct, and `return` stands in a function body, however
deep. `inside` tells whether a function body is open. -/
@[simp] def Lawful : {n : StmtRule} → StmtDerivation bare n → (inside : Bool) → Prop
  | _, fileNil, _ | _, statementsNil, _ | _, bodyNil, _ | _, armsDone, _ | _, paramsNone, _
  | _, paramNil, _ | _, print .., _ | _, assign .., _ | _, paramsSome .., _ | _, paramCons .., _ =>
    True
  | _, fileNewline _ rest, inside => rest.Lawful inside
  | _, fileStatement s rest, inside => s.Lawful inside ∧ rest.Lawful inside
  | _, line s _, inside => s.Lawful inside
  | _, loop _ _ _ _ _ args _ _ body, inside =>
    (1 ≤ args.tree.length ∧ args.tree.length ≤ 3) ∧ body.Lawful inside
  | _, conditional _ _ _ body arms, inside => body.Lawful inside ∧ arms.Lawful inside
  | _, definition _ _ _ ps _ _ body, _ => ps.tree.Nodup ∧ body.Lawful true
  | _, ret s, inside => s.Lawful inside
  | _, returnStmt .., inside => inside = true
  | _, suite _ _ first rest _, inside => first.Lawful inside ∧ rest.Lawful inside
  | _, statementsCons s rest, inside | _, bodyStatement s rest, inside =>
    s.Lawful inside ∧ rest.Lawful inside
  | _, funcSuite _ _ body _, inside => body.Lawful inside
  | _, bodyReturn _ s rest, inside => s.Lawful inside ∧ rest.Lawful inside
  | _, armsElse _ _ body, inside => body.Lawful inside
  | _, armsElif _ _ _ body rest, inside => body.Lawful inside ∧ rest.Lawful inside

/-- No name stands before a parenthesis without being called; `following` are the tokens after the
phrase. -/
def NamesCalled : {n : StmtRule} → StmtDerivation bare n → (following : List Token) → Prop
  | _, fileNil, _ | _, statementsNil, _ | _, bodyNil, _ | _, armsDone, _ | _, paramsNone, _
  | _, paramNil, _ | _, paramsSome .., _ | _, paramCons .., _ => True
  | _, fileNewline _ rest, following => rest.NamesCalled following
  | _, fileStatement s rest, following =>
    s.NamesCalled (rest.yield ++ following) ∧ rest.NamesCalled following
  | _, line s nl, following => s.NamesCalled (nl.val :: following)
  | _, loop _ _ _ _ _ args r _ body, following =>
    args.NamesCalled [r.val] ∧ body.NamesCalled following
  | _, conditional _ c colon body arms, following =>
    c.NamesCalled [colon.val] ∧ body.NamesCalled (arms.yield ++ following) ∧
      arms.NamesCalled following
  | _, definition _ _ _ _ _ _ body, following => body.NamesCalled following
  | _, print _ es, following => es.NamesCalled following
  | _, assign _ _ e, following => e.NamesCalled following
  | _, ret s, following => s.NamesCalled following
  | _, returnStmt _ e, following => e.NamesCalled following
  | _, suite _ _ first rest dedent, _ =>
    first.NamesCalled (rest.yield ++ [dedent.val]) ∧ rest.NamesCalled [dedent.val]
  | _, statementsCons s rest, following | _, bodyStatement s rest, following =>
    s.NamesCalled (rest.yield ++ following) ∧ rest.NamesCalled following
  | _, funcSuite _ _ body dedent, _ => body.NamesCalled [dedent.val]
  | _, bodyReturn _ s rest, following =>
    s.NamesCalled (rest.yield ++ following) ∧ rest.NamesCalled following
  | _, armsElse _ _ body, following => body.NamesCalled following
  | _, armsElif _ c colon body rest, following =>
    c.NamesCalled [colon.val] ∧ body.NamesCalled (rest.yield ++ following) ∧
      rest.NamesCalled following

end StmtDerivation

/-- The kinds of tokens that may follow a phrase of a rule. -/
def StmtRule.Follows : StmtRule → Kind → Prop
  | file, k => k = .eof
  | statement, k | arms, k => k ≠ .keyword .elifWord ∧ k ≠ .keyword .elseWord
  | simple, k | returnStmt, k => strength k < 1
  | statements, k | body, k => k = .dedent
  | params, k | paramTail, k => k = .symbol .rpar
  | suite, _ | funcSuite, _ => True

/-- The tokens begin with one that may follow a phrase of the rule. -/
def StmtRule.EndsBefore (n : StmtRule) : List Token → Prop
  | [] => False
  | t :: _ => n.Follows t.kind

@[simp] theorem StmtRule.endsBefore_cons {n : StmtRule} {t : Token} {ts : List Token} :
    n.EndsBefore (t :: ts) ↔ n.Follows t.kind := Iff.rfl

theorem StmtRule.EndsBefore.imp {n m : StmtRule} {ts : List Token} (h : n.EndsBefore ts)
    (hnm : ∀ k, n.Follows k → m.Follows k) : m.EndsBefore ts := by
  cases ts with
  | nil => exact h
  | cons t ts => exact hnm t.kind h

theorem StmtRule.EndsBefore.exists_cons {n : StmtRule} {ts : List Token} (h : n.EndsBefore ts) :
    ∃ t us, ts = t :: us ∧ n.Follows t.kind := by
  cases ts with
  | nil => exact h.elim
  | cons t us => exact ⟨t, us, rfl, h⟩

theorem StmtRule.stopsAt_of_simple {ts : List Token} (h : StmtRule.simple.EndsBefore ts) :
    StopsAt ExprRule.testList.rank ts := by
  cases ts with
  | nil => exact h
  | cons t ts => exact h

/-- The kinds of tokens with which a simple statement begins. -/
def simpleKinds : List Kind := [.keyword .printWord, .keyword .returnWord, .name]

/-- The kinds of tokens with which a statement begins. -/
def statementKinds : List Kind :=
  simpleKinds ++ [.keyword .forWord, .keyword .ifWord, .keyword .defWord]

/-- Tokens of different kinds differ. -/
theorem TokenOf.false_of_cons_eq {k k' : Kind} {t : TokenOf k} {u : TokenOf k'} {ts us : List Token}
    (h : t.val :: ts = u.val :: us) (hk : k ≠ k') : False := by
  have htu : t.val = u.val := (List.cons.inj h).1
  exact hk (t.2.symm.trans ((congrArg Token.kind htu).trans u.2))

namespace StmtDerivation

variable {bare : Bool}

theorem simple_head (d : StmtDerivation bare .simple) :
    ∃ t ts, d.yield = t :: ts ∧ t.kind ∈ simpleKinds := by
  cases d with
  | print kw es => exact ⟨_, _, rfl, by simp [kw.2, simpleKinds]⟩
  | assign x eq e => exact ⟨_, _, rfl, by simp [x.2, simpleKinds]⟩
  | ret s =>
    cases s with
    | returnStmt kw e => exact ⟨_, _, rfl, by simp [kw.2, simpleKinds]⟩

theorem statement_head (d : StmtDerivation bare .statement) :
    ∃ t ts, d.yield = t :: ts ∧ t.kind ∈ statementKinds := by
  cases d with
  | line s nl =>
    obtain ⟨t, ts, hy, ht⟩ := s.simple_head
    exact ⟨t, ts ++ [nl.val], by simp [yield, hy], List.mem_append_left _ ht⟩
  | loop kw | conditional kw | definition kw =>
    exact ⟨_, _, rfl, by simp [kw.2, statementKinds]⟩

theorem kind_of_simple (d : StmtDerivation bare .simple) {k : Kind} {u : TokenOf k}
    {rest us : List Token} (h : d.yield ++ rest = u.val :: us) : k ∈ simpleKinds := by
  obtain ⟨t, ts, hy, ht⟩ := d.simple_head
  rw [hy, List.cons_append, List.cons.injEq] at h
  rwa [h.1, u.2] at ht

theorem kind_of_statement (d : StmtDerivation bare .statement) {k : Kind} {u : TokenOf k}
    {rest us : List Token} (h : d.yield ++ rest = u.val :: us) : k ∈ statementKinds := by
  obtain ⟨t, ts, hy, ht⟩ := d.statement_head
  rw [hy, List.cons_append, List.cons.injEq] at h
  rwa [h.1, u.2] at ht

/-- A statement may be followed by anything with which a statement begins. -/
theorem follows_of_mem {k : Kind} (h : k ∈ statementKinds) : StmtRule.statement.Follows k := by
  have hall : ∀ k ∈ statementKinds, k ≠ .keyword .elifWord ∧ k ≠ .keyword .elseWord := by decide
  exact hall k h

/-- A statement of a suite ends where the next one begins, or where the suite ends. -/
theorem statement_endsBefore_statements (d : StmtDerivation bare .statements) {rest : List Token}
    (h : StmtRule.statements.EndsBefore rest) :
    StmtRule.statement.EndsBefore (d.yield ++ rest) := by
  cases d with
  | statementsNil =>
    refine h.imp ?_
    rintro k rfl
    exact ⟨nofun, nofun⟩
  | statementsCons s more =>
    obtain ⟨t, ts, hy, ht⟩ := s.statement_head
    simp only [yield, hy, List.cons_append, StmtRule.endsBefore_cons]
    exact follows_of_mem ht

theorem statement_endsBefore_file (d : StmtDerivation bare .file) {rest : List Token}
    (h : StmtRule.file.EndsBefore rest) : StmtRule.statement.EndsBefore (d.yield ++ rest) := by
  cases d with
  | fileNil =>
    refine h.imp ?_
    rintro k rfl
    exact ⟨nofun, nofun⟩
  | fileNewline nl more =>
    simp only [yield, List.cons_append, StmtRule.endsBefore_cons, nl.2]
    exact ⟨nofun, nofun⟩
  | fileStatement s more =>
    obtain ⟨t, ts, hy, ht⟩ := s.statement_head
    simp only [yield, hy, List.cons_append, StmtRule.endsBefore_cons]
    exact follows_of_mem ht

/-- What stands between statements of a function body is the end of the body or a token with which
a statement begins. -/
theorem body_head (d : StmtDerivation bare .body) {rest : List Token}
    (h : StmtRule.body.EndsBefore rest) :
    ∃ t ts, d.yield ++ rest = t :: ts ∧ (t.kind = .dedent ∨ t.kind ∈ statementKinds) := by
  cases d with
  | bodyNil =>
    obtain ⟨t, us, rfl, ht⟩ := h.exists_cons
    exact ⟨t, us, rfl, .inl ht⟩
  | bodyStatement s more =>
    obtain ⟨t, ts, hy, ht⟩ := s.statement_head
    exact ⟨t, ts ++ more.yield ++ rest, by simp [yield, hy], .inr ht⟩
  | bodyReturn hb s more =>
    cases s with
    | returnStmt kw e => exact ⟨_, _, rfl, .inr (by simp [kw.2, statementKinds, simpleKinds])⟩

theorem statement_endsBefore_body (d : StmtDerivation bare .body) {rest : List Token}
    (h : StmtRule.body.EndsBefore rest) : StmtRule.statement.EndsBefore (d.yield ++ rest) := by
  obtain ⟨t, ts, hy, ht⟩ := d.body_head h
  rw [hy, StmtRule.endsBefore_cons]
  rcases ht with ht | ht
  · rw [ht]
    exact ⟨nofun, nofun⟩
  · exact follows_of_mem ht

/-- No token that may stand after a `return` in a function body continues its expression. -/
theorem returnStmt_endsBefore_body (d : StmtDerivation bare .body) {rest : List Token}
    (h : StmtRule.body.EndsBefore rest) :
    StmtRule.returnStmt.EndsBefore (d.yield ++ rest) := by
  obtain ⟨t, ts, hy, ht⟩ := d.body_head h
  rw [hy, StmtRule.endsBefore_cons]
  rcases ht with ht | ht
  · rw [ht]
    exact Nat.zero_lt_one
  · have hall : ∀ k ∈ statementKinds, strength k < 1 := by decide
    exact hall _ ht

theorem suite_endsBefore_arms (d : StmtDerivation bare .arms) {rest : List Token}
    (h : StmtRule.arms.EndsBefore rest) : StmtRule.suite.EndsBefore (d.yield ++ rest) := by
  cases d with
  | armsDone => exact h.imp fun _ _ => trivial
  | armsElse | armsElif => trivial

/-- A `return` that lacks its line end is no statement: what comes after its expression is not a
line end. -/
theorem statement_ne_bareReturn {s : StmtDerivation bare .statement}
    {r : StmtDerivation bare .returnStmt} {more : StmtDerivation bare .body} {rest us : List Token}
    (hr : StmtRule.body.EndsBefore rest) : s.yield ++ us ≠ r.yield ++ (more.yield ++ rest) := by
  intro h
  cases r with
  | returnStmt kw e =>
    cases s with
    | loop kw' | conditional kw' | definition kw' => exact TokenOf.false_of_cons_eq h nofun
    | line s nl =>
      cases s with
      | print kw' es => exact TokenOf.false_of_cons_eq h nofun
      | assign x eq e' => exact TokenOf.false_of_cons_eq h nofun
      | ret s =>
        cases s with
        | returnStmt kw' e' =>
          simp only [yield, List.cons_append, List.nil_append, List.append_assoc,
            List.cons.injEq] at h
          obtain ⟨t, ts, hy, ht⟩ := more.body_head hr
          have hstop := more.returnStmt_endsBefore_body hr
          rw [hy] at h hstop
          obtain ⟨-, hrest⟩ := e'.unique e h.2 (nl.stopsAt Nat.two_pos _)
            (Nat.lt_succ_of_lt hstop)
          have hk : t.kind = .newline := (List.cons.inj hrest).1 ▸ nl.2
          rw [hk] at ht
          rcases ht with ht | ht
          · cases ht
          · exact absurd ht (by decide)

/-- Which derivation by the rule begins a list of tokens, and where it ends, is determined, if the
tokens after it may follow a phrase of the rule. -/
def Determined {n : StmtRule} (d : StmtDerivation bare n) : Prop :=
  ∀ (d' : StmtDerivation bare n) {rest rest' : List Token}, d.yield ++ rest = d'.yield ++ rest' →
    n.EndsBefore rest → n.EndsBefore rest' → d = d' ∧ rest = rest'

section Determined

-- As for expressions, the first token decides between alternatives and what follows ends
-- repetitions. The one exception is a `return` without a line end.

theorem determined_fileNil : Determined (.fileNil : StmtDerivation bare .file) := by
  intro d' rest rest' h hr hr'
  obtain ⟨t, us, rfl, ht⟩ := hr.exists_cons
  cases d' with
  | fileNil => exact ⟨rfl, h⟩
  | fileNewline nl more => exact (TokenOf.false_of_cons_eq (t := ⟨t, ht⟩) h nofun).elim
  | fileStatement s more =>
    rw [yield, yield, List.append_assoc] at h
    exact absurd (s.kind_of_statement (u := ⟨t, ht⟩) h.symm) (by decide)

theorem determined_fileNewline {nl} {more : StmtDerivation bare .file} (ih : Determined more) :
    Determined (.fileNewline nl more) := by
  intro d' rest rest' h hr hr'
  cases d' with
  | fileNil =>
    obtain ⟨t, us, rfl, ht⟩ := hr'.exists_cons
    exact (TokenOf.false_of_cons_eq (u := ⟨t, ht⟩) h nofun).elim
  | fileNewline nl' more' =>
    simp only [yield, List.cons_append, List.cons.injEq] at h
    obtain rfl := Subtype.ext h.1
    obtain ⟨rfl, rfl⟩ := ih more' h.2 hr hr'
    exact ⟨rfl, rfl⟩
  | fileStatement s more' =>
    rw [yield, yield, List.append_assoc] at h
    exact absurd (s.kind_of_statement h.symm) (by decide)

theorem determined_fileStatement {s : StmtDerivation bare .statement}
    {more : StmtDerivation bare .file} (ihs : Determined s) (ihm : Determined more) :
    Determined (.fileStatement s more) := by
  intro d' rest rest' h hr hr'
  rw [yield, List.append_assoc] at h
  cases d' with
  | fileNil =>
    obtain ⟨t, us, rfl, ht⟩ := hr'.exists_cons
    exact absurd (s.kind_of_statement (u := ⟨t, ht⟩) h) (by decide)
  | fileNewline nl more' => exact absurd (s.kind_of_statement h) (by decide)
  | fileStatement s' more' =>
    rw [yield, List.append_assoc] at h
    obtain ⟨rfl, hmore⟩ := ihs s' h (more.statement_endsBefore_file hr)
      (more'.statement_endsBefore_file hr')
    obtain ⟨rfl, rfl⟩ := ihm more' hmore hr hr'
    exact ⟨rfl, rfl⟩

theorem determined_line {nl} {s : StmtDerivation bare .simple} (ih : Determined s) :
    Determined (.line s nl) := by
  intro d' rest rest' h hr hr'
  rw [yield, List.append_assoc] at h
  cases d' with
  | line s' nl' =>
    rw [yield, List.append_assoc] at h
    obtain ⟨rfl, hnl⟩ := ih s' h (by simp [nl.2, StmtRule.Follows, strength])
      (by simp [nl'.2, StmtRule.Follows, strength])
    obtain rfl := Subtype.ext (List.cons.inj hnl).1
    exact ⟨rfl, (List.cons.inj hnl).2⟩
  | loop kw | conditional kw | definition kw => exact absurd (s.kind_of_simple h) (by decide)

theorem determined_loop {kw x kwIn kwRange l args r colon} {body : StmtDerivation bare .suite}
    (ih : Determined body) :
    Determined (.loop kw x kwIn kwRange l args r colon body) := by
  intro d' rest rest' h hr hr'
  cases d' with
  | line s nl =>
    rw [yield, yield, List.append_assoc] at h
    exact absurd (s.kind_of_simple h.symm) (by decide)
  | conditional | definition => exact (TokenOf.false_of_cons_eq h nofun).elim
  | loop kw' x' kwIn' kwRange' l' args' r' colon' body' =>
    simp only [yield, List.cons_append, List.append_assoc, List.cons.injEq] at h
    obtain ⟨hkw, hx, hin, hrange, hl, h⟩ := h
    obtain ⟨rfl, hclose⟩ := args.unique args' h (r.stopsAt Nat.one_pos _)
      (r'.stopsAt Nat.one_pos _)
    simp only [List.cons.injEq] at hclose
    obtain ⟨hrp, hcolon, hbody⟩ := hclose
    obtain ⟨rfl, rfl⟩ := ih body' hbody (hr.imp fun _ _ => trivial) (hr'.imp fun _ _ => trivial)
    rw [Subtype.ext hkw, Subtype.ext hx, Subtype.ext hin, Subtype.ext hrange, Subtype.ext hl,
      Subtype.ext hrp, Subtype.ext hcolon]
    exact ⟨rfl, rfl⟩

theorem determined_conditional {kw c colon} {body : StmtDerivation bare .suite}
    {arms : StmtDerivation bare .arms} (ihb : Determined body) (iha : Determined arms) :
    Determined (.conditional kw c colon body arms) := by
  intro d' rest rest' h hr hr'
  cases d' with
  | line s nl =>
    rw [yield, yield, List.append_assoc] at h
    exact absurd (s.kind_of_simple h.symm) (by decide)
  | loop | definition => exact (TokenOf.false_of_cons_eq h nofun).elim
  | conditional kw' c' colon' body' arms' =>
    simp only [yield, List.cons_append, List.append_assoc, List.cons.injEq] at h
    obtain ⟨hkw, h⟩ := h
    obtain ⟨rfl, hclose⟩ := c.unique c' h (colon.stopsAt Nat.two_pos _)
      (colon'.stopsAt Nat.two_pos _)
    obtain ⟨hcolon, hbody⟩ := List.cons.inj hclose
    obtain ⟨rfl, harms⟩ := ihb body' hbody (arms.suite_endsBefore_arms hr)
      (arms'.suite_endsBefore_arms hr')
    obtain ⟨rfl, rfl⟩ := iha arms' harms hr hr'
    rw [Subtype.ext hkw, Subtype.ext hcolon]
    exact ⟨rfl, rfl⟩

theorem determined_definition {kw f l r colon} {ps : StmtDerivation bare .params}
    {body : StmtDerivation bare .funcSuite} (ihp : Determined ps) (ihb : Determined body) :
    Determined (.definition kw f l ps r colon body) := by
  intro d' rest rest' h hr hr'
  cases d' with
  | line s nl =>
    rw [yield, yield, List.append_assoc] at h
    exact absurd (s.kind_of_simple h.symm) (by decide)
  | loop | conditional => exact (TokenOf.false_of_cons_eq h nofun).elim
  | definition kw' f' l' ps' r' colon' body' =>
    simp only [yield, List.cons_append, List.append_assoc, List.cons.injEq] at h
    obtain ⟨hkw, hf, hl, h⟩ := h
    obtain ⟨rfl, hclose⟩ := ihp ps' h r.2 r'.2
    simp only [List.cons.injEq] at hclose
    obtain ⟨hrp, hcolon, hbody⟩ := hclose
    obtain ⟨rfl, rfl⟩ := ihb body' hbody (hr.imp fun _ _ => trivial) (hr'.imp fun _ _ => trivial)
    rw [Subtype.ext hkw, Subtype.ext hf, Subtype.ext hl, Subtype.ext hrp, Subtype.ext hcolon]
    exact ⟨rfl, rfl⟩

theorem determined_print {kw es} : Determined (.print kw es : StmtDerivation bare .simple) := by
  intro d' rest rest' h hr hr'
  cases d' with
  | print kw' es' =>
    simp only [yield, List.cons_append, List.cons.injEq] at h
    obtain ⟨rfl, rfl⟩ := es.unique es' h.2 (StmtRule.stopsAt_of_simple hr)
      (StmtRule.stopsAt_of_simple hr')
    rw [Subtype.ext h.1]
    exact ⟨rfl, rfl⟩
  | assign => exact (TokenOf.false_of_cons_eq h nofun).elim
  | ret s =>
    cases s with
    | returnStmt => exact (TokenOf.false_of_cons_eq h nofun).elim

theorem determined_assign {x eq e} : Determined (.assign x eq e : StmtDerivation bare .simple) := by
  intro d' rest rest' h hr hr'
  cases d' with
  | print => exact (TokenOf.false_of_cons_eq h nofun).elim
  | assign x' eq' e' =>
    simp only [yield, List.cons_append, List.cons.injEq] at h
    obtain ⟨rfl, rfl⟩ := e.unique e' h.2.2 ((StmtRule.stopsAt_of_simple hr).mono (by decide))
      ((StmtRule.stopsAt_of_simple hr').mono (by decide))
    rw [Subtype.ext h.1, Subtype.ext h.2.1]
    exact ⟨rfl, rfl⟩
  | ret s =>
    cases s with
    | returnStmt => exact (TokenOf.false_of_cons_eq h nofun).elim

theorem determined_ret {s : StmtDerivation bare .returnStmt} (ih : Determined s) :
    Determined (.ret s) := by
  intro d' rest rest' h hr hr'
  cases d' with
  | ret s' =>
    obtain ⟨rfl, rfl⟩ := ih s' h hr hr'
    exact ⟨rfl, rfl⟩
  | print | assign =>
    cases s with
    | returnStmt => exact (TokenOf.false_of_cons_eq h nofun).elim

theorem determined_returnStmt {kw e} :
    Determined (.returnStmt kw e : StmtDerivation bare .returnStmt) := by
  intro d' rest rest' h hr hr'
  cases d' with
  | returnStmt kw' e' =>
    simp only [yield, List.cons_append, List.cons.injEq] at h
    obtain ⟨rfl, rfl⟩ := e.unique e' h.2 ((StmtRule.stopsAt_of_simple hr).mono (by decide))
      ((StmtRule.stopsAt_of_simple hr').mono (by decide))
    rw [Subtype.ext h.1]
    exact ⟨rfl, rfl⟩

theorem determined_suite {nl indent dedent} {first : StmtDerivation bare .statement}
    {more : StmtDerivation bare .statements} (ihf : Determined first) (ihm : Determined more) :
    Determined (.suite nl indent first more dedent) := by
  intro d' rest rest' h hr hr'
  cases d' with
  | suite nl' indent' first' more' dedent' =>
    simp only [yield, List.cons_append, List.append_assoc, List.cons.injEq] at h
    obtain ⟨hnl, hindent, h⟩ := h
    obtain ⟨rfl, hmore⟩ := ihf first' h (more.statement_endsBefore_statements dedent.2)
      (more'.statement_endsBefore_statements dedent'.2)
    obtain ⟨rfl, hdedent⟩ := ihm more' hmore dedent.2 dedent'.2
    rw [Subtype.ext hnl, Subtype.ext hindent, Subtype.ext (List.cons.inj hdedent).1]
    exact ⟨rfl, (List.cons.inj hdedent).2⟩

theorem determined_statementsNil :
    Determined (.statementsNil : StmtDerivation bare .statements) := by
  intro d' rest rest' h hr hr'
  cases d' with
  | statementsNil => exact ⟨rfl, h⟩
  | statementsCons s more =>
    obtain ⟨t, us, rfl, ht⟩ := hr.exists_cons
    rw [yield, yield, List.append_assoc] at h
    exact absurd (s.kind_of_statement (u := ⟨t, ht⟩) h.symm) (by decide)

theorem determined_statementsCons {s : StmtDerivation bare .statement}
    {more : StmtDerivation bare .statements} (ihs : Determined s) (ihm : Determined more) :
    Determined (.statementsCons s more) := by
  intro d' rest rest' h hr hr'
  rw [yield, List.append_assoc] at h
  cases d' with
  | statementsNil =>
    obtain ⟨t, us, rfl, ht⟩ := hr'.exists_cons
    exact absurd (s.kind_of_statement (u := ⟨t, ht⟩) h) (by decide)
  | statementsCons s' more' =>
    rw [yield, List.append_assoc] at h
    obtain ⟨rfl, hmore⟩ := ihs s' h (more.statement_endsBefore_statements hr)
      (more'.statement_endsBefore_statements hr')
    obtain ⟨rfl, rfl⟩ := ihm more' hmore hr hr'
    exact ⟨rfl, rfl⟩

theorem determined_funcSuite {nl indent dedent} {body : StmtDerivation bare .body}
    (ih : Determined body) :
    Determined (.funcSuite nl indent body dedent) := by
  intro d' rest rest' h hr hr'
  cases d' with
  | funcSuite nl' indent' body' dedent' =>
    simp only [yield, List.cons_append, List.append_assoc, List.cons.injEq] at h
    obtain ⟨hnl, hindent, h⟩ := h
    obtain ⟨rfl, hdedent⟩ := ih body' h dedent.2 dedent'.2
    rw [Subtype.ext hnl, Subtype.ext hindent, Subtype.ext (List.cons.inj hdedent).1]
    exact ⟨rfl, (List.cons.inj hdedent).2⟩

theorem determined_bodyNil : Determined (.bodyNil : StmtDerivation bare .body) := by
  intro d' rest rest' h hr hr'
  obtain ⟨t, us, rfl, ht⟩ := hr.exists_cons
  cases d' with
  | bodyNil => exact ⟨rfl, h⟩
  | bodyStatement s more =>
    rw [yield, yield, List.append_assoc] at h
    exact absurd (s.kind_of_statement (u := ⟨t, ht⟩) h.symm) (by decide)
  | bodyReturn hb s more =>
    cases s with
    | returnStmt => exact (TokenOf.false_of_cons_eq (t := ⟨t, ht⟩) h nofun).elim

theorem determined_bodyStatement {s : StmtDerivation bare .statement}
    {more : StmtDerivation bare .body} (ihs : Determined s) (ihm : Determined more) :
    Determined (.bodyStatement s more) := by
  intro d' rest rest' h hr hr'
  rw [yield, List.append_assoc] at h
  cases d' with
  | bodyNil =>
    obtain ⟨t, us, rfl, ht⟩ := hr'.exists_cons
    exact absurd (s.kind_of_statement (u := ⟨t, ht⟩) h) (by decide)
  | bodyStatement s' more' =>
    rw [yield, List.append_assoc] at h
    obtain ⟨rfl, hmore⟩ := ihs s' h (more.statement_endsBefore_body hr)
      (more'.statement_endsBefore_body hr')
    obtain ⟨rfl, rfl⟩ := ihm more' hmore hr hr'
    exact ⟨rfl, rfl⟩
  | bodyReturn hb s' more' =>
    rw [yield, List.append_assoc] at h
    exact absurd h (statement_ne_bareReturn hr')

theorem determined_bodyReturn {hb} {s : StmtDerivation bare .returnStmt}
    {more : StmtDerivation bare .body} (ihs : Determined s) (ihm : Determined more) :
    Determined (.bodyReturn hb s more) := by
  intro d' rest rest' h hr hr'
  rw [yield, List.append_assoc] at h
  cases d' with
  | bodyNil =>
    obtain ⟨t, us, rfl, ht⟩ := hr'.exists_cons
    cases s with
    | returnStmt => exact (TokenOf.false_of_cons_eq (u := ⟨t, ht⟩) h nofun).elim
  | bodyStatement s' more' =>
    rw [yield, List.append_assoc] at h
    exact absurd h.symm (statement_ne_bareReturn hr)
  | bodyReturn hb' s' more' =>
    rw [yield, List.append_assoc] at h
    obtain ⟨rfl, hmore⟩ := ihs s' h (more.returnStmt_endsBefore_body hr)
      (more'.returnStmt_endsBefore_body hr')
    obtain ⟨rfl, rfl⟩ := ihm more' hmore hr hr'
    exact ⟨rfl, rfl⟩

theorem determined_armsDone : Determined (.armsDone : StmtDerivation bare .arms) := by
  intro d' rest rest' h hr hr'
  obtain ⟨t, us, rfl, ht⟩ := hr.exists_cons
  cases d' with
  | armsDone => exact ⟨rfl, h⟩
  | armsElse kw => exact absurd ((List.cons.inj h).1 ▸ kw.2) ht.2
  | armsElif kw => exact absurd ((List.cons.inj h).1 ▸ kw.2) ht.1

theorem determined_armsElse {kw colon} {body : StmtDerivation bare .suite} (ih : Determined body) :
    Determined (.armsElse kw colon body) := by
  intro d' rest rest' h hr hr'
  cases d' with
  | armsDone =>
    obtain ⟨t, us, rfl, ht⟩ := hr'.exists_cons
    exact absurd ((List.cons.inj h).1 ▸ kw.2) ht.2
  | armsElif => exact (TokenOf.false_of_cons_eq h nofun).elim
  | armsElse kw' colon' body' =>
    simp only [yield, List.cons_append, List.cons.injEq] at h
    obtain ⟨rfl, rfl⟩ := ih body' h.2.2 (hr.imp fun _ _ => trivial) (hr'.imp fun _ _ => trivial)
    rw [Subtype.ext h.1, Subtype.ext h.2.1]
    exact ⟨rfl, rfl⟩

theorem determined_armsElif {kw c colon} {body : StmtDerivation bare .suite}
    {more : StmtDerivation bare .arms} (ihb : Determined body) (ihm : Determined more) :
    Determined (.armsElif kw c colon body more) := by
  intro d' rest rest' h hr hr'
  cases d' with
  | armsDone =>
    obtain ⟨t, us, rfl, ht⟩ := hr'.exists_cons
    exact absurd ((List.cons.inj h).1 ▸ kw.2) ht.1
  | armsElse => exact (TokenOf.false_of_cons_eq h nofun).elim
  | armsElif kw' c' colon' body' more' =>
    simp only [yield, List.cons_append, List.append_assoc, List.cons.injEq] at h
    obtain ⟨hkw, h⟩ := h
    obtain ⟨rfl, hclose⟩ := c.unique c' h (colon.stopsAt Nat.two_pos _)
      (colon'.stopsAt Nat.two_pos _)
    obtain ⟨hcolon, hbody⟩ := List.cons.inj hclose
    obtain ⟨rfl, hmore⟩ := ihb body' hbody (more.suite_endsBefore_arms hr)
      (more'.suite_endsBefore_arms hr')
    obtain ⟨rfl, rfl⟩ := ihm more' hmore hr hr'
    rw [Subtype.ext hkw, Subtype.ext hcolon]
    exact ⟨rfl, rfl⟩

theorem determined_paramsNone : Determined (.paramsNone : StmtDerivation bare .params) := by
  intro d' rest rest' h hr hr'
  obtain ⟨t, us, rfl, ht⟩ := hr.exists_cons
  cases d' with
  | paramsNone => exact ⟨rfl, h⟩
  | paramsSome x more => exact (TokenOf.false_of_cons_eq (t := ⟨t, ht⟩) h nofun).elim

theorem determined_paramsSome {x} {more : StmtDerivation bare .paramTail} (ih : Determined more) :
    Determined (.paramsSome x more) := by
  intro d' rest rest' h hr hr'
  cases d' with
  | paramsNone =>
    obtain ⟨t, us, rfl, ht⟩ := hr'.exists_cons
    exact (TokenOf.false_of_cons_eq (u := ⟨t, ht⟩) h nofun).elim
  | paramsSome x' more' =>
    simp only [yield, List.cons_append, List.cons.injEq] at h
    obtain ⟨rfl, rfl⟩ := ih more' h.2 hr hr'
    rw [Subtype.ext h.1]
    exact ⟨rfl, rfl⟩

theorem determined_paramNil : Determined (.paramNil : StmtDerivation bare .paramTail) := by
  intro d' rest rest' h hr hr'
  obtain ⟨t, us, rfl, ht⟩ := hr.exists_cons
  cases d' with
  | paramNil => exact ⟨rfl, h⟩
  | paramCons comma x more => exact (TokenOf.false_of_cons_eq (t := ⟨t, ht⟩) h nofun).elim

theorem determined_paramCons {comma x} {more : StmtDerivation bare .paramTail}
    (ih : Determined more) :
    Determined (.paramCons comma x more) := by
  intro d' rest rest' h hr hr'
  cases d' with
  | paramNil =>
    obtain ⟨t, us, rfl, ht⟩ := hr'.exists_cons
    exact (TokenOf.false_of_cons_eq (u := ⟨t, ht⟩) h nofun).elim
  | paramCons comma' x' more' =>
    simp only [yield, List.cons_append, List.cons.injEq] at h
    obtain ⟨rfl, rfl⟩ := ih more' h.2.2 hr hr'
    rw [Subtype.ext h.1, Subtype.ext h.2.1]
    exact ⟨rfl, rfl⟩

end Determined

theorem determined {n : StmtRule} (d : StmtDerivation bare n) : Determined d := by
  induction d with
  | fileNil => exact determined_fileNil
  | fileNewline nl more ih => exact determined_fileNewline ih
  | fileStatement s more ihs ihm => exact determined_fileStatement ihs ihm
  | line s nl ih => exact determined_line ih
  | loop kw x kwIn kwRange l args r colon body ih => exact determined_loop ih
  | conditional kw c colon body arms ihb iha => exact determined_conditional ihb iha
  | definition kw f l ps r colon body ihp ihb => exact determined_definition ihp ihb
  | print kw es => exact determined_print
  | assign x eq e => exact determined_assign
  | ret s ih => exact determined_ret ih
  | returnStmt kw e => exact determined_returnStmt
  | suite nl indent first more dedent ihf ihm => exact determined_suite ihf ihm
  | statementsNil => exact determined_statementsNil
  | statementsCons s more ihs ihm => exact determined_statementsCons ihs ihm
  | funcSuite nl indent body dedent ih => exact determined_funcSuite ih
  | bodyNil => exact determined_bodyNil
  | bodyStatement s more ihs ihm => exact determined_bodyStatement ihs ihm
  | bodyReturn hb s more ihs ihm => exact determined_bodyReturn ihs ihm
  | armsDone => exact determined_armsDone
  | armsElse kw colon body ih => exact determined_armsElse ih
  | armsElif kw c colon body more ihb ihm => exact determined_armsElif ihb ihm
  | paramsNone => exact determined_paramsNone
  | paramsSome x more ih => exact determined_paramsSome ih
  | paramNil => exact determined_paramNil
  | paramCons comma x more ih => exact determined_paramCons ih

/-- The grammar is unambiguous, with or without line ends after every `return`. -/
theorem unique {n : StmtRule} (d d' : StmtDerivation bare n) {rest rest' : List Token}
    (h : d.yield ++ rest = d'.yield ++ rest') (hr : n.EndsBefore rest)
    (hr' : n.EndsBefore rest') : d = d' ∧ rest = rest' :=
  d.determined d' h hr hr'

/-- As for expressions, the condition on names holds of every derivation. -/
theorem namesCalled {n : StmtRule} (d : StmtDerivation bare n) {rest : List Token}
    (h : n.EndsBefore rest) : d.NamesCalled rest := by
  induction d generalizing rest with
  | fileNil | statementsNil | bodyNil | armsDone | paramsNone | paramNil | paramsSome | paramCons =>
    trivial
  | fileNewline nl more ih => exact ih h
  | fileStatement s more ihs ihm => exact ⟨ihs (more.statement_endsBefore_file h), ihm h⟩
  | statementsCons s more ihs ihm => exact ⟨ihs (more.statement_endsBefore_statements h), ihm h⟩
  | bodyStatement s more ihs ihm => exact ⟨ihs (more.statement_endsBefore_body h), ihm h⟩
  | bodyReturn hb s more ihs ihm => exact ⟨ihs (more.returnStmt_endsBefore_body h), ihm h⟩
  | line s nl ih =>
    have hend : StmtRule.simple.EndsBefore (nl.val :: rest) := nl.stopsAt Nat.one_pos rest
    exact ih hend
  | loop kw x kwIn kwRange l args r colon body ih =>
    refine ⟨args.namesCalled (r.stopsAt Nat.one_pos _) (r.stopsAt (Nat.succ_pos 6) _), ?_⟩
    exact ih (h.imp fun _ _ => trivial)
  | conditional kw c colon body arms ihb iha | armsElif kw c colon body arms ihb iha =>
    refine ⟨c.namesCalled (colon.stopsAt Nat.two_pos _) (colon.stopsAt (Nat.succ_pos 6) _), ?_⟩
    exact ⟨ihb (arms.suite_endsBefore_arms h), iha h⟩
  | definition kw f l ps r colon body ihp ihb => exact ihb (h.imp fun _ _ => trivial)
  | armsElse kw colon body ih => exact ih (h.imp fun _ _ => trivial)
  | print kw es =>
    have hstop := StmtRule.stopsAt_of_simple h
    exact es.namesCalled hstop (hstop.mono (by decide))
  | assign x eq e | returnStmt kw e =>
    have hstop := StmtRule.stopsAt_of_simple h
    exact e.namesCalled (hstop.mono (by decide)) (hstop.mono (by decide))
  | ret s ih => exact ih h
  | suite nl indent first more dedent ihf ihm =>
    have hend : StmtRule.statements.EndsBefore [dedent.val] := dedent.2
    exact ⟨ihf (more.statement_endsBefore_statements hend), ihm hend⟩
  | funcSuite nl indent body dedent ih => exact ih dedent.2

end StmtDerivation

end TinyScript.Grammar
