import TinyScript.Proofs.Grammar.Stmt
import TinyScript.Proofs.Parsing.Expr

/-!
# Statements are parsed by their grammar

The same two statements as for expressions: `accepts_statement` and `isParsed`. The parser
checks three things beside the rules: the number of arguments of a loop, that the parameters of a
function are distinct, and that `return` stands in a function body. They are what `Lawful` says of a
derivation.
-/

namespace TinyScript.Grammar

/-- How deep statements and the expressions in them are nested: inside the statement for the rules
below `statement`, and with the statement itself counted for `statement`. -/
@[simp] def StmtDerivation.nesting {bare : Bool} : {n : StmtRule} → StmtDerivation bare n → Nat
  | _, fileNil | _, statementsNil | _, bodyNil | _, armsDone | _, paramsNone | _, paramNil
  | _, paramsSome .. | _, paramCons .. => 0
  | _, fileNewline _ rest => rest.nesting
  | _, fileStatement s rest | _, statementsCons s rest | _, bodyStatement s rest =>
    max s.nesting rest.nesting
  | _, line s _ => s.nesting + 1
  | _, loop _ _ _ _ _ args _ _ body => max args.nesting body.nesting + 1
  | _, conditional _ c _ body arms => max c.nesting (max body.nesting arms.nesting) + 1
  | _, definition _ _ _ _ _ _ body => body.nesting + 1
  | _, print _ es => es.nesting
  | _, assign _ _ e | _, returnStmt _ e => e.nesting
  | _, ret s => s.nesting
  | _, suite _ _ first rest _ => max first.nesting rest.nesting
  | _, funcSuite _ _ body _ => body.nesting
  | _, bodyReturn _ s rest => max s.nesting rest.nesting
  | _, armsElse _ _ body => body.nesting
  | _, armsElif _ c _ body rest => max c.nesting (max body.nesting rest.nesting)

/-- The tokens have a lawful derivation that stands for `a`. -/
def StmtRule.Derives (n : StmtRule) (depth : Nat) (ts : List Token) (a : n.Tree) : Prop :=
  ∃ d : StmtDerivation false n, d.yield = ts ∧ d.tree = a ∧ d.Lawful (decide (0 < depth))

theorem ExprDerivation.one_le_length (d : ExprDerivation .testList) : 1 ≤ d.tree.length := by
  cases d with
  | list first rest => exact Nat.succ_le_succ (Nat.zero_le _)

end TinyScript.Grammar

namespace TinyScript.Parser

open Grammar

section Accepts

variable {depth : Nat} {expr : Parse Expr} {stmt : Parse Stmt}

theorem accepts_printStmt (h : Accepts expr depth (ExprRule.one .test).Derives) :
    Accepts (printStmt expr) depth (StmtRule.simple.Derives depth) := by
  refine Accepts.enter_bind (Accepts.expect_bind nofun fun kw => ?_)
  refine (accepts_testList h).bind ?_
  rintro _ _ ⟨es, rfl, rfl⟩
  exact accepts_pure ⟨.print kw es, by simp [StmtDerivation.yield], rfl, trivial⟩

theorem accepts_assignStmt (h : Accepts expr depth (ExprRule.one .test).Derives)
    (x : TokenOf .name) :
    Accepts (assignStmt expr x.val.text) depth fun ts s =>
      StmtRule.simple.Derives depth (x.val :: ts) s := by
  refine Accepts.enter_bind (Accepts.expect_bind nofun fun eq => h.bind ?_)
  rintro _ _ ⟨e, rfl, rfl⟩
  exact accepts_pure ⟨.assign x eq e, by simp [StmtDerivation.yield], rfl, trivial⟩

/-- The production itself does not ask where the statement stands. -/
theorem accepts_returnStmt {inside : Nat} (h : Accepts expr depth (ExprRule.one .test).Derives)
    (hinside : inside ≠ 0) : Accepts (returnStmt expr) depth (StmtRule.simple.Derives inside) := by
  refine Accepts.enter_bind (Accepts.expect_bind nofun fun kw => h.bind ?_)
  rintro _ _ ⟨e, rfl, rfl⟩
  refine accepts_pure ⟨.ret (.returnStmt kw e), by simp [StmtDerivation.yield], rfl, ?_⟩
  exact decide_eq_true (Nat.pos_of_ne_zero hinside)

theorem accepts_simpleBody (h : Accepts expr depth (ExprRule.one .test).Derives) :
    Accepts (simpleBody expr) depth (StmtRule.simple.Derives depth) := by
  refine accepts_peek_bind fun t => ?_
  split
  · exact (accepts_printStmt h).at t
  · intro s a s' ht hd hs hp
    change (if s.functionDepth = 0 then next >>= fun _ => reject .simpleStmt .returnOutside t
      else returnStmt expr) s = .ok a s' at hp
    by_cases hzero : depth = 0
    · rw [hd, if_pos hzero] at hp
      cases hp
    · rw [hd, if_neg hzero] at hp
      exact accepts_returnStmt h hzero s a s' hd hs hp
  · next hk =>
    refine AcceptsAt.next_bind (by simp [hk]) (accepts_peek_bind fun following => ?_)
    split
    · exact (accepts_assignStmt h ⟨t, hk⟩).at following
    · exact (accepts_reject _ _ _).at following
    · intro s a s' ht hd hs hp
      cases hp
  · intro s a s' ht hd hs hp
    cases hp

theorem accepts_simpleStmt (h : Accepts expr depth (ExprRule.one .test).Derives) :
    Accepts (simpleStmt expr) depth (StmtRule.statement.Derives depth) := by
  refine Accepts.enter_bind ((accepts_simpleBody h).bind ?_)
  rintro _ _ ⟨s, rfl, rfl, hs⟩
  exact Accepts.expect_bind nofun fun nl => accepts_pure ⟨.line s nl, rfl, rfl, hs⟩

/-- The statements of a block, for either kind of block. -/
theorem accepts_blockRest {C : List Token → Block → Prop} (hnil : C [] [])
    (hcons : ∀ ts s, StmtRule.statement.Derives depth ts s →
      ∀ us b, C us b → C (ts ++ us) (s :: b))
    (h : Accepts stmt depth (StmtRule.statement.Derives depth)) :
    Accepts (blockRest stmt) depth C := by
  refine accepts_collect hnil (Accepts.ite (accepts_pure rfl) (h.bind ?_))
  intro ts s hs
  refine accepts_pure ?_
  rw [List.append_nil]
  exact hcons ts s hs

theorem accepts_suite (h : Accepts stmt depth (StmtRule.statement.Derives depth)) :
    Accepts (suite stmt) depth (StmtRule.suite.Derives depth) := by
  refine Accepts.enter_bind (Accepts.expect_bind nofun fun nl =>
    Accepts.expect_bind nofun fun indent => h.bind ?_)
  rintro _ _ ⟨first, rfl, rfl, hfirst⟩
  refine (accepts_blockRest (C := StmtRule.statements.Derives depth)
    ⟨.statementsNil, rfl, rfl, trivial⟩ ?_ h).bind ?_
  · rintro _ _ ⟨s, rfl, rfl, hs⟩ _ _ ⟨more, rfl, rfl, hmore⟩
    exact ⟨.statementsCons s more, rfl, rfl, hs, hmore⟩
  · rintro _ _ ⟨more, rfl, rfl, hmore⟩
    refine Accepts.expect_bind nofun fun dedent => accepts_pure ?_
    exact ⟨.suite nl indent first more dedent, by simp [StmtDerivation.yield], rfl, hfirst, hmore⟩

theorem accepts_funcSuite (h : Accepts stmt (depth + 1) (StmtRule.statement.Derives (depth + 1))) :
    Accepts (funcSuite stmt) depth (StmtRule.funcSuite.Derives (depth + 1)) := by
  refine Accepts.enter_bind (Accepts.expect_bind nofun fun nl =>
    Accepts.expect_bind nofun fun indent => ?_)
  refine (accepts_inFunction (accepts_blockRest (C := StmtRule.body.Derives (depth + 1))
    ⟨.bodyNil, rfl, rfl, trivial⟩ ?_ h)).bind ?_
  · rintro _ _ ⟨s, rfl, rfl, hs⟩ _ _ ⟨more, rfl, rfl, hmore⟩
    exact ⟨.bodyStatement s more, rfl, rfl, hs, hmore⟩
  · rintro _ _ ⟨body, rfl, rfl, hbody⟩
    refine Accepts.expect_bind nofun fun dedent => accepts_pure ?_
    exact ⟨.funcSuite nl indent body dedent, rfl, rfl, hbody⟩

/-- A tested branch: its condition, the colon and its block. -/
theorem accepts_branch (he : Accepts expr depth (ExprRule.one .test).Derives)
    (hs : Accepts stmt depth (StmtRule.statement.Derives depth)) :
    Accepts (branch expr stmt) depth fun ts b =>
      ∃ (c : ExprDerivation (.one .test)) (colon : TokenOf (.symbol .colon))
        (body : StmtDerivation false .suite),
        c.yield ++ colon.val :: body.yield = ts ∧ (c.tree, body.tree) = b ∧
          body.Lawful (decide (0 < depth)) := by
  refine he.bind ?_
  rintro _ _ ⟨c, rfl, rfl⟩
  refine Accepts.expect_bind nofun fun colon => (accepts_suite hs).bind ?_
  rintro _ _ ⟨body, rfl, rfl, hbody⟩
  exact accepts_pure ⟨c, colon, body, by simp, rfl, hbody⟩

theorem accepts_ifStmt (he : Accepts expr depth (ExprRule.one .test).Derives)
    (hs : Accepts stmt depth (StmtRule.statement.Derives depth)) :
    Accepts (ifStmt expr stmt) depth (StmtRule.statement.Derives depth) := by
  refine Accepts.enter_bind (Accepts.expect_bind nofun fun kw => (accepts_branch he hs).bind ?_)
  rintro _ _ ⟨c, colon, body, rfl, rfl, hbody⟩
  -- The tested branches are the beginning of the arms, whatever ends the arms.
  refine (accepts_collect (C := fun ts elifs => ∀ last : StmtDerivation false .arms,
    last.Lawful (decide (0 < depth)) →
    ∃ d : StmtDerivation false .arms, d.yield = ts ++ last.yield ∧
      d.tree = elifs.foldr (fun b rest => .elif b.1 b.2 rest) last.tree ∧
      d.Lawful (decide (0 < depth))) ?_ ?_).bind ?_
  · exact fun last hlast => ⟨last, rfl, rfl, hlast⟩
  · refine Accepts.take (by decide) (fun kw => (accepts_branch he hs).bind ?_) (accepts_pure rfl)
    rintro _ _ ⟨c, colon, body, rfl, rfl, hbody⟩
    refine accepts_pure fun us elifs ih last hlast => ?_
    obtain ⟨d, hy, ht, hd⟩ := ih last hlast
    refine ⟨.armsElif ⟨kw.val, List.mem_singleton.mp kw.2⟩ c colon body d, ?_, ?_, hbody, hd⟩
    · simp [StmtDerivation.yield, hy]
    · simp [StmtDerivation.tree, ht]
  · intro us elifs helifs
    refine Accepts.take (by decide) (fun kwElse => ?_) ?_
    · refine Accepts.expect_bind nofun fun colonElse => (accepts_suite hs).bind ?_
      rintro _ _ ⟨last, rfl, rfl, hlast⟩
      obtain ⟨d, hy, ht, hd⟩ := helifs
        (.armsElse ⟨kwElse.val, List.mem_singleton.mp kwElse.2⟩ colonElse last) hlast
      refine accepts_pure ⟨.conditional kw c colon body d, ?_, ?_, hbody, hd⟩
      · simp [StmtDerivation.yield, hy]
      · simp only [StmtDerivation.tree, ht]
        rfl
    · obtain ⟨d, hy, ht, hd⟩ := helifs .armsDone trivial
      refine accepts_pure ⟨.conditional kw c colon body d, ?_, ?_, hbody, hd⟩
      · simp [StmtDerivation.yield, hy]
      · simp only [StmtDerivation.tree, ht]
        rfl

theorem accepts_forStmt (he : Accepts expr depth (ExprRule.one .test).Derives)
    (hs : Accepts stmt depth (StmtRule.statement.Derives depth)) :
    Accepts (forStmt expr stmt) depth (StmtRule.statement.Derives depth) := by
  refine Accepts.enter_bind (Accepts.expect_bind nofun fun kw => Accepts.expect_bind nofun fun x =>
    Accepts.expect_bind nofun fun kwIn => Accepts.expect_bind nofun fun kwRange =>
    Accepts.expect_bind nofun fun lp => (accepts_testList he).bind ?_)
  rintro _ _ ⟨args, rfl, rfl⟩
  refine Accepts.expect_bind nofun fun rp => ?_
  split
  · exact accepts_reject _ _ _
  · next harity =>
    refine Accepts.expect_bind nofun fun colon => (accepts_suite hs).bind ?_
    rintro _ _ ⟨body, rfl, rfl, hbody⟩
    refine accepts_pure ⟨.loop kw x kwIn kwRange lp args rp colon body, ?_, rfl, ?_, hbody⟩
    · simp [StmtDerivation.yield]
    · exact ⟨args.one_le_length, Nat.le_of_not_lt harity⟩

theorem nodup_concat {xs : List String} {x : String} (h : xs.Nodup) (hx : x ∉ xs) :
    (xs ++ [x]).Nodup := by
  rw [List.nodup_append]
  refine ⟨h, by simp, fun a ha b hb => ?_⟩
  rw [List.mem_singleton.mp hb]
  exact ne_of_mem_of_not_mem ha hx

/-- One more parameter, which is not among those before it. -/
theorem accepts_param (earlier : List String) :
    Accepts (param earlier) depth fun ts ps =>
      ∃ x : TokenOf .name, [x.val] = ts ∧ earlier ++ [x.val.text] = ps ∧ x.val.text ∉ earlier := by
  refine Accepts.expect_bind nofun fun x => ?_
  split
  · exact accepts_reject _ _ _
  · next hx => exact accepts_pure ⟨x, rfl, rfl, fun hm => hx (List.contains_iff_mem.mpr hm)⟩

theorem accepts_params :
    Accepts params depth fun ts ps =>
      ∃ d : StmtDerivation false .params, d.yield = ts ∧ d.tree = ps ∧ ps.Nodup := by
  refine (accepts_param []).bind ?_
  rintro _ _ ⟨x, rfl, rfl, -⟩
  refine (accepts_iterate (I := fun earlier ts ps => earlier.Nodup →
    ∃ d : StmtDerivation false .paramTail, d.yield = ts ∧ earlier ++ d.tree = ps ∧ ps.Nodup)
    ?_ (fun earlier => ?_) _).imp ?_
  · exact fun earlier h => ⟨.paramNil, rfl, by simp [StmtDerivation.tree], h⟩
  · refine Accepts.take (by decide) (fun comma => (accepts_param earlier).bind ?_)
      (accepts_pure rfl)
    rintro _ _ ⟨y, rfl, rfl, hy⟩
    refine accepts_pure fun us ps ih hearlier => ?_
    obtain ⟨d, rfl, rfl, hnodup⟩ := ih (nodup_concat hearlier hy)
    refine ⟨.paramCons ⟨comma.val, List.mem_singleton.mp comma.2⟩ y d, rfl, ?_, hnodup⟩
    simp [StmtDerivation.tree]
  · intro ts ps ih
    obtain ⟨d, rfl, rfl, hnodup⟩ := ih (by simp)
    exact ⟨.paramsSome x d, rfl, rfl, hnodup⟩

theorem accepts_funcDef
    (h : Accepts stmt (depth + 1) (StmtRule.statement.Derives (depth + 1))) :
    Accepts (funcDef stmt) depth (StmtRule.statement.Derives depth) := by
  refine Accepts.enter_bind (Accepts.expect_bind nofun fun kw => Accepts.expect_bind nofun fun f =>
    Accepts.expect_bind nofun fun lp => ?_)
  -- What follows the parameters, whether there are any or not.
  have hend : ∀ ps : StmtDerivation false .params, ps.tree.Nodup →
      Accepts (expect .funcDef (.symbol .rpar) >>= fun _ =>
        expect .funcDef (.symbol .colon) >>= fun _ => funcSuite stmt >>= fun body =>
          pure (.define f.val.text ps.tree body false)) depth fun ts s =>
        StmtRule.statement.Derives depth (kw.val :: f.val :: lp.val :: (ps.yield ++ ts)) s := by
    intro ps hps
    refine Accepts.expect_bind nofun fun rp => Accepts.expect_bind nofun fun colon =>
      (accepts_funcSuite h).bind ?_
    rintro _ _ ⟨body, rfl, rfl, hbody⟩
    refine accepts_pure ⟨.definition kw f lp ps rp colon body, ?_, rfl, hps, ?_⟩
    · simp [StmtDerivation.yield]
    · simpa using hbody
  refine Accepts.ite (hend .paramsNone List.nodup_nil) (accepts_params.bind ?_)
  rintro _ _ ⟨ps, rfl, rfl, hps⟩
  exact hend ps hps

theorem accepts_compoundStmt (he : Accepts expr depth (ExprRule.one .test).Derives)
    (hs : Accepts stmt depth (StmtRule.statement.Derives depth))
    (hf : Accepts stmt (depth + 1) (StmtRule.statement.Derives (depth + 1))) :
    Accepts (compoundStmt expr stmt) depth (StmtRule.statement.Derives depth) := by
  refine Accepts.enter_bind (accepts_peek_bind fun t => ?_)
  split
  · exact (accepts_forStmt he hs).at t
  · exact (accepts_ifStmt he hs).at t
  · exact (accepts_funcDef hf).at t
  · intro s a s' _ _ _ hp
    cases hp

end Accepts

/-- Whatever the parser of statements gives has a lawful derivation. -/
theorem accepts_statement (room depth : Nat) :
    Accepts (statement room) depth (StmtRule.statement.Derives depth) := by
  induction room generalizing depth with
  | zero => exact accepts_throw _
  | succ room ih =>
    refine Accepts.enter_bind (Accepts.ite ?_ ?_)
    · exact accepts_compoundStmt (accepts_test room) (ih depth) (ih (depth + 1))
    · exact accepts_simpleStmt (accepts_test room)

/-- A statement, unless the block ends. -/
def blockRound (stmt : Parse Stmt) : Parse (Option Stmt) := do
  if ← looksAt [.dedent] then return none else return some (← stmt)

/-- An `elif` branch, if there is one. -/
def elifRound (expr : Parse Expr) (stmt : Parse Stmt) : Parse (Option (Expr × Block)) := do
  if ← looksAt [.keyword .elifWord] then
    let _ ← next
    return some (← branch expr stmt)
  else return none

/-- The `else` branch, if there is one, handed to `k`. -/
def elseRest (stmt : Parse Stmt) (k : Option Block → Stmt) : Parse Stmt := do
  if ← looksAt [.keyword .elseWord] then
    let _ ← next
    let _ ← expect .ifStmt (.symbol .colon)
    let last ← suite stmt
    return k (some last)
  else return k none

/-- The arms of a conditional, handed to `k`. -/
def armsRest (expr : Parse Expr) (stmt : Parse Stmt) (fuel : Nat)
    (k : List (Expr × Block) → Option Block → Stmt) : Parse Stmt :=
  collectFor (elifRound expr stmt) fuel >>= fun elifs => elseRest stmt (k elifs)

theorem ifStmt_eq (expr : Parse Expr) (stmt : Parse Stmt) :
    ifStmt expr stmt = enter .ifStmt >>= fun _ => expect .ifStmt (.keyword .ifWord) >>= fun _ =>
      branch expr stmt >>= fun b => patience >>= fun fuel =>
        armsRest expr stmt fuel fun elifs last => .ifElse b.1 b.2 (arms elifs last) := rfl

/-- One more parameter, if there is a comma. -/
def paramRound (earlier : List String) : Parse (Option (List String)) := do
  if ← looksAt [.symbol .comma] then
    let _ ← next
    return some (← param earlier)
  else return none

/-- A statement or an empty line, unless the input ends. -/
def fileRound (stmt : Parse Stmt) : Parse (Option (Option Stmt)) := do
  if ← looksAt [.eof] then return none
  else if ← looksAt [.newline] then
    let _ ← next
    return some none
  else
    let s ← stmt
    return some (some s)

theorem fileInput_eq (stmt : Parse Stmt) :
    fileInput stmt = enter .fileInput >>= fun _ => collect (fileRound stmt) >>= fun items =>
      pure (items.filterMap id) := rfl

theorem params_eq : params = param [] >>= iterate paramRound := rfl

/-- What the parser of a rule makes of a lawful derivation, when the tokens after it end it. -/
def IsParsed : {n : StmtRule} → StmtDerivation false n → Prop
  | .file, d => ∀ room rest fuel, StmtRule.file.EndsBefore rest → d.yield.length < fuel →
      d.Lawful false → ∃ items, items.filterMap id = d.tree ∧
        Reads (collectFor (fileRound (statement room)) fuel) 0 d.yield rest items (d.nesting ≤ room)
  | .statement, d => ∀ depth room rest, StmtRule.statement.EndsBefore rest →
      d.Lawful (decide (0 < depth)) →
      Reads (statement room) depth d.yield rest d.tree (d.nesting ≤ room)
  | .simple, d => ∀ depth room rest, StmtRule.simple.EndsBefore rest →
      d.Lawful (decide (0 < depth)) →
      Reads (simpleBody (test room)) depth d.yield rest d.tree (d.nesting ≤ room)
  | .returnStmt, d => ∀ depth room rest, StmtRule.simple.EndsBefore rest →
      Reads (returnStmt (test room)) depth d.yield rest d.tree (d.nesting ≤ room)
  | .suite, d => ∀ depth room rest, d.Lawful (decide (0 < depth)) →
      Reads (suite (statement room)) depth d.yield rest d.tree (d.nesting ≤ room)
  | .statements, d => ∀ depth room rest fuel, StmtRule.statements.EndsBefore rest →
      d.yield.length < fuel → d.Lawful (decide (0 < depth)) →
      Reads (collectFor (blockRound (statement room)) fuel) depth d.yield rest d.tree
        (d.nesting ≤ room)
  | .funcSuite, d => ∀ depth room rest, d.Lawful true →
      Reads (funcSuite (statement room)) depth d.yield rest d.tree (d.nesting ≤ room)
  | .body, d => ∀ depth room rest fuel, StmtRule.body.EndsBefore rest → d.yield.length < fuel →
      d.Lawful (decide (0 < depth)) →
      Reads (collectFor (blockRound (statement room)) fuel) depth d.yield rest d.tree
        (d.nesting ≤ room)
  | .arms, d => ∀ depth room rest fuel k s, StmtRule.arms.EndsBefore rest → d.yield.length < fuel →
      d.Lawful (decide (0 < depth)) → (∀ elifs last, arms elifs last = d.tree → k elifs last = s) →
      Reads (armsRest (test room) (statement room) fuel k) depth d.yield rest s (d.nesting ≤ room)
  | .params, d => ∀ depth rest, StmtRule.params.EndsBefore rest → d.tree.Nodup → d.yield ≠ [] →
      Reads params depth d.yield rest d.tree True
  | .paramTail, d => ∀ depth rest fuel earlier, StmtRule.params.EndsBefore rest →
      d.yield.length < fuel → (earlier ++ d.tree).Nodup →
      Reads (iterateFor paramRound fuel earlier) depth d.yield rest (earlier ++ d.tree) True

section IsParsed

theorem isParsed_line {d : StmtDerivation false .simple} {nl : TokenOf .newline} (h : IsParsed d) :
    IsParsed (.line d nl) := by
  intro depth room rest hrest hd
  cases room with
  | zero => exact reads_tooDeep (Nat.not_succ_le_zero _)
  | succ room =>
    obtain ⟨t, ts, hy, ht⟩ := d.simple_head
    have hsimple : t.kind ∉ [Kind.keyword .defWord, .keyword .forWord, .keyword .ifWord] := by
      have hall : ∀ k ∈ simpleKinds,
          k ∉ [Kind.keyword .defWord, .keyword .forWord, .keyword .ifWord] := by decide
      exact hall _ ht
    have hhead : (StmtDerivation.line d nl).yield ++ rest = t :: (ts ++ [nl.val] ++ rest) := by
      simp [StmtDerivation.yield, hy]
    have hbody := h depth room (nl.val :: rest) (nl.stopsAt Nat.one_pos rest) hd
    have hend : Reads (expect .simpleStmt .newline >>= fun _ => pure d.tree) depth [nl.val] rest
        d.tree True := Reads.expect_bind nofun nl.2 reads_pure
    refine Reads.enter_bind (Reads.ite_neg hhead hsimple (Reads.enter_bind ?_))
    refine Reads.congr (Reads.bind hbody hend) ?_
    simp [StmtDerivation.nesting]

/-- A compound statement is chosen by its first token. -/
theorem reads_compound {depth room : Nat} {t : Token} {ts rest : List Token} {s : Stmt} {P : Prop}
    (ht : t.kind ∈ [Kind.keyword .defWord, .keyword .forWord, .keyword .ifWord])
    (h : Reads (compoundStmt (test room) (statement room)) depth (t :: ts) rest s P) :
    Reads (statement (room + 1)) depth (t :: ts) rest s P :=
  Reads.enter_bind (Reads.ite_pos rfl ht h)

theorem isParsed_print {kw : TokenOf (.keyword .printWord)} {es : ExprDerivation .testList} :
    IsParsed (.print kw es) := by
  intro depth room rest hrest hd
  refine Reads.peek_bind rfl ?_
  simp only [kw.2]
  refine Reads.enter_bind (Reads.expect_bind nofun kw.2 ?_)
  exact (reads_testList es (StmtRule.stopsAt_of_simple hrest) depth room).map

theorem isParsed_assign {x : TokenOf .name} {eq : TokenOf (.symbol .assign)}
    {e : ExprDerivation (.one .test)} : IsParsed (.assign x eq e) := by
  intro depth room rest hrest hd
  refine Reads.peek_bind rfl ?_
  simp only [x.2]
  refine Reads.next_bind (by simp [x.2]) (Reads.peek_bind rfl ?_)
  simp only [eq.2]
  refine Reads.enter_bind (Reads.expect_bind nofun eq.2 ?_)
  exact (reads_test e ((StmtRule.stopsAt_of_simple hrest).mono (by decide)) depth room).map

theorem isParsed_returnStmt {kw : TokenOf (.keyword .returnWord)}
    {e : ExprDerivation (.one .test)} :
    IsParsed (.returnStmt kw e) := by
  intro depth room rest hrest
  refine Reads.enter_bind (Reads.expect_bind nofun kw.2 ?_)
  exact (reads_test e ((StmtRule.stopsAt_of_simple hrest).mono (by decide)) depth room).map

theorem isParsed_ret {d : StmtDerivation false .returnStmt} (h : IsParsed d) :
    IsParsed (.ret d) := by
  intro depth room rest hrest hd
  have hread := h depth room rest hrest
  cases d with
  | returnStmt kw e =>
    refine Reads.peek_bind rfl ?_
    simp only [kw.2]
    intro s hs hdepth
    have hpos : 0 < depth := of_decide_eq_true hd
    have hget : ∀ p q : Parse Stmt,
        (get >>= fun st : State => if st.functionDepth = 0 then p else q) s
        = q s := by
      intro p q
      change (if s.functionDepth = 0 then p else q) s = q s
      rw [if_neg (by omega)]
    rw [hget]
    exact hread s hs hdepth

/-- A token of one of the kinds `ks` is not of a kind that is not among them. -/
theorem notMem_singleton_of_mem {ks : List Kind} {k k' : Kind} (h : k ∈ ks) (hk' : k' ∉ ks) :
    k ∉ [k'] := by
  intro hmem
  rw [List.mem_singleton.mp hmem] at h
  exact hk' h

/-- The statements of a block end before the token that closes it. -/
theorem reads_block_nil {depth room fuel : Nat} {rest : List Token}
    (hrest : StmtRule.statements.EndsBefore rest) (hfuel : 0 < fuel) :
    Reads (collectFor (blockRound (statement room)) fuel) depth [] rest [] True := by
  obtain ⟨t, us, rfl, ht⟩ := hrest.exists_cons
  have hclose : t.kind ∈ [Kind.dedent] := List.mem_singleton.mpr ht
  exact reads_collectFor_none hfuel (Reads.ite_pos rfl hclose reads_pure)

theorem reads_block_cons {depth room fuel : Nat} {d : StmtDerivation false .statement}
    {us rest : List Token} {b : Block} {Q : Prop}
    (h : Reads (statement room) depth d.yield (us ++ rest) d.tree (d.nesting ≤ room))
    (hmore : Reads (collectFor (blockRound (statement room)) fuel) depth us rest b Q) :
    Reads (collectFor (blockRound (statement room)) (fuel + 1)) depth (d.yield ++ us) rest
      (d.tree :: b) (d.nesting ≤ room ∧ Q) := by
  obtain ⟨t, ts, hy, ht⟩ := d.statement_head
  have hopen : t.kind ∉ [Kind.dedent] := notMem_singleton_of_mem ht (by decide)
  have hhead : d.yield ++ (us ++ rest) = t :: (ts ++ (us ++ rest)) := by rw [hy, List.cons_append]
  have hround : Reads (blockRound (statement room)) depth d.yield (us ++ rest) (some d.tree)
      (d.nesting ≤ room) := Reads.ite_neg hhead hopen h.map
  exact reads_collectFor_some hround hmore

theorem isParsed_statementsNil : IsParsed .statementsNil := by
  intro depth room rest fuel hrest hfuel hd
  exact (reads_block_nil hrest hfuel).congr (iff_of_true trivial (Nat.zero_le _))

theorem isParsed_bodyNil : IsParsed .bodyNil := by
  intro depth room rest fuel hrest hfuel hd
  exact (reads_block_nil hrest hfuel).congr (iff_of_true trivial (Nat.zero_le _))

theorem isParsed_statementsCons {d : StmtDerivation false .statement}
    {more : StmtDerivation false .statements} (h : IsParsed d) (hmore : IsParsed more) :
    IsParsed (.statementsCons d more) := by
  intro depth room rest fuel hrest hfuel hd
  obtain ⟨t, ts, hy, -⟩ := d.statement_head
  simp only [StmtDerivation.yield, hy, List.length_append, List.length_cons] at hfuel
  obtain ⟨fuel, rfl⟩ := Nat.exists_eq_add_of_lt (Nat.zero_lt_of_lt hfuel)
  have hfirst := h depth room _ (more.statement_endsBefore_statements hrest) hd.1
  have hothers := hmore depth room rest (0 + fuel) hrest (by omega) hd.2
  exact (reads_block_cons hfirst hothers).congr Nat.max_le.symm

theorem isParsed_bodyStatement {d : StmtDerivation false .statement}
    {more : StmtDerivation false .body} (h : IsParsed d) (hmore : IsParsed more) :
    IsParsed (.bodyStatement d more) := by
  intro depth room rest fuel hrest hfuel hd
  obtain ⟨t, ts, hy, -⟩ := d.statement_head
  simp only [StmtDerivation.yield, hy, List.length_append, List.length_cons] at hfuel
  obtain ⟨fuel, rfl⟩ := Nat.exists_eq_add_of_lt (Nat.zero_lt_of_lt hfuel)
  have hfirst := h depth room _ (more.statement_endsBefore_body hrest) hd.1
  have hothers := hmore depth room rest (0 + fuel) hrest (by omega) hd.2
  exact (reads_block_cons hfirst hothers).congr Nat.max_le.symm

theorem isParsed_suite {nl : TokenOf .newline} {indent : TokenOf .indent}
    {first : StmtDerivation false .statement} {more : StmtDerivation false .statements}
    {dedent : TokenOf .dedent} (hfirst : IsParsed first) (hmore : IsParsed more) :
    IsParsed (.suite nl indent first more dedent) := by
  intro depth room rest hd
  have hclose : StmtRule.statements.EndsBefore (dedent.val :: rest) := dedent.2
  have hfirst := hfirst depth room _ (more.statement_endsBefore_statements hclose) hd.1
  have hblock := Reads.patience_bind fun fuel hfuel =>
    hmore depth room (dedent.val :: rest) fuel hclose hfuel hd.2
  have hend : Reads (expect .suite .dedent >>= fun _ => pure (first.tree :: more.tree)) depth
      [dedent.val] rest (first.tree :: more.tree) True :=
    Reads.expect_bind nofun dedent.2 reads_pure
  refine Reads.enter_bind (Reads.expect_bind nofun nl.2 (Reads.expect_bind nofun indent.2 ?_))
  rw [List.append_cons] at hfirst
  refine Reads.congr (Reads.bind hfirst (Reads.bind hblock hend)) ?_
  rw [StmtDerivation.nesting, Nat.max_le, and_true]

theorem isParsed_funcSuite {nl : TokenOf .newline} {indent : TokenOf .indent}
    {body : StmtDerivation false .body} {dedent : TokenOf .dedent} (h : IsParsed body) :
    IsParsed (.funcSuite nl indent body dedent) := by
  intro depth room rest hd
  have hclose : StmtRule.body.EndsBefore (dedent.val :: rest) := dedent.2
  have hinside : body.Lawful (decide (0 < depth + 1)) := by
    rw [decide_eq_true (Nat.succ_pos depth)]
    exact hd
  have hblock := Reads.patience_bind fun fuel hfuel =>
    h (depth + 1) room (dedent.val :: rest) fuel hclose hfuel hinside
  have hend : Reads (expect .funcSuite .dedent >>= fun _ => pure body.tree) depth
      [dedent.val] rest body.tree True := Reads.expect_bind nofun dedent.2 reads_pure
  refine Reads.enter_bind (Reads.expect_bind nofun nl.2 (Reads.expect_bind nofun indent.2 ?_))
  exact Reads.congr (Reads.bind (reads_inFunction hblock) hend) (iff_of_eq (and_true _))

theorem reads_branch {depth room : Nat} (c : ExprDerivation (.one .test))
    (colon : TokenOf (.symbol .colon)) {body : StmtDerivation false .suite} {rest : List Token}
    (h : Reads (suite (statement room)) depth body.yield rest body.tree (body.nesting ≤ room)) :
    Reads (branch (test room) (statement room)) depth (c.yield ++ colon.val :: body.yield) rest
      (c.tree, body.tree) (c.nesting ≤ room ∧ body.nesting ≤ room) := by
  have hcond := reads_test c (colon.stopsAt Nat.two_pos (body.yield ++ rest)) depth room
  have hbody : Reads (expect .ifStmt (.symbol .colon) >>= fun _ => suite (statement room) >>=
      fun b => pure (c.tree, b)) depth (colon.val :: body.yield) rest (c.tree, body.tree)
      (body.nesting ≤ room) := Reads.expect_bind nofun colon.2 h.map
  exact Reads.bind hcond hbody

/-- Without another tested branch the arms are an `else` branch or nothing. -/
theorem reads_armsRest_last {depth room fuel : Nat} {k : List (Expr × Block) → Option Block → Stmt}
    {ts us rest : List Token} {t : Token} {s : Stmt} {P : Prop} (hfuel : 0 < fuel)
    (ht : ts ++ rest = t :: us) (hk : t.kind ≠ .keyword .elifWord)
    (h : Reads (elseRest (statement room) (k [])) depth ts rest s P) :
    Reads (armsRest (test room) (statement room) fuel k) depth ts rest s P := by
  have hround : Reads (elifRound (test room) (statement room)) depth [] (ts ++ rest) none True :=
    Reads.ite_neg ht (by simpa using hk) reads_pure
  exact Reads.nil_bind (reads_collectFor_none hfuel hround) h

theorem isParsed_armsDone : IsParsed .armsDone := by
  intro depth room rest fuel k s hrest hfuel hd hk
  obtain ⟨t, us, rfl, helif, helse⟩ := hrest.exists_cons
  rw [← hk [] none rfl]
  refine reads_armsRest_last hfuel rfl helif ?_
  refine Reads.ite_neg rfl (by simpa using helse) (reads_pure.congr ?_)
  exact iff_of_true trivial (Nat.zero_le _)

theorem isParsed_armsElse {kw : TokenOf (.keyword .elseWord)} {colon : TokenOf (.symbol .colon)}
    {body : StmtDerivation false .suite} (h : IsParsed body) :
    IsParsed (.armsElse kw colon body) := by
  intro depth room rest fuel k s hrest hfuel hd hk
  rw [← hk [] (some body.tree) rfl]
  refine reads_armsRest_last (Nat.zero_lt_of_lt hfuel) rfl (by simp [kw.2]) ?_
  refine Reads.ite_pos rfl (by simp [kw.2]) (Reads.next_bind (by simp [kw.2]) ?_)
  exact Reads.expect_bind nofun colon.2 (h depth room rest hd).map

theorem isParsed_armsElif {kw : TokenOf (.keyword .elifWord)} {c : ExprDerivation (.one .test)}
    {colon : TokenOf (.symbol .colon)} {body : StmtDerivation false .suite}
    {more : StmtDerivation false .arms} (h : IsParsed body) (hmore : IsParsed more) :
    IsParsed (.armsElif kw c colon body more) := by
  intro depth room rest fuel k s hrest hfuel hd hk
  simp only [StmtDerivation.yield, List.length_cons, List.length_append] at hfuel
  obtain ⟨fuel, rfl⟩ := Nat.exists_eq_add_of_lt (Nat.zero_lt_of_lt hfuel)
  have hothers := hmore depth room rest (0 + fuel)
    (fun elifs last => k ((c.tree, body.tree) :: elifs) last) s hrest (by omega) hd.2
    fun elifs last hm =>
      hk _ last (congrArg (Arms.elif c.tree body.tree) hm)
  have hbranch := reads_branch c colon (h depth room (more.yield ++ rest) hd.1)
  have hround : Reads (elifRound (test room) (statement room)) depth
      (kw.val :: (c.yield ++ colon.val :: body.yield)) (more.yield ++ rest)
      (some (c.tree, body.tree)) (c.nesting ≤ room ∧ body.nesting ≤ room) :=
    Reads.ite_pos rfl (by simp [kw.2]) (Reads.next_bind (by simp [kw.2]) hbranch.map)
  have hyield : (StmtDerivation.armsElif kw c colon body more).yield =
      (kw.val :: (c.yield ++ colon.val :: body.yield)) ++ more.yield := by
    simp [StmtDerivation.yield]
  rw [hyield, armsRest, collectFor_succ_bind]
  refine Reads.congr (Reads.bind hround hothers) ?_
  simp only [StmtDerivation.nesting]
  omega

theorem isParsed_conditional {kw : TokenOf (.keyword .ifWord)} {c : ExprDerivation (.one .test)}
    {colon : TokenOf (.symbol .colon)} {body : StmtDerivation false .suite}
    {more : StmtDerivation false .arms} (h : IsParsed body) (hmore : IsParsed more) :
    IsParsed (.conditional kw c colon body more) := by
  intro depth room rest hrest hd
  cases room with
  | zero => exact reads_tooDeep (Nat.not_succ_le_zero _)
  | succ room =>
    have hbranch := reads_branch c colon (h depth room (more.yield ++ rest) hd.1)
    have hothers := Reads.patience_bind fun fuel hfuel =>
      hmore depth room rest fuel (fun elifs last => .ifElse c.tree body.tree (arms elifs last))
        (.ifElse c.tree body.tree more.tree) hrest hfuel hd.2 fun elifs last hm => by rw [hm]
    have hyield : (StmtDerivation.conditional kw c colon body more).yield =
        kw.val :: ((c.yield ++ colon.val :: body.yield) ++ more.yield) := by
      simp [StmtDerivation.yield]
    rw [hyield]
    refine reads_compound (by simp [kw.2]) (Reads.enter_bind (Reads.peek_bind rfl ?_))
    simp only [kw.2]
    rw [ifStmt_eq]
    refine Reads.enter_bind (Reads.expect_bind nofun kw.2 ?_)
    refine Reads.congr (Reads.bind hbranch hothers) ?_
    simp only [StmtDerivation.nesting]
    omega

theorem isParsed_loop {kw : TokenOf (.keyword .forWord)} {x : TokenOf .name}
    {kwIn : TokenOf (.keyword .inWord)} {kwRange : TokenOf (.keyword .rangeWord)}
    {lp : TokenOf (.symbol .lpar)} {args : ExprDerivation .testList} {rp : TokenOf (.symbol .rpar)}
    {colon : TokenOf (.symbol .colon)} {body : StmtDerivation false .suite} (h : IsParsed body) :
    IsParsed (.loop kw x kwIn kwRange lp args rp colon body) := by
  intro depth room rest hrest hd
  cases room with
  | zero => exact reads_tooDeep (Nat.not_succ_le_zero _)
  | succ room =>
    refine reads_compound (by simp [kw.2]) (Reads.enter_bind (Reads.peek_bind rfl ?_))
    simp only [kw.2]
    refine Reads.enter_bind (Reads.expect_bind nofun kw.2 (Reads.expect_bind nofun x.2
      (Reads.expect_bind nofun kwIn.2 (Reads.expect_bind nofun kwRange.2
      (Reads.expect_bind nofun lp.2 ?_)))))
    have hargs := reads_testList args
      (rp.stopsAt Nat.one_pos (colon.val :: body.yield ++ rest)) depth room
    refine Reads.congr (Reads.bind (Q := body.nesting ≤ room) hargs ?_) ?_
    · refine Reads.expect_bind nofun rp.2 ?_
      rw [if_neg (Nat.not_lt.mpr hd.1.2 : ¬Loop.maxArguments < args.tree.length)]
      exact Reads.expect_bind nofun colon.2 (h depth room rest hd.2).map
    · simp only [StmtDerivation.nesting]
      omega

theorem reads_param {depth : Nat} {x : TokenOf .name} {earlier : List String} {rest : List Token}
    (hx : x.val.text ∉ earlier) :
    Reads (param earlier) depth [x.val] rest (earlier ++ [x.val.text]) True := by
  refine Reads.expect_bind nofun x.2 ?_
  rw [if_neg (fun hc => hx (List.contains_iff_mem.mp hc))]
  exact reads_pure

theorem isParsed_paramNil : IsParsed .paramNil := by
  intro depth rest fuel earlier hrest hfuel hnodup
  obtain ⟨t, us, rfl, ht⟩ := hrest.exists_cons
  have hk : t.kind ∉ [Kind.symbol .comma] := by
    rw [show t.kind = .symbol .rpar from ht]
    decide
  have hround : Reads (paramRound earlier) depth [] (t :: us) none True :=
    Reads.ite_neg rfl hk reads_pure
  rw [StmtDerivation.tree, List.append_nil]
  exact reads_iterateFor_none hfuel hround

theorem isParsed_paramCons {comma : TokenOf (.symbol .comma)} {x : TokenOf .name}
    {more : StmtDerivation false .paramTail} (h : IsParsed more) :
    IsParsed (.paramCons comma x more) := by
  intro depth rest fuel earlier hrest hfuel hnodup
  simp only [StmtDerivation.yield, List.length_cons] at hfuel
  obtain ⟨fuel, rfl⟩ := Nat.exists_eq_add_of_lt (Nat.zero_lt_of_lt hfuel)
  rw [StmtDerivation.tree, List.append_cons] at hnodup ⊢
  have hx : x.val.text ∉ earlier := by
    intro hmem
    have hearlier := (List.nodup_append.mp hnodup).1
    exact (List.nodup_append.mp hearlier).2.2 _ hmem _ (List.mem_singleton_self _) rfl
  have hround : Reads (paramRound earlier) depth [comma.val, x.val] (more.yield ++ rest)
      (some (earlier ++ [x.val.text])) True :=
    Reads.ite_pos rfl (by simp [comma.2]) (Reads.next_bind (by simp [comma.2]) (reads_param hx).map)
  have hothers := h depth rest (0 + fuel) (earlier ++ [x.val.text]) hrest (by omega) hnodup
  exact (reads_iterateFor_some hround hothers).congr (iff_of_eq (and_true True))

theorem isParsed_paramsSome {x : TokenOf .name} {more : StmtDerivation false .paramTail}
    (h : IsParsed more) : IsParsed (.paramsSome x more) := by
  intro depth rest hrest hnodup _
  have hothers := Reads.patience_bind fun fuel hfuel =>
    h depth rest fuel [x.val.text] hrest hfuel hnodup
  rw [params_eq]
  exact (Reads.bind (reads_param (by simp)) hothers).congr (iff_of_eq (and_true True))

theorem isParsed_definition {kw : TokenOf (.keyword .defWord)} {f : TokenOf .name}
    {lp : TokenOf (.symbol .lpar)} {ps : StmtDerivation false .params}
    {rp : TokenOf (.symbol .rpar)}
    {colon : TokenOf (.symbol .colon)} {body : StmtDerivation false .funcSuite}
    (hps : IsParsed ps) (h : IsParsed body) :
    IsParsed (.definition kw f lp ps rp colon body) := by
  intro depth room rest hrest hd
  cases room with
  | zero => exact reads_tooDeep (Nat.not_succ_le_zero _)
  | succ room =>
    refine reads_compound (by simp [kw.2]) (Reads.enter_bind (Reads.peek_bind rfl ?_))
    simp only [kw.2]
    refine Reads.enter_bind (Reads.expect_bind nofun kw.2 (Reads.expect_bind nofun f.2
      (Reads.expect_bind nofun lp.2 ?_)))
    have hend : Reads (expect .funcDef (.symbol .rpar) >>= fun _ =>
        expect .funcDef (.symbol .colon) >>= fun _ => funcSuite (statement room) >>= fun body =>
          pure (Stmt.define f.val.text ps.tree body false)) depth
        (rp.val :: colon.val :: body.yield) rest (.define f.val.text ps.tree body.tree false)
        (body.nesting ≤ room) :=
      Reads.expect_bind nofun rp.2 (Reads.expect_bind nofun colon.2 (h depth room rest hd.2).map)
    have hfits : body.nesting ≤ room ↔
        (StmtDerivation.definition kw f lp ps rp colon body).nesting ≤ room + 1 :=
      Nat.succ_le_succ_iff.symm
    cases ps with
    | paramsNone => exact Reads.ite_pos rfl (by simp [rp.2]) (hend.congr hfits)
    | paramsSome x more =>
      have hparams := hps depth (rp.val :: colon.val :: body.yield ++ rest) rp.2 hd.1 nofun
      refine Reads.ite_neg rfl (by simp [x.2]) (Reads.congr (Reads.bind hparams hend) ?_)
      exact (iff_of_eq (true_and _)).trans hfits

theorem isParsed_fileNil : IsParsed .fileNil := by
  intro room rest fuel hrest hfuel hd
  obtain ⟨t, us, rfl, ht⟩ := hrest.exists_cons
  have hround : Reads (fileRound (statement room)) 0 [] (t :: us) none True :=
    Reads.ite_pos rfl (List.mem_singleton.mpr ht) reads_pure
  exact ⟨[], rfl, (reads_collectFor_none hfuel hround).congr (iff_of_true trivial (Nat.zero_le _))⟩

theorem isParsed_fileNewline {nl : TokenOf .newline} {more : StmtDerivation false .file}
    (h : IsParsed more) : IsParsed (.fileNewline nl more) := by
  intro room rest fuel hrest hfuel hd
  simp only [StmtDerivation.yield, List.length_cons] at hfuel
  obtain ⟨fuel, rfl⟩ := Nat.exists_eq_add_of_lt (Nat.zero_lt_of_lt hfuel)
  obtain ⟨items, htree, hothers⟩ := h room rest (0 + fuel) hrest (by omega) hd
  have hround : Reads (fileRound (statement room)) 0 [nl.val] (more.yield ++ rest) (some none)
      True :=
    Reads.ite_neg rfl (by simp [nl.2]) (Reads.ite_pos rfl (by simp [nl.2])
      (Reads.next_bind (by simp [nl.2]) reads_pure))
  refine ⟨none :: items, ?_, (reads_collectFor_some hround hothers).congr (iff_of_eq (true_and _))⟩
  rw [StmtDerivation.tree, ← htree]
  rfl

theorem isParsed_fileStatement {d : StmtDerivation false .statement}
    {more : StmtDerivation false .file} (h : IsParsed d) (hmore : IsParsed more) :
    IsParsed (.fileStatement d more) := by
  intro room rest fuel hrest hfuel hd
  obtain ⟨t, ts, hy, ht⟩ := d.statement_head
  simp only [StmtDerivation.yield, hy, List.length_append, List.length_cons] at hfuel
  obtain ⟨fuel, rfl⟩ := Nat.exists_eq_add_of_lt (Nat.zero_lt_of_lt hfuel)
  obtain ⟨items, htree, hothers⟩ := hmore room rest (0 + fuel) hrest (by omega) hd.2
  have hfirst := h 0 room _ (more.statement_endsBefore_file hrest) hd.1
  have hhead : d.yield ++ (more.yield ++ rest) = t :: (ts ++ (more.yield ++ rest)) := by
    rw [hy, List.cons_append]
  have heof : t.kind ∉ [Kind.eof] := notMem_singleton_of_mem ht (by decide)
  have hnewline : t.kind ∉ [Kind.newline] := notMem_singleton_of_mem ht (by decide)
  have hround : Reads (fileRound (statement room)) 0 d.yield (more.yield ++ rest)
      (some (some d.tree)) (d.nesting ≤ room) :=
    Reads.ite_neg hhead heof (Reads.ite_neg hhead hnewline hfirst.map)
  refine ⟨some d.tree :: items, ?_, (reads_collectFor_some hround hothers).congr Nat.max_le.symm⟩
  rw [StmtDerivation.tree, ← htree]
  rfl

end IsParsed

/-- Whatever has a lawful derivation is read by the parser of its rule. -/
theorem isParsed {n : StmtRule} (d : StmtDerivation false n) : IsParsed d := by
  induction d with
  | fileNil => exact isParsed_fileNil
  | fileNewline nl more ih => exact isParsed_fileNewline ih
  | fileStatement s more ihs ihm => exact isParsed_fileStatement ihs ihm
  | line s nl ih => exact isParsed_line ih
  | loop kw x kwIn kwRange lp args rp colon body ih => exact isParsed_loop ih
  | conditional kw c colon body arms ihb iha => exact isParsed_conditional ihb iha
  | definition kw f lp ps rp colon body ihp ihb => exact isParsed_definition ihp ihb
  | print kw es => exact isParsed_print
  | assign x eq e => exact isParsed_assign
  | ret s ih => exact isParsed_ret ih
  | returnStmt kw e => exact isParsed_returnStmt
  | suite nl indent first more dedent ihf ihm => exact isParsed_suite ihf ihm
  | statementsNil => exact isParsed_statementsNil
  | statementsCons s more ihs ihm => exact isParsed_statementsCons ihs ihm
  | funcSuite nl indent body dedent ih => exact isParsed_funcSuite ih
  | bodyNil => exact isParsed_bodyNil
  | bodyStatement s more ihs ihm => exact isParsed_bodyStatement ihs ihm
  | bodyReturn h => cases h
  | armsDone => exact isParsed_armsDone
  | armsElse kw colon body ih => exact isParsed_armsElse ih
  | armsElif kw c colon body more ihb ihm => exact isParsed_armsElif ihb ihm
  | paramsNone => exact fun _ _ _ _ h => absurd rfl h
  | paramsSome x more ih => exact isParsed_paramsSome ih
  | paramNil => exact isParsed_paramNil
  | paramCons comma x more ih => exact isParsed_paramCons ih

end TinyScript.Parser
