import Mathlib.Data.Fintype.EquivFin
import TinyScript.Proofs.Parsing.Tracks

/-!
# Syntax errors are found at the earliest token

The tokens before a rejected one can be completed to a program, and with the rejected token they
cannot: every list of tokens that begins in the same way is rejected in the same way. One limit is
noticed late and does not count for this. A loop with too many arguments is rejected at the
parenthesis after them, so the completion may be a program in which a loop has more than three.
-/

namespace TinyScript.Grammar

/-- What `Lawful` says, except that a loop may have any number of arguments. -/
@[simp] def StmtDerivation.Lenient {bare : Bool} :
    {n : StmtRule} → StmtDerivation bare n → (inside : Bool) → Prop
  | _, fileNil, _ | _, statementsNil, _ | _, bodyNil, _ | _, armsDone, _ | _, paramsNone, _
  | _, paramNil, _ | _, print .., _ | _, assign .., _ | _, paramsSome .., _ | _, paramCons .., _ =>
    True
  | _, fileNewline _ rest, inside => rest.Lenient inside
  | _, fileStatement s rest, inside => s.Lenient inside ∧ rest.Lenient inside
  | _, line s _, inside => s.Lenient inside
  | _, loop _ _ _ _ _ _ _ _ body, inside => body.Lenient inside
  | _, conditional _ _ _ body arms, inside => body.Lenient inside ∧ arms.Lenient inside
  | _, definition _ _ _ ps _ _ body, _ => ps.tree.Nodup ∧ body.Lenient true
  | _, ret s, inside => s.Lenient inside
  | _, returnStmt .., inside => inside = true
  | _, suite _ _ first rest _, inside => first.Lenient inside ∧ rest.Lenient inside
  | _, statementsCons s rest, inside | _, bodyStatement s rest, inside =>
    s.Lenient inside ∧ rest.Lenient inside
  | _, funcSuite _ _ body _, inside => body.Lenient inside
  | _, bodyReturn _ s rest, inside => s.Lenient inside ∧ rest.Lenient inside
  | _, armsElse _ _ body, inside => body.Lenient inside
  | _, armsElif _ _ _ body rest, inside => body.Lenient inside ∧ rest.Lenient inside

/-- The tokens have a lenient derivation that stands for `a`. -/
def StmtRule.Allows (n : StmtRule) (depth : Nat) (ts : List Token) (a : n.Tree) : Prop :=
  ∃ d : StmtDerivation false n, d.yield = ts ∧ d.tree = a ∧ d.Lenient (decide (0 < depth))

end TinyScript.Grammar

namespace TinyScript.Parser

open Grammar

section Expr

variable {depth : Nat} {nested : Parse Expr}

theorem tracks_leftChain {l : Level} {operand : Parse Expr}
    (h : Tracks operand depth (ExprRule.one l.operand).Derives) :
    Tracks (leftChain l.operators l.join operand) depth (ExprRule.one (.chain l)).Derives := by
  refine h.bind ?_
  rintro _ _ ⟨first, rfl, rfl⟩
  refine (tracks_iterate
    (I := fun left ts e => ∃ d : ExprDerivation (.tail l), d.yield = ts ∧ d.tree left = e)
    (fun left => ⟨.tailNil, rfl, rfl⟩) (fun left => ?_) first.tree).imp ?_
  · refine Tracks.take (eof_notMem_operators l) (fun op => ?_) (tracks_pure rfl)
    refine h.bind ?_
    rintro _ _ ⟨right, rfl, rfl⟩
    refine tracks_pure ⟨List.cons_ne_nil _ _, ?_⟩
    rintro _ _ ⟨rest, rfl, rfl⟩
    exact ⟨.tailCons op right rest, by simp [ExprDerivation.yield], rfl⟩
  · rintro _ _ ⟨rest, rfl, rfl⟩
    exact ⟨.chain first rest, rfl, rfl⟩

theorem tracks_testList (h : Tracks nested depth (ExprRule.one .test).Derives) :
    Tracks (testList nested) depth ExprRule.testList.Derives := by
  refine Tracks.enter_bind (h.bind ?_)
  rintro _ _ ⟨first, rfl, rfl⟩
  refine (tracks_collect (C := ExprRule.listTail.Derives) ⟨.listNil, rfl, rfl⟩ ?_).bind ?_
  · refine Tracks.take (by decide) (fun comma => ?_) (tracks_pure rfl)
    refine h.bind ?_
    rintro _ _ ⟨e, rfl, rfl⟩
    refine tracks_pure ⟨List.cons_ne_nil _ _, ?_⟩
    rintro _ _ ⟨rest, rfl, rfl⟩
    have hcomma : comma.val.kind = .symbol .comma := List.mem_singleton.mp comma.2
    exact ⟨.listCons ⟨comma.val, hcomma⟩ e rest, by simp [ExprDerivation.yield], rfl⟩
  · rintro _ _ ⟨rest, rfl, rfl⟩
    exact tracks_pure ⟨.list first rest, by simp [ExprDerivation.yield], rfl⟩

/-- A literal is an atom as soon as its text can be converted. -/
theorem foretold_literal {t : Token} {e : Expr} {s : State} (h : t.literal? = some e)
    (hs : EndsInput s.rest) :
    Foretold (fun _ => pure e) depth (fun ts e => (ExprRule.one .atom).Derives (t :: ts) e) s :=
  foretold_pure hs ⟨.literal t e h, rfl, rfl⟩

theorem foretold_number {t : Token} {s : State} (hk : t.kind = .number) (hs : EndsInput s.rest) :
    Foretold (fun _ => number t) depth (fun ts e => (ExprRule.one .atom).Derives (t :: ts) e)
      s := by
  unfold number
  split
  · next n hn => exact foretold_literal (by simp [Token.literal?, hk, hn, Except.toOption]) hs
  · exact foretold_throw (by simp)

theorem foretold_float {t : Token} {s : State} (hk : t.kind = .float) (hs : EndsInput s.rest) :
    Foretold (fun _ => float t) depth (fun ts e => (ExprRule.one .atom).Derives (t :: ts) e) s := by
  unfold float
  split
  · next x hx => exact foretold_literal (by simp [Token.literal?, hk, hx, Except.toOption]) hs
  · exact foretold_throw (by simp)

theorem tracks_atom (h : Tracks nested depth (ExprRule.one .test).Derives) :
    Tracks (atom nested) depth (ExprRule.one .atom).Derives := by
  refine Tracks.enter_bind (tracks_next_bind ⟨_, _, .name (sample _), rfl, rfl⟩ fun t => ?_)
  split
  · next hk => exact .inr ⟨by simp [hk], fun s _ hs => foretold_pure hs ⟨.name ⟨t, hk⟩, rfl, rfl⟩⟩
  · next hk => exact .inr ⟨by simp [hk], fun s _ hs => foretold_number hk hs⟩
  · next hk => exact .inr ⟨by simp [hk], fun s _ hs => foretold_float hk hs⟩
  · next hk =>
    unfold string
    split
    · next cs hcs =>
      refine .inr ⟨by simp [hk], fun s _ hs => foretold_literal ?_ hs⟩
      simp [Token.literal?, hk, hcs, Except.toOption]
    · exact .inl ⟨_, _, rfl, rfl⟩
  · next hk =>
    have hparen : Tracks (nested >>= fun e => expect .atom (.symbol .rpar) >>= fun _ => pure e)
        depth fun ts e => (ExprRule.one .atom).Derives (t :: ts) e := by
      refine h.bind ?_
      rintro _ _ ⟨e, rfl, rfl⟩
      refine Tracks.expect_bind (by decide) fun r => tracks_pure ?_
      exact ⟨.paren ⟨t, hk⟩ e r, by simp [ExprDerivation.yield], rfl⟩
    exact .inr ⟨by simp [hk], hparen.foretold⟩
  · exact .inl ⟨_, _, rfl, rfl⟩

theorem tracks_call (h : Tracks nested depth (ExprRule.one .test).Derives) (f : TokenOf .name) :
    Tracks (call nested f.val.text) depth fun ts e =>
      (ExprRule.one .atomOrCall).Derives (f.val :: ts) e := by
  refine Tracks.enter_bind (Tracks.expect_bind nofun fun l => ?_)
  refine Tracks.ite ?_ ((tracks_testList h).bind ?_)
  · exact Tracks.expect_bind nofun fun r => tracks_pure ⟨.callEmpty f l r, rfl, rfl⟩
  · rintro _ _ ⟨args, rfl, rfl⟩
    exact Tracks.expect_bind nofun fun r => tracks_pure ⟨.call f l args r, rfl, rfl⟩

theorem tracks_atomOrCall (h : Tracks nested depth (ExprRule.one .test).Derives) :
    Tracks (atomOrCall nested) depth (ExprRule.one .atomOrCall).Derives := by
  have hatom : ∀ d : ExprDerivation (.one .atom), (ExprRule.one .atomOrCall).Derives
      (d.yield ++ []) d.tree := fun d => ⟨.atom d, by simp [ExprDerivation.yield], rfl⟩
  refine Tracks.enter_bind (tracks_peek_bind ⟨_, _, hatom (.name (sample _))⟩ fun first => ?_)
  refine TracksAt.bind (tracks_atom h) ?_ ?_
  · rintro _ _ ⟨d, rfl, rfl⟩
    exact ⟨[], d.tree, hatom d⟩
  · rintro _ _ ⟨d, rfl, rfl⟩ hfirst
    split
    · next hk =>
      -- The atom was the name that had been looked at, and may turn out to be called.
      have hname : d.yield = [first] := by
        obtain ⟨t, ts, hy, -⟩ := d.yield_head rfl
        obtain rfl : t = first := hfirst t (by simp [hy])
        have happ : d.yield ++ [] = t :: ts := by rw [hy, List.append_nil]
        rw [hy, ← d.rest_eq_of_name (f := ⟨t, hk⟩) happ]
      refine Tracks.ite ?_ (tracks_pure (hatom d))
      rw [hname]
      exact tracks_call h ⟨first, hk⟩
    · exact tracks_pure (hatom d)

theorem tracks_chain {l : Level} {room : Nat}
    (h : Tracks (tier l.operand nested room) depth (ExprRule.one l.operand).Derives) :
    Tracks (tier (.chain l) nested room) depth (ExprRule.one (.chain l)).Derives := by
  rw [tier_chain]
  exact Tracks.enter_bind (tracks_leftChain h)

theorem tracks_factor (h : Tracks nested depth (ExprRule.one .test).Derives) (room : Nat) :
    Tracks (factor nested room) depth (ExprRule.one .factor).Derives := by
  have hprimary : Tracks (atomOrCall nested) depth (ExprRule.one .factor).Derives := by
    refine (tracks_atomOrCall h).imp ?_
    rintro _ _ ⟨d, rfl, rfl⟩
    exact ⟨.primary d, rfl, rfl⟩
  induction room with
  | zero => exact tracks_throw hprimary.inhabited (by simp)
  | succ room ih =>
    refine Tracks.enter_bind (Tracks.take (by decide) (fun op => ih.bind ?_) hprimary)
    rintro _ _ ⟨d, rfl, rfl⟩
    refine tracks_pure ⟨.minus ⟨op.val, List.mem_singleton.mp op.2⟩ d, ?_, rfl⟩
    simp [ExprDerivation.yield]

theorem tracks_comparison (h : Tracks nested depth (ExprRule.one .test).Derives) (room : Nat) :
    Tracks (comparison nested room) depth (ExprRule.one (.chain .comparison)).Derives :=
  have hterm : Tracks (tier (.chain .term) nested room) depth _ :=
    tracks_chain (tracks_factor h room)
  have harith : Tracks (tier (.chain .arith) nested room) depth _ := tracks_chain hterm
  tracks_chain (l := .comparison) harith

theorem tracks_notTest (h : Tracks nested depth (ExprRule.one .test).Derives) (room : Nat) :
    Tracks (notTest nested room) depth (ExprRule.one .notTest).Derives := by
  have hpositive : ∀ room,
      Tracks (comparison nested room) depth (ExprRule.one .notTest).Derives := by
    intro room
    refine (tracks_comparison h room).imp ?_
    rintro _ _ ⟨d, rfl, rfl⟩
    exact ⟨.positive d, rfl, rfl⟩
  induction room with
  | zero => exact tracks_throw (hpositive 0).inhabited (by simp)
  | succ room ih =>
    refine Tracks.enter_bind (Tracks.take (by decide) (fun op => ih.bind ?_) (hpositive room))
    rintro _ _ ⟨d, rfl, rfl⟩
    refine tracks_pure ⟨.negation ⟨op.val, List.mem_singleton.mp op.2⟩ d, ?_, rfl⟩
    simp [ExprDerivation.yield]

theorem tracks_test (room : Nat) : Tracks (test room) depth (ExprRule.one .test).Derives := by
  induction room with
  | zero => exact tracks_throw ⟨_, _, sampleName, rfl, rfl⟩ (by simp)
  | succ room ih =>
    have hand : Tracks (tier (.chain .and) (test room) room) depth _ :=
      tracks_chain (tracks_notTest ih room)
    have hor : Tracks (tier (.chain .or) (test room) room) depth _ := tracks_chain hand
    refine Tracks.enter_bind (hor.imp ?_)
    rintro _ _ ⟨d, rfl, rfl⟩
    exact ⟨.test d, rfl, rfl⟩

end Expr

/-- The statement `print x`. -/
def samplePrint : StmtDerivation false .statement :=
  .line (.print (sample _) (.list sampleName .listNil)) (sample _)

/-- There is always one more name. -/
theorem exists_fresh (names : List String) : ∃ x : TokenOf .name, x.val.text ∉ names := by
  obtain ⟨text, htext⟩ := Infinite.exists_notMem_finset names.toFinset
  rw [List.mem_toFinset] at htext
  exact ⟨⟨⟨.name, text, .start⟩, rfl⟩, htext⟩

section Stmt

variable {depth : Nat} {expr : Parse Expr} {stmt : Parse Stmt}

theorem tracks_printStmt (h : Tracks expr depth (ExprRule.one .test).Derives) :
    Tracks (printStmt expr) depth (StmtRule.simple.Allows depth) := by
  refine Tracks.enter_bind (Tracks.expect_bind nofun fun kw => (tracks_testList h).bind ?_)
  rintro _ _ ⟨es, rfl, rfl⟩
  exact tracks_pure ⟨.print kw es, by simp [StmtDerivation.yield], rfl, trivial⟩

theorem tracks_assignStmt (h : Tracks expr depth (ExprRule.one .test).Derives)
    (x : TokenOf .name) :
    Tracks (assignStmt expr x.val.text) depth fun ts s =>
      StmtRule.simple.Allows depth (x.val :: ts) s := by
  refine Tracks.enter_bind (Tracks.expect_bind nofun fun eq => h.bind ?_)
  rintro _ _ ⟨e, rfl, rfl⟩
  exact tracks_pure ⟨.assign x eq e, by simp [StmtDerivation.yield], rfl, trivial⟩

theorem tracks_returnStmt (h : Tracks expr depth (ExprRule.one .test).Derives)
    (hdepth : depth ≠ 0) : Tracks (returnStmt expr) depth (StmtRule.simple.Allows depth) := by
  refine Tracks.enter_bind (Tracks.expect_bind nofun fun kw => h.bind ?_)
  rintro _ _ ⟨e, rfl, rfl⟩
  refine tracks_pure ⟨.ret (.returnStmt kw e), by simp [StmtDerivation.yield], rfl, ?_⟩
  exact decide_eq_true (Nat.pos_of_ne_zero hdepth)

theorem tracks_simpleBody (h : Tracks expr depth (ExprRule.one .test).Derives) :
    Tracks (simpleBody expr) depth (StmtRule.simple.Allows depth) := by
  have hsimple := (tracks_printStmt h).inhabited
  refine tracks_peek_bind hsimple fun t => ?_
  split
  · exact (tracks_printStmt h).at t
  · refine TracksAt.depth_ite ?_
    split
    · exact TracksAt.of_refuses hsimple (refuses_next rfl rfl)
    · next hdepth => exact (tracks_returnStmt h hdepth).at t
  · next hk =>
    -- The name can always be completed to an assignment.
    have hassign := tracks_assignStmt h ⟨t, hk⟩
    refine TracksAt.next_bind (by simp [hk]) (Tracks.foretold ?_)
    refine tracks_peek_bind hassign.inhabited fun following => ?_
    split
    · exact hassign.at following
    · exact TracksAt.of_refuses hassign.inhabited (refuses_reject rfl)
    · exact TracksAt.of_refuses hassign.inhabited (refuses_next rfl rfl)
  · exact TracksAt.of_refuses hsimple (refuses_next rfl rfl)

theorem tracks_simpleStmt (h : Tracks expr depth (ExprRule.one .test).Derives) :
    Tracks (simpleStmt expr) depth (StmtRule.statement.Allows depth) := by
  refine Tracks.enter_bind ((tracks_simpleBody h).bind ?_)
  rintro _ _ ⟨s, rfl, rfl, hs⟩
  exact Tracks.expect_bind nofun fun nl => tracks_pure ⟨.line s nl, rfl, rfl, hs⟩

/-- A statement takes a token at least. -/
theorem ne_nil_of_allows {ts : List Token} {s : Stmt} (h : StmtRule.statement.Allows depth ts s) :
    ts ≠ [] := by
  obtain ⟨d, rfl, -, -⟩ := h
  obtain ⟨t, ts, hy, -⟩ := d.statement_head
  rw [hy]
  exact List.cons_ne_nil t ts

/-- The statements of a block, for either kind of block. -/
theorem tracks_blockRest {C : List Token → Block → Prop} (hnil : C [] [])
    (hcons : ∀ ts s, StmtRule.statement.Allows depth ts s →
      ∀ us b, C us b → C (ts ++ us) (s :: b))
    (h : Tracks stmt depth (StmtRule.statement.Allows depth)) :
    Tracks (blockRest stmt) depth C := by
  refine tracks_collect hnil (Tracks.ite (tracks_pure rfl) (h.bind ?_))
  intro ts s hs
  refine tracks_pure ?_
  rw [List.append_nil]
  exact ⟨ne_nil_of_allows hs, hcons ts s hs⟩

theorem tracks_suite (h : Tracks stmt depth (StmtRule.statement.Allows depth)) :
    Tracks (suite stmt) depth (StmtRule.suite.Allows depth) := by
  refine Tracks.enter_bind (Tracks.expect_bind nofun fun nl =>
    Tracks.expect_bind nofun fun indent => h.bind ?_)
  rintro _ _ ⟨first, rfl, rfl, hfirst⟩
  refine (tracks_blockRest (C := StmtRule.statements.Allows depth)
    ⟨.statementsNil, rfl, rfl, trivial⟩ ?_ h).bind ?_
  · rintro _ _ ⟨s, rfl, rfl, hs⟩ _ _ ⟨more, rfl, rfl, hmore⟩
    exact ⟨.statementsCons s more, rfl, rfl, hs, hmore⟩
  · rintro _ _ ⟨more, rfl, rfl, hmore⟩
    refine Tracks.expect_bind nofun fun dedent => tracks_pure ?_
    exact ⟨.suite nl indent first more dedent, by simp [StmtDerivation.yield], rfl, hfirst, hmore⟩

theorem tracks_funcSuite (h : Tracks stmt (depth + 1) (StmtRule.statement.Allows (depth + 1))) :
    Tracks (funcSuite stmt) depth (StmtRule.funcSuite.Allows (depth + 1)) := by
  refine Tracks.enter_bind (Tracks.expect_bind nofun fun nl =>
    Tracks.expect_bind nofun fun indent => ?_)
  refine (tracks_inFunction (tracks_blockRest (C := StmtRule.body.Allows (depth + 1))
    ⟨.bodyNil, rfl, rfl, trivial⟩ ?_ h)).bind ?_
  · rintro _ _ ⟨s, rfl, rfl, hs⟩ _ _ ⟨more, rfl, rfl, hmore⟩
    exact ⟨.bodyStatement s more, rfl, rfl, hs, hmore⟩
  · rintro _ _ ⟨body, rfl, rfl, hbody⟩
    refine Tracks.expect_bind nofun fun dedent => tracks_pure ?_
    exact ⟨.funcSuite nl indent body dedent, rfl, rfl, hbody⟩

/-- A tested branch: its condition, the colon and its block. -/
theorem tracks_branch (he : Tracks expr depth (ExprRule.one .test).Derives)
    (hs : Tracks stmt depth (StmtRule.statement.Allows depth)) :
    Tracks (branch expr stmt) depth fun ts b =>
      ∃ (c : ExprDerivation (.one .test)) (colon : TokenOf (.symbol .colon))
        (body : StmtDerivation false .suite),
        c.yield ++ colon.val :: body.yield = ts ∧ (c.tree, body.tree) = b ∧
          body.Lenient (decide (0 < depth)) := by
  refine he.bind ?_
  rintro _ _ ⟨c, rfl, rfl⟩
  refine Tracks.expect_bind nofun fun colon => (tracks_suite hs).bind ?_
  rintro _ _ ⟨body, rfl, rfl, hbody⟩
  exact tracks_pure ⟨c, colon, body, by simp, rfl, hbody⟩

theorem tracks_ifStmt (he : Tracks expr depth (ExprRule.one .test).Derives)
    (hs : Tracks stmt depth (StmtRule.statement.Allows depth)) :
    Tracks (ifStmt expr stmt) depth (StmtRule.statement.Allows depth) := by
  refine Tracks.enter_bind (Tracks.expect_bind nofun fun kw => (tracks_branch he hs).bind ?_)
  rintro _ _ ⟨c, colon, body, rfl, rfl, hbody⟩
  -- The tested branches are the beginning of the arms, whatever ends the arms.
  refine (tracks_collect (C := fun ts elifs => ∀ last : StmtDerivation false .arms,
    last.Lenient (decide (0 < depth)) →
    ∃ d : StmtDerivation false .arms, d.yield = ts ++ last.yield ∧
      d.tree = elifs.foldr (fun b rest => .elif b.1 b.2 rest) last.tree ∧
      d.Lenient (decide (0 < depth))) ?_ ?_).bind ?_
  · exact fun last hlast => ⟨last, rfl, rfl, hlast⟩
  · refine Tracks.take (by decide) (fun kw => (tracks_branch he hs).bind ?_) (tracks_pure rfl)
    rintro _ _ ⟨c, colon, body, rfl, rfl, hbody⟩
    refine tracks_pure ⟨List.cons_ne_nil _ _, fun us elifs ih last hlast => ?_⟩
    obtain ⟨d, hy, ht, hd⟩ := ih last hlast
    refine ⟨.armsElif ⟨kw.val, List.mem_singleton.mp kw.2⟩ c colon body d, ?_, ?_, hbody, hd⟩
    · simp [StmtDerivation.yield, hy]
    · simp [StmtDerivation.tree, ht]
  · intro us elifs helifs
    refine Tracks.take (by decide) (fun kwElse => ?_) ?_
    · refine Tracks.expect_bind nofun fun colonElse => (tracks_suite hs).bind ?_
      rintro _ _ ⟨last, rfl, rfl, hlast⟩
      obtain ⟨d, hy, ht, hd⟩ := helifs
        (.armsElse ⟨kwElse.val, List.mem_singleton.mp kwElse.2⟩ colonElse last) hlast
      refine tracks_pure ⟨.conditional kw c colon body d, ?_, ?_, hbody, hd⟩
      · simp [StmtDerivation.yield, hy]
      · simp only [StmtDerivation.tree, ht]
        rfl
    · obtain ⟨d, hy, ht, hd⟩ := helifs .armsDone trivial
      refine tracks_pure ⟨.conditional kw c colon body d, ?_, ?_, hbody, hd⟩
      · simp [StmtDerivation.yield, hy]
      · simp only [StmtDerivation.tree, ht]
        rfl

/-- A loop. Where its parenthesis is rejected because of the arguments before it, the tokens so far
still begin a loop that is lenient. -/
theorem tracks_forStmt (he : Tracks expr depth (ExprRule.one .test).Derives)
    (hs : Tracks stmt depth (StmtRule.statement.Allows depth)) :
    Tracks (forStmt expr stmt) depth (StmtRule.statement.Allows depth) := by
  refine Tracks.enter_bind (Tracks.expect_bind nofun fun kw => Tracks.expect_bind nofun fun x =>
    Tracks.expect_bind nofun fun kwIn => Tracks.expect_bind nofun fun kwRange =>
    Tracks.expect_bind nofun fun lp => (tracks_testList he).bind ?_)
  rintro _ _ ⟨args, rfl, rfl⟩
  have hloop : ∀ (rp : TokenOf (.symbol .rpar)), Tracks (expect .forStmt (.symbol .colon) >>=
      fun _ => suite stmt >>= fun body => pure (.forRange x.val.text args.tree body)) depth
        fun ts s => StmtRule.statement.Allows depth (kw.val :: x.val :: kwIn.val :: kwRange.val ::
          lp.val :: (args.yield ++ rp.val :: ts)) s := by
    intro rp
    refine Tracks.expect_bind nofun fun colon => (tracks_suite hs).bind ?_
    rintro _ _ ⟨body, rfl, rfl, hbody⟩
    refine tracks_pure ⟨.loop kw x kwIn kwRange lp args rp colon body, ?_, rfl, hbody⟩
    simp [StmtDerivation.yield]
  obtain ⟨ts, s, hts⟩ := (hloop (sample _)).inhabited
  refine Tracks.expect_bind_or ⟨_, s, hts⟩ nofun fun rp => ?_
  split
  · exact .inl ⟨_, rfl, rfl⟩
  · exact .inr (hloop rp)

/-- One more parameter, which is not among those before it. -/
theorem tracks_param (earlier : List String) :
    Tracks (param earlier) depth fun ts ps =>
      ∃ x : TokenOf .name, [x.val] = ts ∧ earlier ++ [x.val.text] = ps ∧ x.val.text ∉ earlier := by
  obtain ⟨fresh, hfresh⟩ := exists_fresh earlier
  refine Tracks.expect_bind_or ⟨_, _, fresh, rfl, rfl, hfresh⟩ nofun fun x => ?_
  split
  · exact .inl ⟨_, rfl, rfl⟩
  · next hx =>
    exact .inr (tracks_pure ⟨x, rfl, rfl, fun hm => hx (List.contains_iff_mem.mpr hm)⟩)

theorem tracks_params :
    Tracks params depth fun ts ps =>
      ∃ d : StmtDerivation false .params, d.yield = ts ∧ d.tree = ps ∧ ps.Nodup := by
  refine (tracks_param []).bind ?_
  rintro _ _ ⟨x, rfl, rfl, -⟩
  refine (tracks_iterate (I := fun earlier ts ps => earlier.Nodup →
    ∃ d : StmtDerivation false .paramTail, d.yield = ts ∧ earlier ++ d.tree = ps ∧ ps.Nodup)
    ?_ (fun earlier => ?_) _).imp ?_
  · exact fun earlier h => ⟨.paramNil, rfl, by simp [StmtDerivation.tree], h⟩
  · refine Tracks.take (by decide) (fun comma => (tracks_param earlier).bind ?_) (tracks_pure rfl)
    rintro _ _ ⟨y, rfl, rfl, hy⟩
    refine tracks_pure ⟨List.cons_ne_nil _ _, fun us ps ih hearlier => ?_⟩
    obtain ⟨d, rfl, rfl, hnodup⟩ := ih (nodup_concat hearlier hy)
    refine ⟨.paramCons ⟨comma.val, List.mem_singleton.mp comma.2⟩ y d, rfl, ?_, hnodup⟩
    simp [StmtDerivation.tree]
  · intro ts ps ih
    obtain ⟨d, rfl, rfl, hnodup⟩ := ih (by simp)
    exact ⟨.paramsSome x d, rfl, rfl, hnodup⟩

theorem tracks_funcDef (h : Tracks stmt (depth + 1) (StmtRule.statement.Allows (depth + 1))) :
    Tracks (funcDef stmt) depth (StmtRule.statement.Allows depth) := by
  refine Tracks.enter_bind (Tracks.expect_bind nofun fun kw => Tracks.expect_bind nofun fun f =>
    Tracks.expect_bind nofun fun lp => ?_)
  -- What follows the parameters, whether there are any or not.
  have hend : ∀ ps : StmtDerivation false .params, ps.tree.Nodup →
      Tracks (expect .funcDef (.symbol .rpar) >>= fun _ =>
        expect .funcDef (.symbol .colon) >>= fun _ => funcSuite stmt >>= fun body =>
          pure (.define f.val.text ps.tree body false)) depth fun ts s =>
        StmtRule.statement.Allows depth (kw.val :: f.val :: lp.val :: (ps.yield ++ ts)) s := by
    intro ps hps
    refine Tracks.expect_bind nofun fun rp => Tracks.expect_bind nofun fun colon =>
      (tracks_funcSuite h).bind ?_
    rintro _ _ ⟨body, rfl, rfl, hbody⟩
    refine tracks_pure ⟨.definition kw f lp ps rp colon body, ?_, rfl, hps, ?_⟩
    · simp [StmtDerivation.yield]
    · simpa using hbody
  refine Tracks.ite (hend .paramsNone List.nodup_nil) (tracks_params.bind ?_)
  rintro _ _ ⟨ps, rfl, rfl, hps⟩
  exact hend ps hps

theorem tracks_compoundStmt (he : Tracks expr depth (ExprRule.one .test).Derives)
    (hs : Tracks stmt depth (StmtRule.statement.Allows depth))
    (hf : Tracks stmt (depth + 1) (StmtRule.statement.Allows (depth + 1))) :
    Tracks (compoundStmt expr stmt) depth (StmtRule.statement.Allows depth) := by
  refine Tracks.enter_bind (tracks_peek_bind hs.inhabited fun t => ?_)
  split
  · exact (tracks_forStmt he hs).at t
  · exact (tracks_ifStmt he hs).at t
  · exact (tracks_funcDef hf).at t
  · exact TracksAt.of_refuses hs.inhabited (refuses_next rfl rfl)

end Stmt

theorem tracks_statement (room depth : Nat) :
    Tracks (statement room) depth (StmtRule.statement.Allows depth) := by
  induction room generalizing depth with
  | zero => exact tracks_throw ⟨_, _, samplePrint, rfl, rfl, trivial⟩ (by simp)
  | succ room ih =>
    refine Tracks.enter_bind (Tracks.ite ?_ ?_)
    · exact tracks_compoundStmt (tracks_test room) (ih depth) (ih (depth + 1))
    · exact tracks_simpleStmt (tracks_test room)

/-- Programs, up to the end of the input. -/
theorem tracks_program (room : Nat) : Tracks (program room) 0 (StmtRule.file.Allows 0) := by
  rw [program, fileInput_eq]
  refine Tracks.enter_bind ((tracks_collect (C := fun ts items =>
    StmtRule.file.Allows 0 ts (items.filterMap id)) ⟨.fileNil, rfl, rfl, trivial⟩ ?_).bind ?_)
  · refine Tracks.ite (tracks_pure rfl) (Tracks.take (by decide) (fun nl => ?_) ?_)
    · refine tracks_pure ⟨List.cons_ne_nil _ _, ?_⟩
      rintro _ items ⟨d, rfl, htree, hd⟩
      exact ⟨.fileNewline ⟨nl.val, List.mem_singleton.mp nl.2⟩ d, rfl, htree, hd⟩
    · refine (tracks_statement room 0).bind ?_
      intro ts s hs
      refine tracks_pure ?_
      rw [List.append_nil]
      refine ⟨ne_nil_of_allows hs, ?_⟩
      rintro _ items ⟨d, rfl, htree, hd⟩
      obtain ⟨first, rfl, rfl, hfirst⟩ := hs
      exact ⟨.fileStatement first d, rfl, congrArg (first.tree :: ·) htree, hfirst, hd⟩
  · intro ts items hitems
    refine tracks_pure ?_
    rwa [List.append_nil]

/-- The tokens that are read begin with those that are given; only the end of the input may have
been added. -/
theorem prefix_rest_start (ts : List Token) (log : Log) : ts <+: (State.start ts log).rest := by
  have hrest : (State.start ts log).rest = Cursor.terminated ts := by
    simp [State.start, State.rest, Cursor.ofTokens]
  rw [hrest, Cursor.terminated]
  cases hlast : ts.getLast? with
  | none =>
    rw [List.getLast?_eq_none_iff] at hlast
    rw [hlast]
    exact List.nil_prefix
  | some last =>
    dsimp only
    split
    · exact List.prefix_rfl
    · exact List.prefix_append ts _

/-- What is rejected once is rejected on every list of tokens that begins in the same way. -/
theorem Refuses.program {room : Nat} {ts ts' : List Token} {t : Token} {scope : Production}
    {cause : SyntaxCause} (h : Refuses (program room) 0 ts t scope cause) (hts : ts ++ [t] <+: ts')
    (log : Log) :
    ∃ s, program room (.start ts' log) =
      .error (.rejected ⟨scope, cause, t, ts ++ cause.shown t⟩) s := by
  obtain ⟨more, hmore⟩ := hts.trans (prefix_rest_start ts' log)
  have hrest : (State.start ts' log).rest = ts ++ t :: more := by rw [← hmore]; simp
  exact h (.start ts' log) more hrest rfl

/-- A syntax error is reported at the earliest token that does not go on with a program: the tokens
before it are the beginning of a program, if the number of arguments of a loop is not limited, and
whatever begins with them and this token is rejected with the same error. The history is what was
read by then, with the rejected token unless it was only looked at. -/
theorem program_rejects_earliest {us : List Token} {e : Token} (he : e.kind = .eof) {room : Nat}
    {log : Log} {err : SyntaxError} {s : State}
    (h : program room (.start (us ++ [e]) log) = .error (.rejected err) s) :
    ∃ k, (us ++ [e])[k]? = some err.token ∧
      err.history = (us ++ [e]).take (if err.cause.taken then k + 1 else k) ∧
      (∀ ts log', (us ++ [e]).take (k + 1) <+: ts →
        ∃ s', program room (.start ts log') = .error (.rejected err) s') ∧
      ∃ (d : StmtDerivation false .file) (more : List Token),
        d.yield = (us ++ [e]).take k ++ more ∧ d.Lenient false ∧ d.NamesCalled [e] := by
  have hrest : (State.start (us ++ [e]) log).rest = us ++ [e] := rest_start he log
  cases (tracks_program room).foretold (.start (us ++ [e]) log) rfl ⟨us, e, hrest, he⟩ with
  | @reads ts vs t b hs hq hread =>
    rcases hread _ vs (Nat.lt_succ_self _) _ hs rfl with ⟨-, s', hok, -⟩ | ⟨hno, -⟩
    · cases hok.symm.trans h
    · exact absurd trivial hno
  | stops hstop =>
    obtain ⟨x, s', hx, hne⟩ := hstop _ (Nat.lt_succ_self _)
    cases hx.symm.trans h
    exact absurd rfl (hne err)
  | @refuses ts vs t scope cause hs hq hrefuse =>
    have hsplit : us ++ [e] = ts ++ t :: vs := hrest.symm.trans hs
    have hsame := hrefuse _ (Nat.lt_succ_self _)
    have hthrough : (us ++ [e]).take (ts.length + 1) = ts ++ [t] := by
      rw [hsplit, List.take_length_add_append]
      rfl
    have hbefore : (us ++ [e]).take ts.length = ts := by rw [hsplit, List.take_left]
    obtain ⟨s', herr⟩ := hsame.program (hthrough ▸ List.take_prefix _ _) log
    cases herr.symm.trans h
    refine ⟨ts.length, by simp [hsplit], ?_, ?_, ?_⟩
    · cases htaken : cause.taken
      · simp [SyntaxCause.shown, htaken, hbefore]
      · simp [SyntaxCause.shown, htaken, hthrough]
    · intro ts' log' hts'
      rw [hthrough] at hts'
      exact hsame.program hts' log'
    · obtain ⟨more, b, d, hyield, -, hd⟩ := hq
      rw [hbefore]
      exact ⟨d, more, hyield, hd, d.namesCalled he⟩

/-- The error with which a token was rejected, if one was. -/
def rejection? {α : Type} : EStateM.Result Failure State α → Option SyntaxError
  | .error (.rejected err) _ => some err
  | _ => none

theorem exists_of_rejection? {α : Type} {r : EStateM.Result Failure State α} {err : SyntaxError}
    (h : rejection? r = some err) : ∃ s, r = .error (.rejected err) s := by
  unfold rejection? at h
  split at h
  · next err' s =>
    cases h
    exact ⟨s, rfl⟩
  · cases h

/-- In the body of a function, a loop with four arguments and the parenthesis after them. -/
def longRange : List Token :=
  [Kind.keyword .defWord, .name, .symbol .lpar, .symbol .rpar, .symbol .colon, .newline, .indent,
    .keyword .forWord, .name, .keyword .inWord, .keyword .rangeWord, .symbol .lpar,
    .name, .symbol .comma, .name, .symbol .comma, .name, .symbol .comma, .name,
    .symbol .rpar].map fun k => (sample k).val

/-- The parenthesis is rejected, although the tokens before it can be completed. -/
theorem program_longRange_rejected :
    ∃ err s, program 200 (.start (longRange ++ [(sample .eof).val]) ⟨0, #[]⟩) =
        .error (.rejected err) s ∧
      err.cause = .tooManyArguments 4 ∧ err.token = (sample (.symbol .rpar)).val ∧
      ∃ k, err.history = (longRange ++ [(sample .eof).val]).take (k + 1) ∧
        ∃ (d : StmtDerivation false .file) (more : List Token),
          d.yield = (longRange ++ [(sample .eof).val]).take k ++ more ∧ d.Lenient false := by
  have hreject : rejection? (program 200
      (.start (longRange ++ [(sample .eof).val]) ⟨0, #[]⟩)) =
        some ⟨.forStmt, .tooManyArguments 4, (sample (.symbol .rpar)).val, longRange⟩ := by
    decide +kernel
  obtain ⟨s, hs⟩ := exists_of_rejection? hreject
  obtain ⟨k, -, hhistory, -, d, more, hyield, hd, -⟩ := program_rejects_earliest rfl hs
  exact ⟨_, s, hs, rfl, rfl, k, hhistory, d, more, hyield, hd⟩

end TinyScript.Parser
