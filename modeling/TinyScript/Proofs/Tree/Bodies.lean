import TinyScript.Proofs.Lexing.Blocks
import TinyScript.Proofs.Tree.WellFormed

/-!
# Functions of parsed programs

A function that a parsed program defines, at any depth, has distinct parameters and a body that is
not empty and marks no definition as registered (`sound_of_parseProgram`). The grammar would allow
an empty body. There is none because the mark that opens a block is never followed at once by the
one that closes it.
-/

namespace TinyScript

open Grammar Layout

mutual

/-- No definition in the statement, at any depth, is marked as registered. -/
def Stmt.Fresh : Stmt → Prop
  | .define _ _ body registered => registered = false ∧ Stmt.AllFresh body
  | .ifElse _ body arms => Stmt.AllFresh body ∧ arms.Fresh
  | .headless arms => arms.Fresh
  | .forRange _ _ body | .block body | .guarded _ body => Stmt.AllFresh body
  | .assign .. | .print _ | .ret _ | .bare _ | .hole => True

def Arms.Fresh : Arms → Prop
  | .done => True
  | .otherwise body => Stmt.AllFresh body
  | .elif _ body rest => Stmt.AllFresh body ∧ rest.Fresh

def Stmt.AllFresh : List Stmt → Prop
  | [] => True
  | s :: ss => s.Fresh ∧ Stmt.AllFresh ss

end

mutual

theorem Stmt.WellFormed.fresh {inside : Bool} {s : Stmt} (h : s.WellFormed inside) : s.Fresh := by
  cases s with
  | assign | print | ret => trivial
  | headless | bare | block | guarded | hole => exact h.elim
  | ifElse c body arms => exact ⟨Stmt.AllWellFormed.fresh h.2.1, Arms.WellFormed.fresh h.2.2⟩
  | forRange x args body => exact Stmt.AllWellFormed.fresh h.2.2
  | define name params body registered => exact ⟨h.1, Stmt.AllWellFormed.fresh h.2.2⟩

theorem Arms.WellFormed.fresh {inside : Bool} {arms : Arms} (h : arms.WellFormed inside) :
    arms.Fresh := by
  cases arms with
  | done => trivial
  | otherwise body => exact Stmt.AllWellFormed.fresh h
  | elif c body rest => exact ⟨Stmt.AllWellFormed.fresh h.2.1, Arms.WellFormed.fresh h.2.2⟩

theorem Stmt.AllWellFormed.fresh {inside : Bool} {ss : List Stmt}
    (h : Stmt.AllWellFormed inside ss) : Stmt.AllFresh ss := by
  cases ss with
  | nil => trivial
  | cons s ss => exact ⟨Stmt.WellFormed.fresh h.1, Stmt.AllWellFormed.fresh h.2⟩

end

/-- What a function is like that has been defined by a parsed program. -/
structure Function.Sound (f : Function) : Prop where
  registered : f.registered = true
  params : f.params.Nodup
  body : f.body ≠ []
  fresh : Stmt.AllFresh f.body

/-- Marks of indentation stand where they belong among the tokens of a text. -/
theorem isChain_of_tokenize {source : String} {ts : List Token} (h : tokenize source = .ok ts) :
    ts.IsChain Joined := by
  obtain ⟨-, hok, rfl⟩ := tokenize_eq_ok_iff.mp h
  have hended := Source.ended_padded source.toList
  have hblocks := blocks_arrange (fun l hl hline => Cut.endsLine hended hl hline) hok
  refine List.isChain_append.mpr ⟨hblocks.isChain, .singleton _, fun t _ u hu => ?_⟩
  cases hu
  exact .of_not_mark (by simp [Token.eofAt]) t

namespace Grammar.StmtDerivation

/-- The functions in the tree of a phrase have bodies, and a phrase that is one is not empty. -/
def IsFilled : {n : StmtRule} → n.Tree → Prop
  | .file, b | .suite, b | .statements, b | .body, b => ∀ f ∈ Stmt.allFunctions b, f.body ≠ []
  | .funcSuite, b => b ≠ [] ∧ ∀ f ∈ Stmt.allFunctions b, f.body ≠ []
  | .statement, s | .simple, s | .returnStmt, s => ∀ f ∈ s.functions, f.body ≠ []
  | .arms, a => ∀ f ∈ a.functions, f.body ≠ []
  | .params, _ | .paramTail, _ => True

theorem yield_of_tree_eq_nil (d : StmtDerivation false .body) (h : d.tree = []) : d.yield = [] := by
  cases d with
  | bodyNil => rfl
  | bodyStatement s rest => cases h
  | bodyReturn hbare s rest => cases hbare

/-- Where marks stand where they belong, the bodies of functions are filled. -/
theorem filled {n : StmtRule} (d : StmtDerivation false n) {ts : List Token}
    (hts : ts.IsChain Joined) (h : d.yield <:+: ts) : IsFilled d.tree := by
  induction d with
  | fileNil | statementsNil | bodyNil | armsDone | print | assign | returnStmt => nofun
  | paramsNone | paramNil | paramsSome | paramCons => trivial
  | fileNewline nl rest ih => exact ih (.trans ⟨[nl.val], [], by simp⟩ h)
  | fileStatement s rest ihs ihr | statementsCons s rest ihs ihr | bodyStatement s rest ihs ihr =>
    refine List.forall_mem_append.mpr ⟨ihs (.trans ⟨[], rest.yield, by simp⟩ h), ?_⟩
    exact ihr (.trans ⟨s.yield, [], by simp⟩ h)
  | line s nl ih => exact ih (.trans ⟨[], [nl.val], by simp⟩ h)
  | loop kw x kwIn kwRange l args r colon body ih =>
    exact ih (.trans ⟨kw.val :: x.val :: kwIn.val :: kwRange.val :: l.val ::
      (args.yield ++ [r.val, colon.val]), [], by simp⟩ h)
  | conditional kw c colon body arms ihb iha =>
    refine List.forall_mem_append.mpr ⟨?_, ?_⟩
    · exact ihb (.trans ⟨kw.val :: (c.yield ++ [colon.val]), arms.yield, by simp⟩ h)
    · exact iha (.trans ⟨kw.val :: (c.yield ++ colon.val :: body.yield), [], by simp⟩ h)
  | definition kw f l ps r colon body ihp ihb =>
    exact List.forall_mem_cons.mpr (ihb (.trans ⟨kw.val :: f.val :: l.val ::
      (ps.yield ++ [r.val, colon.val]), [], by simp⟩ h))
  | ret s ih => exact ih h
  | suite nl indent first rest dedent ihf ihr =>
    refine List.forall_mem_append.mpr ⟨?_, ?_⟩
    · exact ihf (.trans ⟨[nl.val, indent.val], rest.yield ++ [dedent.val], by simp⟩ h)
    · exact ihr (.trans ⟨nl.val :: indent.val :: first.yield, [dedent.val], by simp⟩ h)
  | funcSuite nl indent body dedent ih =>
    refine ⟨fun hnil => ?_, ih (.trans ⟨[nl.val, indent.val], [dedent.val], by simp⟩ h)⟩
    -- The mark that closes the block would stand right behind the one that opens it.
    have hmarks : [nl.val, indent.val, dedent.val] <:+: ts := by
      simpa [yield_of_tree_eq_nil body hnil] using h
    have hchain : [nl.val, indent.val, dedent.val].IsChain Joined := List.IsChain.infix hts hmarks
    have hjoined := (List.isChain_cons_cons.mp (List.isChain_cons_cons.mp hchain).2).1
    rcases hjoined.dedent dedent.property with hkind | hkind
    · exact absurd (hkind.symm.trans indent.property) (by decide)
    · exact absurd (hkind.symm.trans indent.property) (by decide)
  | bodyReturn hbare s rest ihs ihr => cases hbare
  | armsElse kw colon body ih => exact ih (.trans ⟨[kw.val, colon.val], [], by simp⟩ h)
  | armsElif kw c colon body rest ihb ihr =>
    refine List.forall_mem_append.mpr ⟨?_, ?_⟩
    · exact ihb (.trans ⟨kw.val :: (c.yield ++ [colon.val]), rest.yield, by simp⟩ h)
    · exact ihr (.trans ⟨kw.val :: (c.yield ++ colon.val :: body.yield), [], by simp⟩ h)

end Grammar.StmtDerivation

/-- The functions that a parsed program defines, at any depth, are sound. -/
theorem sound_of_parseProgram {room : Nat} {source : String} {log : Log} {program : Block}
    (h : (parseProgram room source log).1 = .ok program) {f : Function}
    (hf : f ∈ Stmt.allFunctions program) : f.Sound := by
  obtain ⟨d, eof, rfl, hd, hfaithful, htokens⟩ := derivation_of_parseProgram h
  have hfilled := d.filled (isChain_of_tokenize htokens) (List.infix_append [] d.yield [eof])
  obtain ⟨hregistered, hparams, hbody⟩ :=
    Stmt.allWellFormed_function (d.wellFormed hfaithful hd) hf
  exact ⟨hregistered, hparams, hfilled f hf, Stmt.AllWellFormed.fresh hbody⟩

end TinyScript
