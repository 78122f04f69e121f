import TinyScript.Env
import TinyScript.Proofs.Parsing.Program
import TinyScript.Proofs.Tree.Spelled

/-!
# Trees of parsed programs

The tree of a program that has been parsed has no missing parts. Its operators are of the right
kinds, each loop has one to three arguments, parameters are distinct, and `return` stands in
function bodies only (`wellFormed_of_parseProgram`). The same holds of the body of every function
that the program defines, however deep inside (`Stmt.allWellFormed_body`). Variables, functions and
parameters have names that can be written (`named_of_parseProgram`).
-/

namespace TinyScript

open Grammar

mutual

/-- A statement as the grammar produces it; `inside` tells whether a function body is open. -/
def Stmt.WellFormed (inside : Bool) : Stmt → Prop
  | .assign _ e => e.Spelled
  | .print es => Expr.AllSpelled es
  | .ifElse c body arms => c.Spelled ∧ Stmt.AllWellFormed inside body ∧ arms.WellFormed inside
  | .forRange _ args body =>
    (1 ≤ args.length ∧ args.length ≤ Loop.maxArguments) ∧ Expr.AllSpelled args ∧
      Stmt.AllWellFormed inside body
  | .define _ params body registered =>
    registered = false ∧ params.Nodup ∧ Stmt.AllWellFormed true body
  | .ret e => inside = true ∧ e.Spelled
  | .headless _ | .bare _ | .block _ | .guarded .. | .hole => False

def Arms.WellFormed (inside : Bool) : Arms → Prop
  | .done => True
  | .otherwise body => Stmt.AllWellFormed inside body
  | .elif c body rest => c.Spelled ∧ Stmt.AllWellFormed inside body ∧ rest.WellFormed inside

def Stmt.AllWellFormed (inside : Bool) : List Stmt → Prop
  | [] => True
  | s :: ss => s.WellFormed inside ∧ Stmt.AllWellFormed inside ss

end

namespace Grammar.StmtDerivation

/-- What the tree of a phrase is like. -/
def IsWellFormed (inside : Bool) : {n : StmtRule} → n.Tree → Prop
  | .file, b | .suite, b | .statements, b | .funcSuite, b | .body, b =>
    Stmt.AllWellFormed inside b
  | .statement, s | .simple, s | .returnStmt, s => s.WellFormed inside
  | .arms, a => a.WellFormed inside
  | .params, _ | .paramTail, _ => True

/-- The tree of a lawful derivation from faithful tokens is well formed. -/
theorem wellFormed {n : StmtRule} (d : StmtDerivation false n) {inside : Bool}
    (h : ∀ t ∈ d.yield, t.Faithful) (hd : d.Lawful inside) : IsWellFormed inside d.tree := by
  induction d generalizing inside with
  | fileNil | statementsNil | bodyNil | armsDone | paramsNone | paramNil => trivial
  | paramsSome | paramCons => trivial
  | fileNewline nl rest ih => exact ih (fun t ht => h t (List.mem_cons_of_mem _ ht)) hd
  | fileStatement s rest ihs ihr | statementsCons s rest ihs ihr | bodyStatement s rest ihs ihr =>
    exact ⟨ihs (fun t ht => h t (List.mem_append_left _ ht)) hd.1,
      ihr (fun t ht => h t (List.mem_append_right _ ht)) hd.2⟩
  | line s nl ih => exact ih (fun t ht => h t (List.mem_append_left _ ht)) hd
  | loop kw x kwIn kwRange l args r colon body ih =>
    refine ⟨hd.1, args.spelled fun t ht => h t ?_, ih (fun t ht => h t ?_) hd.2⟩
    · simp [yield, ht]
    · simp [yield, ht]
  | conditional kw c colon body arms ihb iha =>
    refine ⟨c.spelled fun t ht => h t ?_, ihb (fun t ht => h t ?_) hd.1,
      iha (fun t ht => h t ?_) hd.2⟩
    · simp [yield, ht]
    · simp [yield, ht]
    · simp [yield, ht]
  | definition kw f l ps r colon body ihp ihb =>
    refine ⟨rfl, hd.1, ihb (fun t ht => h t ?_) hd.2⟩
    simp [yield, ht]
  | print kw es => exact es.spelled fun t ht => h t (List.mem_cons_of_mem _ ht)
  | assign x eq e =>
    exact e.spelled fun t ht => h t (List.mem_cons_of_mem _ (List.mem_cons_of_mem _ ht))
  | ret s ih => exact ih h hd
  | returnStmt kw e => exact ⟨hd, e.spelled fun t ht => h t (List.mem_cons_of_mem _ ht)⟩
  | suite nl indent first rest dedent ihf ihr =>
    refine ⟨ihf (fun t ht => h t ?_) hd.1, ihr (fun t ht => h t ?_) hd.2⟩
    · simp [yield, ht]
    · simp [yield, ht]
  | funcSuite nl indent body dedent ih =>
    refine ih (fun t ht => h t ?_) hd
    simp [yield, ht]
  | bodyReturn hbare s rest ihs ihr => cases hbare
  | armsElse kw colon body ih =>
    exact ih (fun t ht => h t (List.mem_cons_of_mem _ (List.mem_cons_of_mem _ ht))) hd
  | armsElif kw c colon body rest ihb ihr =>
    refine ⟨c.spelled fun t ht => h t ?_, ihb (fun t ht => h t ?_) hd.1,
      ihr (fun t ht => h t ?_) hd.2⟩
    · simp [yield, ht]
    · simp [yield, ht]
    · simp [yield, ht]

end Grammar.StmtDerivation

/-- What a text is parsed to is the tree of a lawful derivation of its tokens; all are faithful. -/
theorem derivation_of_parseProgram {room : Nat} {source : String} {log : Log} {program : Block}
    (h : (parseProgram room source log).1 = .ok program) :
    ∃ (d : StmtDerivation false .file) (eof : Token), d.tree = program ∧ d.Lawful false ∧
      (∀ t ∈ d.yield, t.Faithful) ∧ tokenize source = .ok (d.yield ++ [eof]) := by
  unfold parseProgram Parser.parseText at h
  cases htokens : tokenize source with
  | error e =>
    rw [htokens] at h
    cases h
  | ok tokens =>
    obtain ⟨us, e, rfl, he, hus⟩ := faithful_of_tokenize htokens
    simp only [htokens] at h
    split at h
    · next b s hok =>
      cases h
      obtain ⟨d, rfl, hd, rfl⟩ := Parser.derivation_of_program he (fun t ht => (hus t ht).2) hok
      exact ⟨d, e, rfl, hd, fun t ht => (hus t ht).1, rfl⟩
    · cases h

/-- What a text is parsed to is well formed. -/
theorem wellFormed_of_parseProgram {room : Nat} {source : String} {log : Log} {program : Block}
    (h : (parseProgram room source log).1 = .ok program) : Stmt.AllWellFormed false program := by
  obtain ⟨d, eof, rfl, hd, hfaithful, -⟩ := derivation_of_parseProgram h
  exact d.wellFormed hfaithful hd

mutual

/-- Variables, functions and parameters are called by names that can be written. -/
def Stmt.Named : Stmt → Prop
  | .assign x _ => IsName x
  | .ifElse _ body arms => Stmt.AllNamed body ∧ arms.Named
  | .forRange x _ body => IsName x ∧ Stmt.AllNamed body
  | .define f params body _ => IsName f ∧ (∀ p ∈ params, IsName p) ∧ Stmt.AllNamed body
  | .headless arms => arms.Named
  | .block body | .guarded _ body => Stmt.AllNamed body
  | .print _ | .ret _ | .bare _ | .hole => True

def Arms.Named : Arms → Prop
  | .done => True
  | .otherwise body => Stmt.AllNamed body
  | .elif _ body rest => Stmt.AllNamed body ∧ rest.Named

def Stmt.AllNamed : List Stmt → Prop
  | [] => True
  | s :: ss => s.Named ∧ Stmt.AllNamed ss

end

namespace Grammar.StmtDerivation

/-- How the names in the tree of a phrase are spelt. -/
def IsNamed : {n : StmtRule} → n.Tree → Prop
  | .file, b | .suite, b | .statements, b | .funcSuite, b | .body, b => Stmt.AllNamed b
  | .statement, s | .simple, s | .returnStmt, s => s.Named
  | .arms, a => a.Named
  | .params, ps | .paramTail, ps => ∀ p ∈ ps, IsName p

/-- The names in the tree of a derivation are those of its tokens. -/
theorem named {n : StmtRule} (d : StmtDerivation false n) (h : ∀ t ∈ d.yield, t.Faithful) :
    IsNamed d.tree := by
  induction d with
  | fileNil | statementsNil | bodyNil | armsDone | print | returnStmt => trivial
  | paramsNone | paramNil => nofun
  | paramsSome x rest ih =>
    have hx := ExprDerivation.isName_of_faithful x (h x.val List.mem_cons_self)
    exact List.forall_mem_cons.mpr ⟨hx, ih fun t ht => h t (List.mem_cons_of_mem _ ht)⟩
  | paramCons comma x rest ih =>
    have hx := ExprDerivation.isName_of_faithful x (h x.val (by simp [yield]))
    exact List.forall_mem_cons.mpr ⟨hx, ih fun t ht => h t (by simp [yield, ht])⟩
  | fileNewline nl rest ih => exact ih fun t ht => h t (List.mem_cons_of_mem _ ht)
  | fileStatement s rest ihs ihr | statementsCons s rest ihs ihr | bodyStatement s rest ihs ihr =>
    exact ⟨ihs fun t ht => h t (List.mem_append_left _ ht),
      ihr fun t ht => h t (List.mem_append_right _ ht)⟩
  | line s nl ih => exact ih fun t ht => h t (List.mem_append_left _ ht)
  | loop kw x kwIn kwRange l args r colon body ih =>
    have hx := ExprDerivation.isName_of_faithful x (h x.val (by simp [yield]))
    exact ⟨hx, ih fun t ht => h t (by simp [yield, ht])⟩
  | conditional kw c colon body arms ihb iha =>
    exact ⟨ihb fun t ht => h t (by simp [yield, ht]), iha fun t ht => h t (by simp [yield, ht])⟩
  | definition kw f l ps r colon body ihp ihb =>
    have hf := ExprDerivation.isName_of_faithful f (h f.val (by simp [yield]))
    exact ⟨hf, ihp fun t ht => h t (by simp [yield, ht]), ihb fun t ht => h t (by simp [yield, ht])⟩
  | assign x eq e => exact ExprDerivation.isName_of_faithful x (h x.val List.mem_cons_self)
  | ret s ih => exact ih h
  | suite nl indent first rest dedent ihf ihr =>
    exact ⟨ihf fun t ht => h t (by simp [yield, ht]), ihr fun t ht => h t (by simp [yield, ht])⟩
  | funcSuite nl indent body dedent ih => exact ih fun t ht => h t (by simp [yield, ht])
  | bodyReturn hbare s rest ihs ihr => cases hbare
  | armsElse kw colon body ih => exact ih fun t ht => h t (by simp [yield, ht])
  | armsElif kw c colon body rest ihb ihr =>
    exact ⟨ihb fun t ht => h t (by simp [yield, ht]), ihr fun t ht => h t (by simp [yield, ht])⟩

end Grammar.StmtDerivation

/-- What a text is parsed to has names that the text spells. -/
theorem named_of_parseProgram {room : Nat} {source : String} {log : Log} {program : Block}
    (h : (parseProgram room source log).1 = .ok program) : Stmt.AllNamed program := by
  obtain ⟨d, eof, rfl, -, hfaithful, -⟩ := derivation_of_parseProgram h
  exact d.named hfaithful

mutual

/-- The functions that a statement defines, those in the bodies of other functions among them, as
they stand in the environment once they are defined. -/
def Stmt.functions : Stmt → List Function
  | .ifElse _ body arms => Stmt.allFunctions body ++ arms.functions
  | .headless arms => arms.functions
  | .forRange _ _ body | .block body | .guarded _ body => Stmt.allFunctions body
  | .define name params body _ => ⟨name, params, body, true⟩ :: Stmt.allFunctions body
  | .assign .. | .print _ | .ret _ | .bare _ | .hole => []

def Arms.functions : Arms → List Function
  | .done => []
  | .otherwise body => Stmt.allFunctions body
  | .elif _ body rest => Stmt.allFunctions body ++ rest.functions

def Stmt.allFunctions : List Stmt → List Function
  | [] => []
  | s :: ss => s.functions ++ Stmt.allFunctions ss

end

mutual

/-- A function in a well-formed statement has distinct parameters and a well-formed body. -/
theorem Stmt.wellFormed_function {inside : Bool} {s : Stmt} (hs : s.WellFormed inside)
    {f : Function} (hf : f ∈ s.functions) :
    f.registered = true ∧ f.params.Nodup ∧ Stmt.AllWellFormed true f.body := by
  cases s with
  | assign | print | ret => cases hf
  | headless | bare | block | guarded | hole => exact hs.elim
  | ifElse c body arms =>
    rcases List.mem_append.mp hf with hf | hf
    · exact Stmt.allWellFormed_function hs.2.1 hf
    · exact Arms.wellFormed_function hs.2.2 hf
  | forRange x args body => exact Stmt.allWellFormed_function hs.2.2 hf
  | define name params body registered =>
    rcases List.mem_cons.mp hf with rfl | hf
    · exact ⟨rfl, hs.2⟩
    · exact Stmt.allWellFormed_function hs.2.2 hf

theorem Arms.wellFormed_function {inside : Bool} {arms : Arms} (harms : arms.WellFormed inside)
    {f : Function} (hf : f ∈ arms.functions) :
    f.registered = true ∧ f.params.Nodup ∧ Stmt.AllWellFormed true f.body := by
  cases arms with
  | done => cases hf
  | otherwise body => exact Stmt.allWellFormed_function harms hf
  | elif c body rest =>
    rcases List.mem_append.mp hf with hf | hf
    · exact Stmt.allWellFormed_function harms.2.1 hf
    · exact Arms.wellFormed_function harms.2.2 hf

theorem Stmt.allWellFormed_function {inside : Bool} {ss : List Stmt}
    (hss : Stmt.AllWellFormed inside ss) {f : Function} (hf : f ∈ Stmt.allFunctions ss) :
    f.registered = true ∧ f.params.Nodup ∧ Stmt.AllWellFormed true f.body := by
  cases ss with
  | nil => cases hf
  | cons s ss =>
    rcases List.mem_append.mp hf with hf | hf
    · exact Stmt.wellFormed_function hss.1 hf
    · exact Stmt.allWellFormed_function hss.2 hf

end

theorem Stmt.allWellFormed_body {inside : Bool} {ss : List Stmt}
    (hss : Stmt.AllWellFormed inside ss) {f : Function} (hf : f ∈ Stmt.allFunctions ss) :
    Stmt.AllWellFormed true f.body :=
  (Stmt.allWellFormed_function hss hf).2.2

end TinyScript
