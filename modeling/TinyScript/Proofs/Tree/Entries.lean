import TinyScript.Proofs.Json.Numbers
import TinyScript.Proofs.Tree.Layout
import TinyScript.Proofs.Tree.WellFormed

/-!
# The entries of a program

An outline is laid out from a tree of headers, one for each node of the program
(`Stmt.lines_entries`). No header of a parsed program holds a line end or begins with a blank, so
the layout can be taken apart (`Stmt.legible_entries`): names are words, texts are quoted on one
line, and operators and numbers have neither.
-/

namespace TinyScript

open Number (fits floatText intText)
open Outline (Entry IsHeader OneLine blockHeader)
open Text (commaList joinWith quote)

mutual

/-- The headers of an expression. A missing expression has the header of its kind. -/
def Expr.entry : Expr → Entry
  | .var x => .node ("Variable " ++ x) []
  | .int n => .node ("WholeNumber " ++ intText n) []
  | .float x => .node ("Double " ++ floatText x) []
  | .str s => .node ("StringExp " ++ quote s) []
  | .call f args => .node ("FunctionCall " ++ f) (Expr.entries args)
  | .logic op l r => .node ("BooleanExprNode " ++ op) [l.entry, r.entry]
  | .logicUnary op e => .node ("BooleanExprNode " ++ op) [e.entry]
  | .compare op l r => .node ("ComparisonExprNode " ++ op) [l.entry, r.entry]
  | .arith op l r => .node ("InfixExprNode " ++ op) [l.entry, r.entry]
  | .arithUnary op e => .node ("InfixExprNode " ++ op) [e.entry]
  | .hole => .node "ExprNode" []

def Expr.entries : List Expr → List Entry
  | [] => []
  | e :: es => e.entry :: Expr.entries es

end

namespace Outline

/-- A block with the entries of its statements. -/
def blockEntry (body : Block) (below : List Entry) : Entry := .node (blockHeader body) below

/-- A tested branch with the entries of its statements. -/
def branchEntry (c : Expr) (body : Block) (below : List Entry) : Entry :=
  .node ("Branch " ++ c.text) [c.entry, blockEntry body below]

end Outline

open Outline (blockEntry branchEntry)

mutual

/-- The headers of a statement. -/
def Stmt.entry : Stmt → Entry
  | .assign x e => .node ("AssignStmt " ++ x ++ " = " ++ e.text) [e.entry]
  | .print es => .node "PrintStatement" (Expr.entries es)
  | .ifElse c body arms =>
    .node "IfStatement" (.node "If" [branchEntry c body (Stmt.entries body)] :: arms.entries)
  | .headless arms => .node "IfStatement" arms.entries
  | .forRange x args body =>
    .node ("RangeStmt " ++ x ++ " in range(" ++ commaList (Expr.texts args) ++ ")")
      (Expr.entries args ++ [blockEntry body (Stmt.entries body)])
  | .define f params body _ =>
    .node ("FunctionDefinition " ++ f ++ "(" ++ commaList params ++ ")")
      [blockEntry body (Stmt.entries body)]
  | .ret e => .node ("ReturnStatement " ++ e.text) [e.entry]
  | .bare e => e.entry
  | .block body => blockEntry body (Stmt.entries body)
  | .guarded c body => branchEntry c body (Stmt.entries body)
  | .hole => .node "Statement" []

/-- The headers of the further arms of a conditional. -/
def Arms.entries : Arms → List Entry
  | .done => []
  | .otherwise body => [.node "Else" [blockEntry body (Stmt.entries body)]]
  | .elif c body rest => .node "Elif" [branchEntry c body (Stmt.entries body)] :: rest.entries

def Stmt.entries : List Stmt → List Entry
  | [] => []
  | s :: ss => s.entry :: Stmt.entries ss

end

section Lines

attribute [local simp] Entry.lines Entry.linesAll blockEntry branchEntry

mutual

theorem Expr.lines_entry (depth : Nat) (e : Expr) (h : e.Spelled) :
    e.entry.lines depth = e.outline depth := by
  cases e with
  | var | int | float | str => rfl
  | call f args => simp [Expr.entry, Expr.outline, Expr.lines_entries (depth + 1) args h.2]
  | logic op l r | compare op l r | arith op l r =>
    simp [Expr.entry, Expr.outline, Expr.lines_entry (depth + 1) l h.2.1,
      Expr.lines_entry (depth + 1) r h.2.2]
  | logicUnary op e | arithUnary op e =>
    simp [Expr.entry, Expr.outline, Expr.lines_entry (depth + 1) e h.2]
  | hole => exact h.elim

theorem Expr.lines_entries (depth : Nat) (es : List Expr) (h : Expr.AllSpelled es) :
    Entry.linesAll depth (Expr.entries es) = Expr.outlineAll depth es := by
  cases es with
  | nil => rfl
  | cons e es =>
    simp [Expr.entries, Expr.outlineAll, Expr.lines_entry depth e h.1,
      Expr.lines_entries depth es h.2]

end

mutual

theorem Stmt.lines_entry {inside : Bool} (depth : Nat) (s : Stmt) (h : s.WellFormed inside) :
    s.entry.lines depth = s.outline depth := by
  cases s with
  | assign x e => simp [Stmt.entry, Stmt.outline, Expr.lines_entry (depth + 1) e h]
  | print es => simp [Stmt.entry, Stmt.outline, Expr.lines_entries (depth + 1) es h]
  | ifElse c body arms =>
    simp [Stmt.entry, Stmt.outline, Expr.lines_entry (depth + 3) c h.1,
      Stmt.lines_entries (depth + 4) body h.2.1, Arms.lines_entries (depth + 1) arms h.2.2]
  | forRange x args body =>
    simp [Stmt.entry, Stmt.outline, Entry.linesAll_append,
      Expr.lines_entries (depth + 1) args h.2.1, Stmt.lines_entries (depth + 2) body h.2.2]
  | define f params body registered =>
    simp [Stmt.entry, Stmt.outline, Stmt.lines_entries (depth + 2) body h.2.2]
  | ret e => simp [Stmt.entry, Stmt.outline, Expr.lines_entry (depth + 1) e h.2]
  | headless | bare | block | guarded | hole => exact h.elim

theorem Arms.lines_entries {inside : Bool} (depth : Nat) (arms : Arms)
    (h : arms.WellFormed inside) :
    Entry.linesAll depth arms.entries = arms.outline depth := by
  cases arms with
  | done => rfl
  | otherwise body =>
    simp [Arms.entries, Arms.outline, Stmt.lines_entries (depth + 2) body h]
  | elif c body rest =>
    simp [Arms.entries, Arms.outline, Expr.lines_entry (depth + 2) c h.1,
      Stmt.lines_entries (depth + 3) body h.2.1, Arms.lines_entries depth rest h.2.2]

theorem Stmt.lines_entries {inside : Bool} (depth : Nat) (ss : List Stmt)
    (h : Stmt.AllWellFormed inside ss) :
    Entry.linesAll depth (Stmt.entries ss) = Stmt.outlineAll depth ss := by
  cases ss with
  | nil => rfl
  | cons s ss =>
    simp [Stmt.entries, Stmt.outlineAll, Stmt.lines_entry depth s h.1,
      Stmt.lines_entries depth ss h.2]

end

end Lines

theorem Outline.oneLine_of_forall {s : String} {p : Char → Bool} (h : ∀ c ∈ s.toList, p c = true)
    (hp : p '\n' = false) : OneLine s := by
  intro hmem
  rw [h _ hmem] at hp
  cases hp

theorem Outline.oneLine_joinWith {separator : String} (hsep : OneLine separator)
    {texts : List String} (h : ∀ s ∈ texts, OneLine s) : OneLine (joinWith separator texts) := by
  induction texts with
  | nil => exact oneLine_empty
  | cons s ss ih =>
    have hss := ih fun t ht => h t (List.mem_cons_of_mem _ ht)
    rw [Text.joinWith_cons]
    refine (h s List.mem_cons_self).append ?_
    cases ss with
    | nil => exact oneLine_empty
    | cons t ts => exact hsep.append hss

theorem Outline.isHeader_blockHeader (body : Block) : IsHeader (blockHeader body) := by
  have hcount : OneLine body.length.repr := by
    refine oneLine_of_forall (p := Text.isDigit) (fun c hc => ?_) (by decide)
    rw [Nat.repr, String.toList_ofList] at hc
    exact Number.isDigit_of_mem_toDigits _ c hc
  have hopen : IsHeader "Statements (" := by decide
  exact (hopen.append hcount).append (by decide)

open Outline (oneLine_of_forall oneLine_joinWith isHeader_blockHeader)

theorem IsName.not_mem {x : String} (h : IsName x) {c : Char} (hc : Text.isWord c = false) :
    c ∉ x.toList := by
  obtain ⟨d, ds, hx, -, hword⟩ := h.word
  rw [hx]
  intro hmem
  rw [hword c hmem] at hc
  cases hc

theorem IsName.ne_empty {x : String} (h : IsName x) : x ≠ "" := by
  obtain ⟨d, ds, hx, -, -⟩ := h.word
  rintro rfl
  cases hx

theorem IsName.oneLine {x : String} (h : IsName x) : OneLine x := h.not_mem (by decide)

theorem Number.oneLine_intText {n : Int} (h : fits n = true) : OneLine (intText n) :=
  oneLine_of_forall (Json.isWord_int h).inner (by decide)

theorem Number.oneLine_floatText (x : Float) : OneLine (floatText x) :=
  oneLine_of_forall (Json.isInner_floatText x) (by decide)

theorem Text.oneLine_quote (s : String) : OneLine (quote s) := by
  refine oneLine_of_forall (p := Text.isPrintable) (fun c hc => ?_) (by decide)
  rw [quote, String.toList_ofList] at hc
  exact Text.Quoted.isPrintable_of_mem_encode hc

theorem Grammar.Level.IsOperator.oneLine {l : Grammar.Level} {op : String} (h : l.IsOperator op) :
    OneLine op := by
  have hall : l.operators.all fun k => k.spelling?.all fun s => decide (OneLine s) := by
    cases l <;> decide
  exact of_decide_eq_true (h.forall_spelling hall)

/-- The operator of a spelled expression is one line. -/
theorem Expr.oneLine_op {op : String} {l m : Grammar.Level}
    (h : l.IsOperator op ∨ m.IsOperator op) : OneLine op :=
  h.elim (·.oneLine) (·.oneLine)

theorem Expr.oneLine_operation {op l r : String} (hop : OneLine op) (hl : OneLine l)
    (hr : OneLine r) : OneLine ("(" ++ l ++ " " ++ op ++ " " ++ r ++ ")") := by
  have hopen : OneLine "(" := by decide
  have hblank : OneLine " " := by decide
  have hclose : OneLine ")" := by decide
  exact (((((hopen.append hl).append hblank).append hop).append hblank).append hr).append hclose

mutual

/-- The text of an expression is one line. -/
theorem Expr.oneLine_text (e : Expr) (h : e.Spelled) : OneLine e.text := by
  cases e with
  | var x => exact h.oneLine
  | int n => exact Number.oneLine_intText h.2
  | float x => exact Number.oneLine_floatText x
  | str s => exact Text.oneLine_quote s
  | call f args =>
    have hargs := oneLine_joinWith (by decide : OneLine ", ") (Expr.oneLine_texts args h.2)
    exact ((h.1.oneLine.append (by decide)).append hargs).append (by decide)
  | logic op l r | arith op l r =>
    exact Expr.oneLine_operation (Expr.oneLine_op h.1) (Expr.oneLine_text l h.2.1)
      (Expr.oneLine_text r h.2.2)
  | compare op l r =>
    exact Expr.oneLine_operation h.1.oneLine (Expr.oneLine_text l h.2.1)
      (Expr.oneLine_text r h.2.2)
  | logicUnary op e | arithUnary op e =>
    have he := Expr.oneLine_text e h.2
    rw [Expr.text, h.1]
    exact OneLine.append (OneLine.append (by decide) he) (by decide)
  | hole => exact h.elim

theorem Expr.oneLine_texts (es : List Expr) (h : Expr.AllSpelled es) :
    ∀ s ∈ Expr.texts es, OneLine s := by
  cases es with
  | nil => nofun
  | cons e es =>
    exact List.forall_mem_cons.mpr ⟨Expr.oneLine_text e h.1, Expr.oneLine_texts es h.2⟩

end

mutual

theorem Expr.legible_entry (e : Expr) (h : e.Spelled) : e.entry.Legible := by
  cases e with
  | var x => exact ⟨IsHeader.append (by decide) h.oneLine, trivial⟩
  | int n => exact ⟨IsHeader.append (by decide) (Number.oneLine_intText h.2), trivial⟩
  | float x => exact ⟨IsHeader.append (by decide) (Number.oneLine_floatText x), trivial⟩
  | str s => exact ⟨IsHeader.append (by decide) (Text.oneLine_quote s), trivial⟩
  | call f args =>
    exact ⟨IsHeader.append (by decide) h.1.oneLine, Expr.legible_entries args h.2⟩
  | logic op l r | arith op l r =>
    exact ⟨IsHeader.append (by decide) (Expr.oneLine_op h.1), Expr.legible_entry l h.2.1,
      Expr.legible_entry r h.2.2, trivial⟩
  | compare op l r =>
    exact ⟨IsHeader.append (by decide) h.1.oneLine, Expr.legible_entry l h.2.1,
      Expr.legible_entry r h.2.2, trivial⟩
  | logicUnary op e | arithUnary op e =>
    have hop : OneLine op := by
      rw [h.1]
      decide
    exact ⟨IsHeader.append (by decide) hop, Expr.legible_entry e h.2, trivial⟩
  | hole => exact h.elim

theorem Expr.legible_entries (es : List Expr) (h : Expr.AllSpelled es) :
    Entry.AllLegible (Expr.entries es) := by
  cases es with
  | nil => trivial
  | cons e es => exact ⟨Expr.legible_entry e h.1, Expr.legible_entries es h.2⟩

end

theorem Outline.Entry.AllLegible.append {ts us : List Entry} (hts : Entry.AllLegible ts)
    (hus : Entry.AllLegible us) : Entry.AllLegible (ts ++ us) := by
  induction ts with
  | nil => exact hus
  | cons t ts ih => exact ⟨hts.1, ih hts.2⟩

theorem Outline.legible_blockEntry (body : Block) {below : List Entry}
    (h : Entry.AllLegible below) : (blockEntry body below).Legible :=
  ⟨isHeader_blockHeader body, h⟩

theorem Outline.legible_branchEntry {c : Expr} (hc : c.Spelled) (body : Block) {below : List Entry}
    (h : Entry.AllLegible below) : (branchEntry c body below).Legible :=
  ⟨IsHeader.append (by decide) (c.oneLine_text hc), c.legible_entry hc,
    legible_blockEntry body h, trivial⟩

open Outline (legible_blockEntry legible_branchEntry)

mutual

theorem Stmt.legible_entry {inside : Bool} (s : Stmt) (h : s.WellFormed inside) (hn : s.Named) :
    s.entry.Legible := by
  cases s with
  | assign x e =>
    have hheader : IsHeader ("AssignStmt " ++ x ++ " = " ++ e.text) :=
      ((IsHeader.append (by decide) hn.oneLine).append (by decide)).append (e.oneLine_text h)
    exact ⟨hheader, e.legible_entry h, trivial⟩
  | print es => exact ⟨by decide, Expr.legible_entries es h⟩
  | ifElse c body arms =>
    have hbody := Stmt.legible_entries body h.2.1 hn.1
    have hbranch := legible_branchEntry h.1 body hbody
    exact ⟨by decide, ⟨by decide, hbranch, trivial⟩, Arms.legible_entries arms h.2.2 hn.2⟩
  | forRange x args body =>
    have hargs := oneLine_joinWith (by decide : OneLine ", ") (Expr.oneLine_texts args h.2.1)
    have hheader : IsHeader
        ("RangeStmt " ++ x ++ " in range(" ++ commaList (Expr.texts args) ++ ")") :=
      (((IsHeader.append (by decide) hn.1.oneLine).append (by decide)).append hargs).append
        (by decide)
    have hbody := legible_blockEntry body (Stmt.legible_entries body h.2.2 hn.2)
    exact ⟨hheader, (Expr.legible_entries args h.2.1).append ⟨hbody, trivial⟩⟩
  | define f params body registered =>
    have hparams := oneLine_joinWith (by decide : OneLine ", ") fun p hp => (hn.2.1 p hp).oneLine
    have hheader : IsHeader ("FunctionDefinition " ++ f ++ "(" ++ commaList params ++ ")") :=
      (((IsHeader.append (by decide) hn.1.oneLine).append (by decide)).append hparams).append
        (by decide)
    exact ⟨hheader, legible_blockEntry body (Stmt.legible_entries body h.2.2 hn.2.2), trivial⟩
  | ret e =>
    exact ⟨IsHeader.append (by decide) (e.oneLine_text h.2), e.legible_entry h.2, trivial⟩
  | headless | bare | block | guarded | hole => exact h.elim

theorem Arms.legible_entries {inside : Bool} (arms : Arms) (h : arms.WellFormed inside)
    (hn : arms.Named) : Entry.AllLegible arms.entries := by
  cases arms with
  | done => trivial
  | otherwise body =>
    have hbody := legible_blockEntry body (Stmt.legible_entries body h hn)
    exact ⟨⟨by decide, hbody, trivial⟩, trivial⟩
  | elif c body rest =>
    have hbranch := legible_branchEntry h.1 body (Stmt.legible_entries body h.2.1 hn.1)
    exact ⟨⟨by decide, hbranch, trivial⟩, Arms.legible_entries rest h.2.2 hn.2⟩

theorem Stmt.legible_entries {inside : Bool} (ss : List Stmt) (h : Stmt.AllWellFormed inside ss)
    (hn : Stmt.AllNamed ss) : Entry.AllLegible (Stmt.entries ss) := by
  cases ss with
  | nil => trivial
  | cons s ss =>
    exact ⟨Stmt.legible_entry s h.1 hn.1, Stmt.legible_entries ss h.2 hn.2⟩

end

end TinyScript
