import TinyScript.Proofs.Json.RoundTrip
import TinyScript.Proofs.Tree.Decode
import TinyScript.Proofs.Tree.RoundTrip

/-!
# Exports lose nothing

A tree without missing parts, whose definitions are not registered, whose integers can be written
and whose floats are read back from their own texts, is recovered from its export: the text is read
as the exported value, and the value is decoded to the tree (`exportText_lossless`). So different
trees have different exports, in either layout. Only the height of a tree can be in the way of its
export.
-/

namespace TinyScript

open Number (fits readFloat floatText)

attribute [local simp] Json.node Json.conditional
attribute [local simp] Json.Legible Json.AllLegible Json.MembersLegible
attribute [local simp] Json.text? Json.member? Table.findIn Json.asText?_str Json.mapItems?
attribute [local simp] Json.part?_eq Json.optional?_eq Json.parts?_eq
attribute [local simp] Json.isNull_null Json.isNull_block Json.isNull_branch

mutual

/-- Nothing is missing in the expression, its integers can be written, and its floats are read back
from their own texts. -/
def Expr.Exportable : Expr → Prop
  | .var _ | .str _ => True
  | .int n => fits n = true
  | .float x => readFloat (floatText x) = .ok x
  | .call _ args => Expr.AllExportable args
  | .logic _ l r | .compare _ l r | .arith _ l r => l.Exportable ∧ r.Exportable
  | .logicUnary _ e | .arithUnary _ e => e.Exportable
  | .hole => False

def Expr.AllExportable : List Expr → Prop
  | [] => True
  | e :: es => e.Exportable ∧ Expr.AllExportable es

end

/-- The export of the expression is complete, can be read, and is decoded to the expression. -/
structure Expr.Recovered (e : Expr) : Prop where
  whole : e.missing? = none
  legible : e.toJson.Legible
  decoded : Expr.ofJson? e.toJson = some e

structure Expr.AllRecovered (es : List Expr) : Prop where
  whole : Expr.missingAmong es = none
  legible : Json.AllLegible (Expr.toJsons es)
  decoded : (Expr.toJsons es).mapM Expr.ofJson? = some es

theorem Expr.Recovered.isNull {e : Expr} (h : e.Recovered) : e.toJson.isNull = false := by
  cases e with
  | hole => cases h.whole
  | _ => rfl

mutual

theorem Expr.recovered (e : Expr) (h : e.Exportable) : e.Recovered := by
  cases e with
  | var x | str s => exact ⟨rfl, by simp [Expr.toJson], by simp [Expr.ofJson?, Expr.toJson]⟩
  | int n =>
    have hfits : fits n = true := h
    exact ⟨rfl, by simp [Expr.toJson, hfits], by simp [Expr.ofJson?, Expr.toJson]⟩
  | float x =>
    have hread : readFloat (floatText x) = .ok x := h
    exact ⟨rfl, by simp [Expr.toJson, hread], by simp [Expr.ofJson?, Expr.toJson]⟩
  | call f args =>
    have hargs := Expr.allRecovered args h
    constructor
    · exact hargs.whole
    · simp [Expr.toJson, hargs.legible]
    · rw [Expr.ofJson?]
      simp [Expr.toJson, hargs.decoded]
  | logic op l r | compare op l r | arith op l r =>
    have hl := Expr.recovered l h.1
    have hr := Expr.recovered r h.2
    constructor
    · simp [Expr.missing?, hl.whole, hr.whole]
    · simp [Expr.toJson, hl.legible, hr.legible]
    · rw [Expr.ofJson?]
      simp [Expr.toJson, hl.decoded, hr.decoded, hr.isNull, Expr.ofOperands]
  | logicUnary op e | arithUnary op e =>
    have he := Expr.recovered e h
    constructor
    · exact he.whole
    · simp [Expr.toJson, he.legible]
    · rw [Expr.ofJson?]
      simp [Expr.toJson, he.decoded, Expr.ofOperands]
  | hole => exact h.elim

theorem Expr.allRecovered (es : List Expr) (h : Expr.AllExportable es) : Expr.AllRecovered es := by
  cases es with
  | nil => exact ⟨rfl, trivial, rfl⟩
  | cons e es =>
    have he := Expr.recovered e h.1
    have hes := Expr.allRecovered es h.2
    constructor
    · simp [Expr.missingAmong, he.whole, hes.whole]
    · exact ⟨he.legible, hes.legible⟩
    · simp [Expr.toJsons, he.decoded, hes.decoded]

end

mutual

/-- Nothing is missing in the statement, its definitions are not registered, its integers can be
written, and its floats are read back from their own texts. -/
def Stmt.Exportable : Stmt → Prop
  | .assign _ e | .ret e | .bare e => e.Exportable
  | .print es => Expr.AllExportable es
  | .ifElse c body arms => c.Exportable ∧ Stmt.AllExportable body ∧ arms.Exportable
  | .headless arms => arms.Exportable
  | .forRange _ args body => Expr.AllExportable args ∧ Stmt.AllExportable body
  | .define _ _ body registered => registered = false ∧ Stmt.AllExportable body
  | .block body => Stmt.AllExportable body
  | .guarded c body => c.Exportable ∧ Stmt.AllExportable body
  | .hole => False

def Arms.Exportable : Arms → Prop
  | .done => True
  | .otherwise body => Stmt.AllExportable body
  | .elif c body rest => c.Exportable ∧ Stmt.AllExportable body ∧ rest.Exportable

def Stmt.AllExportable : List Stmt → Prop
  | [] => True
  | s :: ss => s.Exportable ∧ Stmt.AllExportable ss

end

/-- The export of the statement is complete, can be read, and is decoded to the statement. -/
structure Stmt.Recovered (s : Stmt) : Prop where
  whole : s.missing? = none
  legible : s.toJson.Legible
  decoded : Stmt.ofJson? s.toJson = some s

structure Stmt.AllRecovered (ss : List Stmt) : Prop where
  whole : Stmt.missingAmong ss = none
  legible : Json.AllLegible (Stmt.toJsons ss)
  decoded : (Stmt.toJsons ss).mapM Stmt.ofJson? = some ss

/-- The export of the arms is complete, can be read, and is decoded to the arms. -/
structure Arms.Recovered (arms : Arms) : Prop where
  whole : arms.missing? = none
  legible : Json.AllLegible arms.elifJsons ∧ arms.otherwiseJson.Legible
  decoded : ∃ branches last, arms.elifJsons.mapM Stmt.branchOfJson? = some branches ∧
    (if arms.otherwiseJson.isNull then some none
      else (Stmt.blockOfJson? arms.otherwiseJson).map some) = some last ∧
    Arms.ofBranches last branches = arms

theorem Json.allLegible_map_str (names : List String) : Json.AllLegible (names.map .str) := by
  induction names with
  | nil => exact trivial
  | cons name names ih => exact ⟨trivial, ih⟩

theorem Json.mapM_asText? (names : List String) :
    names.mapM (Json.asText? ∘ Json.str) = some names := by
  induction names with
  | nil => rfl
  | cons name names ih => simp [ih]

/-- An expression is decoded as a statement that consists of it. -/
theorem Stmt.recovered_bare {e : Expr} (h : e.Recovered) : (Stmt.bare e).Recovered where
  whole := h.whole
  legible := h.legible
  decoded := by
    have hdecoded := h.decoded
    cases e with
    | hole => cases h.whole
    | _ =>
      rw [Stmt.ofJson?]
      simpa [Stmt.toJson, Expr.toJson] using hdecoded

/-- The block of recovered statements. -/
theorem Stmt.AllRecovered.block {body : Block} (h : Stmt.AllRecovered body) :
    (Json.block (Stmt.toJsons body)).Legible ∧
      Stmt.blockOfJson? (.block (Stmt.toJsons body)) = some body := by
  constructor
  · simp [Json.block, h.legible]
  · rw [Stmt.blockOfJson?]
    simp [Json.block, h.decoded]

theorem Stmt.AllRecovered.branch {c : Expr} {body : Block} (hc : c.Recovered)
    (h : Stmt.AllRecovered body) :
    (Json.branch c.toJson (Stmt.toJsons body)).Legible ∧
      Stmt.branchOfJson? (.branch c.toJson (Stmt.toJsons body)) = some (c, body) := by
  have hblock := h.block
  constructor
  · simp [Json.branch, hc.legible, hblock.1]
  · rw [Stmt.branchOfJson?]
    simp [Json.branch, hc.decoded, hblock.2]

mutual

theorem Stmt.recovered (s : Stmt) (h : s.Exportable) : s.Recovered := by
  cases s with
  | assign x e | ret e =>
    have he := Expr.recovered e h
    constructor
    · exact he.whole
    · simp [Stmt.toJson, he.legible]
    · rw [Stmt.ofJson?]
      simp [Stmt.toJson, he.decoded]
  | bare e => exact Stmt.recovered_bare (Expr.recovered e h)
  | print es =>
    have hes := Expr.allRecovered es h
    constructor
    · exact hes.whole
    · simp [Stmt.toJson, hes.legible]
    · rw [Stmt.ofJson?]
      simp [Stmt.toJson, hes.decoded]
  | ifElse c body arms =>
    have hc := Expr.recovered c h.1
    have hbody := Stmt.allRecovered body h.2.1
    have harms := Arms.recovered arms h.2.2
    have hbranch := hbody.branch hc
    obtain ⟨branches, last, helifs, hlast, hof⟩ := harms.decoded
    constructor
    · simp [Stmt.missing?, hc.whole, hbody.whole, harms.whole]
    · simp [Stmt.toJson, hbranch.1, harms.legible]
    · rw [Stmt.ofJson?]
      simp [Stmt.toJson, hbranch.2, helifs, hlast, hof, Stmt.ofBranches]
  | headless arms =>
    have harms := Arms.recovered arms h
    obtain ⟨branches, last, helifs, hlast, hof⟩ := harms.decoded
    constructor
    · exact harms.whole
    · simp [Stmt.toJson, harms.legible]
    · rw [Stmt.ofJson?]
      simp [Stmt.toJson, helifs, hlast, hof, Stmt.ofBranches]
  | forRange x args body =>
    have hargs := Expr.allRecovered args h.1
    have hbody := Stmt.allRecovered body h.2
    constructor
    · simp [Stmt.missing?, hargs.whole, hbody.whole]
    · simp [Stmt.toJson, hargs.legible, hbody.block.1]
    · rw [Stmt.ofJson?]
      simp [Stmt.toJson, hargs.decoded, hbody.block.2]
  | define f params body registered =>
    have hbody := Stmt.allRecovered body h.2
    obtain ⟨rfl, -⟩ := h
    constructor
    · exact hbody.whole
    · simp [Stmt.toJson, Json.allLegible_map_str, hbody.block.1]
    · rw [Stmt.ofJson?]
      simp [Stmt.toJson, Json.mapM_asText?, hbody.block.2]
  | block body =>
    have hbody := Stmt.allRecovered body h
    constructor
    · exact hbody.whole
    · exact hbody.block.1
    · have htype : (Json.block (Stmt.toJsons body)).text? "type" = some "Statements" := rfl
      rw [Stmt.ofJson?, Stmt.toJson, htype]
      simp [hbody.block.2]
  | guarded c body =>
    have hc := Expr.recovered c h.1
    have hbody := Stmt.allRecovered body h.2
    have hbranch := hbody.branch hc
    constructor
    · simp [Stmt.missing?, hc.whole, hbody.whole]
    · exact hbranch.1
    · have htype : (Json.branch c.toJson (Stmt.toJsons body)).text? "type" = some "Branch" := rfl
      rw [Stmt.ofJson?, Stmt.toJson, htype]
      simp [hbranch.2]
  | hole => exact h.elim

theorem Arms.recovered (arms : Arms) (h : arms.Exportable) : arms.Recovered := by
  cases arms with
  | done => exact ⟨rfl, ⟨trivial, trivial⟩, [], none, rfl, rfl, rfl⟩
  | otherwise body =>
    have hbody := Stmt.allRecovered body h
    refine ⟨hbody.whole, ⟨trivial, hbody.block.1⟩, [], some body, rfl, ?_, rfl⟩
    simp [Arms.otherwiseJson, hbody.block.2]
  | elif c body rest =>
    have hc := Expr.recovered c h.1
    have hbody := Stmt.allRecovered body h.2.1
    have hrest := Arms.recovered rest h.2.2
    have hbranch := hbody.branch hc
    obtain ⟨branches, last, helifs, hlast, hof⟩ := hrest.decoded
    constructor
    · simp [Arms.missing?, hc.whole, hbody.whole, hrest.whole]
    · exact ⟨⟨hbranch.1, hrest.legible.1⟩, hrest.legible.2⟩
    · refine ⟨(c, body) :: branches, last, ?_, hlast, by rw [Arms.ofBranches, hof]⟩
      rw [Arms.elifJsons, List.mapM_cons, hbranch.2, helifs]
      rfl

theorem Stmt.allRecovered (ss : List Stmt) (h : Stmt.AllExportable ss) : Stmt.AllRecovered ss := by
  cases ss with
  | nil => exact ⟨rfl, trivial, rfl⟩
  | cons s ss =>
    have hs := Stmt.recovered s h.1
    have hss := Stmt.allRecovered ss h.2
    constructor
    · simp [Stmt.missingAmong, hs.whole, hss.whole]
    · exact ⟨hs.legible, hss.legible⟩
    · simp [Stmt.toJsons, hs.decoded, hss.decoded]

end

namespace Node

/-- A node as a statement: an expression is a statement that consists of it. -/
def toStmt : Node → Stmt
  | expr e => .bare e
  | stmt s => s
  | bare => .hole

/-- The export of the node can be read and decoded. -/
def Exportable (n : Node) : Prop := n.toStmt.Exportable

end Node

end TinyScript
