import TinyScript.Interpreter
import TinyScript.Proofs.Tree.RoundTrip
import TinyScript.Proofs.Tree.WellFormed
import TinyScript.Tree.Export

/-!
# Parsed trees can be shown

Trees built by hand can have missing parts and integers that are too long to be written. Trees of
parsed programs have neither, so that nothing but their height can be in the way of an outline or an
export (`Stmt.allShown_of_wellFormed`).
-/

namespace TinyScript

attribute [local simp] Json.writable Json.allWritable Json.membersWritable
attribute [local simp] Json.node Json.block Json.branch Json.conditional

/-- Nothing is missing in the expression, and its integers can be written. -/
structure Expr.Shown (e : Expr) : Prop where
  whole : e.missing? = none
  outline : e.outlineFault? = none
  digits : e.toJson.writable = true

structure Expr.AllShown (es : List Expr) : Prop where
  whole : Expr.missingAmong es = none
  outline : Expr.outlineFaults es = none
  digits : Json.allWritable (Expr.toJsons es) = true

mutual

theorem Expr.shown_of_spelled (e : Expr) (h : e.Spelled) : e.Shown := by
  cases e with
  | var x | float x | str s => exact ⟨rfl, rfl, rfl⟩
  | int n =>
    have hfits : Number.fits n = true := h.2
    exact ⟨rfl, if_pos hfits, by simpa [Expr.toJson] using hfits⟩
  | call f args =>
    have hargs := Expr.allShown_of_spelled args h.2
    exact ⟨hargs.whole, hargs.outline, by simpa [Expr.toJson] using hargs.digits⟩
  | logic op l r | compare op l r | arith op l r =>
    have hl := Expr.shown_of_spelled l h.2.1
    have hr := Expr.shown_of_spelled r h.2.2
    constructor
    · simp [Expr.missing?, hl.whole, hr.whole]
    · simp [Expr.outlineFault?, hl.outline, hr.outline]
    · simp [Expr.toJson, hl.digits, hr.digits]
  | logicUnary op e | arithUnary op e =>
    have he := Expr.shown_of_spelled e h.2
    exact ⟨he.whole, he.outline, by simpa [Expr.toJson] using he.digits⟩
  | hole => exact h.elim

theorem Expr.allShown_of_spelled (es : List Expr) (h : Expr.AllSpelled es) : Expr.AllShown es := by
  cases es with
  | nil => exact ⟨rfl, rfl, rfl⟩
  | cons e es =>
    have he := Expr.shown_of_spelled e h.1
    have hes := Expr.allShown_of_spelled es h.2
    constructor
    · simp [Expr.missingAmong, he.whole, hes.whole]
    · simp [Expr.outlineFaults, he.outline, hes.outline]
    · simp [Expr.toJsons, he.digits, hes.digits]

end

/-- A header that holds such expressions can be shown too. -/
theorem Expr.headerFault?_of_spelled (es : List Expr) (h : Expr.AllSpelled es) :
    Expr.headerFault? es = none := by
  have htexts : es.findSome? Expr.textFault? = none := by
    induction es with
    | nil => rfl
    | cons e es ih => simp [Expr.textFault?, e.writable_of_spelled h.1, ih h.2]
  rw [Expr.headerFault?, htexts]
  exact (Expr.allShown_of_spelled es h).outline

/-- Nothing is missing in the statement, and its integers can be written. -/
structure Stmt.Shown (s : Stmt) : Prop where
  whole : s.missing? = none
  outline : s.outlineFault? = none
  digits : s.toJson.writable = true

structure Stmt.AllShown (ss : List Stmt) : Prop where
  whole : Stmt.missingAmong ss = none
  outline : Stmt.outlineFaults ss = none
  digits : Json.allWritable (Stmt.toJsons ss) = true

structure Arms.Shown (a : Arms) : Prop where
  whole : a.missing? = none
  outline : a.outlineFault? = none
  elifs : Json.allWritable a.elifJsons = true
  last : a.otherwiseJson.writable = true

mutual

theorem Stmt.shown_of_wellFormed {inside : Bool} (s : Stmt) (h : s.WellFormed inside) :
    s.Shown := by
  cases s with
  | assign x e =>
    have he := e.shown_of_spelled h
    exact ⟨he.whole, Expr.headerFault?_of_spelled [e] ⟨h, trivial⟩,
      by simpa [Stmt.toJson] using he.digits⟩
  | ret e =>
    have he := e.shown_of_spelled h.2
    exact ⟨he.whole, Expr.headerFault?_of_spelled [e] ⟨h.2, trivial⟩,
      by simpa [Stmt.toJson] using he.digits⟩
  | print es =>
    have hes := Expr.allShown_of_spelled es h
    exact ⟨hes.whole, hes.outline, by simpa [Stmt.toJson] using hes.digits⟩
  | ifElse c body arms =>
    have hc := c.shown_of_spelled h.1
    have hbody := Stmt.allShown_of_wellFormed body h.2.1
    have harms := Arms.shown_of_wellFormed arms h.2.2
    constructor
    · simp [Stmt.missing?, hc.whole, hbody.whole, harms.whole]
    · simp [Stmt.outlineFault?, Expr.headerFault?_of_spelled [c] ⟨h.1, trivial⟩, hbody.outline,
        harms.outline]
    · simp [Stmt.toJson, hc.digits, hbody.digits, harms.elifs, harms.last]
  | forRange x args body =>
    have hargs := Expr.allShown_of_spelled args h.2.1
    have hbody := Stmt.allShown_of_wellFormed body h.2.2
    constructor
    · simp [Stmt.missing?, hargs.whole, hbody.whole]
    · simp [Stmt.outlineFault?, Expr.headerFault?_of_spelled args h.2.1, hbody.outline]
    · simp [Stmt.toJson, hargs.digits, hbody.digits]
  | define f params body registered =>
    have hbody := Stmt.allShown_of_wellFormed body h.2.2
    have hparams : Json.allWritable (params.map Json.str) = true := by
      induction params with
      | nil => rfl
      | cons x params ih => simpa using ih ⟨h.1, h.2.1.of_cons, h.2.2⟩
    exact ⟨hbody.whole, hbody.outline, by simp [Stmt.toJson, hparams, hbody.digits]⟩
  | headless | bare | block | guarded | hole => exact h.elim

theorem Arms.shown_of_wellFormed {inside : Bool} (arms : Arms) (h : arms.WellFormed inside) :
    arms.Shown := by
  cases arms with
  | done => exact ⟨rfl, rfl, rfl, rfl⟩
  | otherwise body =>
    have hbody := Stmt.allShown_of_wellFormed body h
    exact ⟨hbody.whole, hbody.outline, rfl, by simpa [Arms.otherwiseJson] using hbody.digits⟩
  | elif c body rest =>
    have hc := c.shown_of_spelled h.1
    have hbody := Stmt.allShown_of_wellFormed body h.2.1
    have hrest := Arms.shown_of_wellFormed rest h.2.2
    constructor
    · simp [Arms.missing?, hc.whole, hbody.whole, hrest.whole]
    · simp [Arms.outlineFault?, Expr.headerFault?_of_spelled [c] ⟨h.1, trivial⟩, hbody.outline,
        hrest.outline]
    · simp [Arms.elifJsons, hc.digits, hbody.digits, hrest.elifs]
    · exact hrest.last

theorem Stmt.allShown_of_wellFormed {inside : Bool} (ss : List Stmt)
    (h : Stmt.AllWellFormed inside ss) : Stmt.AllShown ss := by
  cases ss with
  | nil => exact ⟨rfl, rfl, rfl⟩
  | cons s ss =>
    have hs := Stmt.shown_of_wellFormed s h.1
    have hss := Stmt.allShown_of_wellFormed ss h.2
    constructor
    · simp [Stmt.missingAmong, hs.whole, hss.whole]
    · simp [Stmt.outlineFaults, hs.outline, hss.outline]
    · simp [Stmt.toJsons, hs.digits, hss.digits]

end

section Program

variable {program : Block} (h : Stmt.AllWellFormed false program)
include h

/-- A well-formed program can be outlined, unless it is too high. -/
theorem Interpreter.dump_of_wellFormed (limit : Nat) :
    Interpreter.dump limit program =
      if limit < (Node.stmt (.block program)).height then
        .error (.script (.tooDeep "Interpreter.dump"))
      else .ok ((Node.stmt (.block program)).outlineText ++ "\n") := by
  have houtline : (Node.stmt (.block program)).outlineFault? = none :=
    (Stmt.allShown_of_wellFormed program h).outline
  unfold Interpreter.dump Node.describe
  rw [houtline]
  by_cases hhigh : limit < (Node.stmt (.block program)).height
  · rw [if_pos hhigh, if_pos hhigh]
  · rw [if_neg hhigh, if_neg hhigh]

/-- A well-formed program can be exported, unless it is too high. -/
theorem Item.exportText_of_wellFormed (limit step : Nat) :
    (Item.node (.stmt (.block program))).exportText limit (some step) =
      if limit < (Node.stmt (.block program)).height then .error (.limit .nesting)
      else .ok ((Stmt.block program).toJson.pretty step 0) := by
  have hshown := Stmt.allShown_of_wellFormed program h
  have hwhole : (Item.node (.stmt (.block program))).unsupported? = none := hshown.whole
  have hdigits : (Stmt.block program).toJson.writable = true := by
    simpa [Stmt.toJson] using hshown.digits
  have hjson : (Item.node (.stmt (.block program))).toJson = (Stmt.block program).toJson := by
    rw [Item.toJson, Node.toJson]
  unfold Item.exportText Item.toJson?
  rw [hwhole, Item.height]
  by_cases hhigh : limit < (Node.stmt (.block program)).height
  · rw [if_pos hhigh, if_pos hhigh]
  · rw [if_neg hhigh, if_neg hhigh]
    simp only [hjson, hdigits]
    rfl

end Program

end TinyScript
