import TinyScript.Table
import TinyScript.Tree.Export

/-!
# Trees from their exports

The decoder of exported trees looks at the member `type` of an object and takes the other members of
the node by their names. It does not depend on the order of the members, and ignores members that a
node does not have. Where the export of a part may be missing, null stands for it.

The export of a tree does not tell an expression from a statement that consists of it, so trees are
decoded as statements (`Stmt.ofJson?`). Definitions come out as not registered.
-/

namespace TinyScript

namespace Json

/-- The member of an object under a name. -/
def member? (j : Json) (name : String) : Option Json :=
  match j with
  | obj ms => Table.findIn name ms
  | _ => none

theorem sizeOf_findIn {name : String} {ms : List (String × Json)} {k : Json}
    (h : Table.findIn name ms = some k) : sizeOf k < sizeOf ms := by
  induction ms with
  | nil => cases h
  | cons m ms ih =>
    obtain ⟨key, j⟩ := m
    rw [Table.findIn] at h
    simp only [List.cons.sizeOf_spec, Prod.mk.sizeOf_spec]
    split at h
    · cases h
      omega
    · have hk := ih h
      omega

theorem sizeOf_member? {j k : Json} {name : String} (h : j.member? name = some k) :
    sizeOf k < sizeOf j := by
  cases j with
  | obj ms =>
    have hk := sizeOf_findIn h
    simp only [obj.sizeOf_spec]
    omega
  | _ => cases h

def asText? : Json → Option String
  | str s => some s
  | _ => none

theorem asText?_str (s : String) : asText? (str s) = some s := rfl

/-- The text under a name. -/
def text? (j : Json) (name : String) : Option String := (j.member? name).bind asText?

def isNull : Json → Bool
  | null => true
  | _ => false

theorem isNull_null : isNull null = true := rfl

theorem isNull_block (body : List Json) : isNull (block body) = false := rfl

theorem isNull_branch (condition : Json) (body : List Json) :
    isNull (branch condition body) = false := rfl

/-- What is made of each item of an array. -/
def mapItems? {α : Type} (f : Json → Option α) : Json → Option (List α)
  | arr ks => ks.mapM f
  | _ => none

section

variable {α : Type} (j : Json) (name : String)

/-- What is made of a member, which is smaller than the object. -/
def part? (decode : (k : Json) → sizeOf k < sizeOf j → Option α) : Option α :=
  match h : j.member? name with
  | some k => decode k (sizeOf_member? h)
  | none => none

/-- What is made of a member that may be null. -/
def optional? (decode : (k : Json) → sizeOf k < sizeOf j → Option α) : Option (Option α) :=
  j.part? name fun k h => if k.isNull then some none else (decode k h).map some

/-- What is made of the items of a member that is an array. -/
def parts? (decode : (k : Json) → sizeOf k < sizeOf j → Option α) : Option (List α) :=
  match h : j.member? name with
  | some (arr ks) =>
    ks.attach.mapM fun k => decode k.1 (by
      have hk := List.sizeOf_lt_of_mem k.2
      have hks := sizeOf_member? h
      simp only [arr.sizeOf_spec] at hks
      omega)
  | _ => none

variable {j name} (f : Json → Option α)

theorem part?_eq : (j.part? name fun k _ => f k) = (j.member? name).bind f := by
  unfold part?
  split
  · next h => simp [h]
  · next h => simp [h]

theorem optional?_eq : (j.optional? name fun k _ => f k) =
    (j.member? name).bind fun k => if k.isNull then some none else (f k).map some :=
  part?_eq fun k => if k.isNull then some none else (f k).map some

theorem parts?_eq : (j.parts? name fun k _ => f k) = (j.member? name).bind (mapItems? f) := by
  unfold parts?
  split
  · next ks h => simp [h, mapItems?, List.mapM_subtype]
  · next hne =>
    cases h : j.member? name with
    | none => rfl
    | some k =>
      cases k with
      | arr ks => exact absurd h (hne ks)
      | _ => rfl

end

end Json

namespace Expr

/-- An operator with one operand or two. -/
def ofOperands (unary : String → Expr → Expr) (binary : String → Expr → Expr → Expr) (op : String)
    (left : Expr) : Option Expr → Expr
  | none => unary op left
  | some right => binary op left right

/-- The expression that an object stands for. -/
def ofJson? (j : Json) : Option Expr :=
  match j.text? "type" with
  | some "Variable" => (j.text? "name").map var
  | some "WholeNumber" =>
    match j.member? "value" with
    | some (.int n) => some (int n)
    | _ => none
  | some "Double" =>
    match j.member? "value" with
    | some (.float x) => some (float x)
    | _ => none
  | some "StringExp" => (j.text? "value").map str
  | some "FunctionCall" => do
    let f ← j.text? "name"
    let args ← j.parts? "args" fun k _ => ofJson? k
    return call f args
  | some "BooleanExprNode" => do
    let op ← j.text? "op"
    let left ← j.part? "left" fun k _ => ofJson? k
    let right ← j.optional? "right" fun k _ => ofJson? k
    return ofOperands logicUnary logic op left right
  | some "ComparisonExprNode" => do
    let op ← j.text? "op"
    let left ← j.part? "left" fun k _ => ofJson? k
    let right ← j.part? "right" fun k _ => ofJson? k
    return compare op left right
  | some "InfixExprNode" => do
    let op ← j.text? "op"
    let left ← j.part? "left" fun k _ => ofJson? k
    let right ← j.optional? "right" fun k _ => ofJson? k
    return ofOperands arithUnary arith op left right
  | _ => none
termination_by j

end Expr

/-- The arms of a conditional from its tested branches and the last one. -/
def Arms.ofBranches (last : Option Block) : List (Expr × Block) → Arms
  | [] =>
    match last with
    | none => done
    | some body => otherwise body
  | (c, body) :: rest => elif c body (ofBranches last rest)

namespace Stmt

/-- A conditional, perhaps without its first branch. -/
def ofBranches (first : Option (Expr × Block)) (arms : Arms) : Stmt :=
  match first with
  | none => headless arms
  | some (c, body) => ifElse c body arms

mutual

/-- The statement that an object stands for. An object of another kind may be an expression. -/
def ofJson? (j : Json) : Option Stmt :=
  match j.text? "type" with
  | some "AssignStmt" => do
    let x ← j.text? "name"
    let e ← j.part? "expr" fun k _ => Expr.ofJson? k
    return assign x e
  | some "PrintStatement" => do
    let es ← j.parts? "exprs" fun k _ => Expr.ofJson? k
    return print es
  | some "IfStatement" => do
    let first ← j.optional? "if" fun k _ => branchOfJson? k
    let elifs ← j.parts? "elif" fun k _ => branchOfJson? k
    let last ← j.optional? "else" fun k _ => blockOfJson? k
    return ofBranches first (.ofBranches last elifs)
  | some "RangeStmt" => do
    let x ← j.text? "var_name"
    let args ← j.parts? "args" fun k _ => Expr.ofJson? k
    let body ← j.part? "body" fun k _ => blockOfJson? k
    return forRange x args body
  | some "FunctionDefinition" => do
    let f ← j.text? "name"
    let params ← j.parts? "params" fun k _ => k.asText?
    let body ← j.part? "body" fun k _ => blockOfJson? k
    return define f params body false
  | some "ReturnStatement" => do
    let e ← j.part? "expr" fun k _ => Expr.ofJson? k
    return ret e
  | some "Statements" => do
    let body ← blockOfJson? j
    return block body
  | some "Branch" => do
    let (c, body) ← branchOfJson? j
    return guarded c body
  | _ => (Expr.ofJson? j).map bare
termination_by (sizeOf j, 1)

/-- The statements of a block. -/
def blockOfJson? (j : Json) : Option Block :=
  match j.text? "type" with
  | some "Statements" => j.parts? "body" fun k _ => ofJson? k
  | _ => none
termination_by (sizeOf j, 0)

/-- The condition and the statements of a branch. -/
def branchOfJson? (j : Json) : Option (Expr × Block) :=
  match j.text? "type" with
  | some "Branch" => do
    let c ← j.part? "condition" fun k _ => Expr.ofJson? k
    let body ← j.part? "block" fun k _ => blockOfJson? k
    return (c, body)
  | _ => none
termination_by (sizeOf j, 0)

end

end Stmt

end TinyScript
