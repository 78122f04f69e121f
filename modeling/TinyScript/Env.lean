import TinyScript.Table
import TinyScript.Tree.Stmt
import TinyScript.Value.Basic

/-!
# Environments

An environment binds variables to values and keeps the functions that have been defined. Several
names can hold one and the same value, so that a change in place through one of them is seen through
the others. Each binding therefore carries the number of the cell that it stands for, and names with
the same number share. Binding a name anew gives it a cell of its own, because an environment knows
a number that no cell has reached yet.
-/

namespace TinyScript

/-- The value of a variable, and the cell that holds it. -/
structure Binding where
  value : Value
  cell : Nat

/-- A function definition that has been evaluated. -/
structure Function where
  name : String
  params : List String
  body : Block
  registered : Bool

namespace Function

/-- The statement that defines the function. -/
def toStmt (f : Function) : Stmt := .define f.name f.params f.body f.registered

end Function

structure Env where
  bindings : Table Binding
  functions : Table Function
  /-- A number above those of all cells in use. -/
  freshCell : Nat
  cell_lt : ∀ name b, bindings.find? name = some b → b.cell < freshCell

namespace Env

/-- The environment in which a program starts. -/
def empty : Env := ⟨.empty, .empty, 0, nofun⟩

/-- The value of a variable, if it is bound. -/
def value? (env : Env) (name : String) : Option Value := (env.bindings.find? name).map Binding.value

/-- Whether a variable is bound. -/
def exists? (env : Env) (name : String) : Bool := env.bindings.contains name

/-- Whether a function is defined. -/
def functionExists (env : Env) (name : String) : Bool := env.functions.contains name

def get (env : Env) (name : String) : Except Fault Value :=
  match env.value? name with
  | some v => .ok v
  | none => .error (.script (.unbound name))

/-- Binds a name to a value in a cell of its own. -/
def set (env : Env) (name : String) (v : Value) : Env where
  bindings := env.bindings.insert name ⟨v, env.freshCell⟩
  functions := env.functions
  freshCell := env.freshCell + 1
  cell_lt := by
    intro other b hb
    rw [Table.find?_insert] at hb
    split at hb
    · cases hb
      exact Nat.lt_succ_self _
    · exact Nat.lt_succ_of_lt (env.cell_lt other b hb)

/-- Binds a name that must not be bound yet. -/
def create (env : Env) (name : String) (n : Int) : Except Fault Env :=
  if env.exists? name then .error (.script (.alreadyBound name)) else .ok (env.set name (.int n))

/-- Unbinds a name. -/
def erase (env : Env) (name : String) : Env where
  bindings := env.bindings.erase name
  functions := env.functions
  freshCell := env.freshCell
  cell_lt := by
    intro other b hb
    rw [Table.find?_erase] at hb
    split at hb
    · cases hb
    · exact env.cell_lt other b hb

/-- Enters a binding of the environment under one more name. -/
def bindAlso (env : Env) (name : String) (b : Binding) (h : b.cell < env.freshCell) : Env where
  bindings := env.bindings.insert name b
  functions := env.functions
  freshCell := env.freshCell
  cell_lt := by
    intro other b' hb'
    rw [Table.find?_insert] at hb'
    split at hb'
    · cases hb'
      exact h
    · exact env.cell_lt other b' hb'

/-- Makes a name hold the value of another, in the same cell. -/
def share (env : Env) (name source : String) : Except Fault Env :=
  match h : env.bindings.find? source with
  | some b => .ok (env.bindAlso name b (env.cell_lt source b h))
  | none => .error (.script (.unbound source))

/-- Puts a value into a cell, for all names that share it. -/
def write (env : Env) (cell : Nat) (v : Value) : Env where
  bindings := env.bindings.map fun b => if b.cell = cell then { b with value := v } else b
  functions := env.functions
  freshCell := env.freshCell
  cell_lt := by
    intro other b' hb'
    rw [Table.find?_map] at hb'
    obtain ⟨b, hb, rfl⟩ := Option.map_eq_some_iff.mp hb'
    have hold := env.cell_lt other b hb
    split <;> exact hold

/-- Increases the value of a variable in place. -/
def increment (env : Env) (name : String) (amount : Int) : Except Fault Env :=
  match env.bindings.find? name with
  | none => .error (.script (.unbound name))
  | some b => (b.value.increment amount).map (env.write b.cell)

/-- Enters a function under its name. -/
def register (env : Env) (f : Function) : Env :=
  { env with functions := env.functions.insert f.name f }

def lookup (env : Env) (name : String) : Except Fault Function :=
  match env.functions.find? name with
  | some f => .ok f
  | none => .error (.script (.undefinedFunction name))

@[simp] theorem value?_empty (name : String) : empty.value? name = none := rfl

@[simp] theorem value?_set (env : Env) (name other : String) (v : Value) :
    (env.set name v).value? other = if name = other then some v else env.value? other := by
  simp only [value?, set, Table.find?_insert]
  split <;> rfl

@[simp] theorem value?_erase (env : Env) (name other : String) :
    (env.erase name).value? other = if name = other then none else env.value? other := by
  simp only [value?, erase, Table.find?_erase]
  split <;> rfl

@[simp] theorem functions_set (env : Env) (name : String) (v : Value) :
    (env.set name v).functions = env.functions := rfl

@[simp] theorem functions_erase (env : Env) (name : String) :
    (env.erase name).functions = env.functions := rfl

@[simp] theorem functions_write (env : Env) (cell : Nat) (v : Value) :
    (env.write cell v).functions = env.functions := rfl

@[simp] theorem bindings_register (env : Env) (f : Function) :
    (env.register f).bindings = env.bindings := rfl

end Env

end TinyScript
