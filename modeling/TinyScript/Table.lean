/-!
# Tables

A table gives entries to names. It keeps the order in which names were first entered; entering a
name again replaces its entry in place.
-/

namespace TinyScript

/-- Entries by name. -/
structure Table (α : Type) where
  entries : List (String × α) := []

namespace Table

variable {α : Type}

/-- The table without entries. -/
def empty : Table α := ⟨[]⟩

def findIn (name : String) : List (String × α) → Option α
  | [] => none
  | (key, a) :: rest => if key = name then some a else findIn name rest

def insertIn (name : String) (a : α) : List (String × α) → List (String × α)
  | [] => [(name, a)]
  | (key, b) :: rest => if key = name then (name, a) :: rest else (key, b) :: insertIn name a rest

/-- The entry of a name. -/
def find? (t : Table α) (name : String) : Option α := findIn name t.entries

def contains (t : Table α) (name : String) : Bool := (t.find? name).isSome

/-- Gives an entry to a name. -/
def insert (t : Table α) (name : String) (a : α) : Table α := ⟨insertIn name a t.entries⟩

/-- Takes a name out. -/
def erase (t : Table α) (name : String) : Table α := ⟨t.entries.filter (·.1 ≠ name)⟩

/-- Changes every entry. -/
def map {β : Type} (f : α → β) (t : Table α) : Table β := ⟨t.entries.map fun (k, a) => (k, f a)⟩

theorem findIn_insertIn (name other : String) (a : α) (es : List (String × α)) :
    findIn other (insertIn name a es) = if name = other then some a else findIn other es := by
  induction es with
  | nil => rfl
  | cons e es ih =>
    obtain ⟨key, b⟩ := e
    simp only [insertIn]
    split
    · next h => subst h; simp only [findIn]; split <;> rfl
    · next h =>
      simp only [findIn, ih]
      split
      · next hk => subst hk; simp [Ne.symm h]
      · rfl

@[simp] theorem find?_empty (name : String) : (empty : Table α).find? name = none := rfl

@[simp] theorem find?_insert (t : Table α) (name other : String) (a : α) :
    (t.insert name a).find? other = if name = other then some a else t.find? other :=
  findIn_insertIn name other a t.entries

theorem findIn_filter (name other : String) (es : List (String × α)) :
    findIn other (es.filter (·.1 ≠ name)) = if name = other then none else findIn other es := by
  induction es with
  | nil => simp [findIn]
  | cons e es ih =>
    obtain ⟨key, b⟩ := e
    by_cases h : key = name
    · subst h
      simp only [List.filter_cons, ne_eq, not_true_eq_false, decide_false, Bool.false_eq_true,
        if_false, ih, findIn]
      split <;> rfl
    · simp only [List.filter_cons, ne_eq, h, not_false_eq_true, decide_true, if_true, findIn, ih]
      split
      · next hk => subst hk; simp [Ne.symm h]
      · rfl

@[simp] theorem find?_erase (t : Table α) (name other : String) :
    (t.erase name).find? other = if name = other then none else t.find? other :=
  findIn_filter name other t.entries

@[simp] theorem find?_map {β : Type} (f : α → β) (t : Table α) (name : String) :
    (t.map f).find? name = (t.find? name).map f := by
  obtain ⟨es⟩ := t
  induction es with
  | nil => rfl
  | cons e es ih =>
    obtain ⟨key, b⟩ := e
    simp only [map, find?, List.map_cons, findIn] at ih ⊢
    split
    · rfl
    · exact ih

end Table

end TinyScript
