/-!
# Sets of code points

A character class of a standard is a set of code points. It is kept by its edges: the code points at
which membership changes, in increasing order, so that a code point is inside exactly when an odd
number of edges does not exceed it.
-/

namespace TinyScript.Text

/-- A set of code points, given by the increasing list of points where membership changes. -/
structure CodeSet where
  edges : List Nat

namespace CodeSet

/-- A code point is a member when an odd number of edges lies at or below it. -/
def contains (s : CodeSet) (n : Nat) : Bool :=
  s.edges.countP (· ≤ n) % 2 = 1

@[simp] theorem contains_nil (n : Nat) : contains ⟨[]⟩ n = false := rfl

/-- Crossing one more edge flips membership. -/
theorem contains_cons_of_le {e n : Nat} (es : List Nat) (h : e ≤ n) :
    contains ⟨e :: es⟩ n = !contains ⟨es⟩ n := by
  simp only [contains, List.countP_cons, decide_eq_true h, if_true]
  rw [← decide_not, decide_eq_decide]
  omega

theorem contains_cons_of_lt {e n : Nat} (es : List Nat) (h : n < e) :
    contains ⟨e :: es⟩ n = contains ⟨es⟩ n := by
  simp [contains, Nat.not_le.2 h]

end CodeSet

end TinyScript.Text
