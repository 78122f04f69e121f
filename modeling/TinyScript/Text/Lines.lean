/-!
# Lines and separators

Line ends come in three spellings; reading a text unifies them to the line feed. Joining puts a
separator between texts, as in the lists that the program writes.
-/

namespace TinyScript.Text

/-- Spells every line end, be it CR LF, CR or LF, as a line feed. -/
def unifyNewlines : List Char → List Char
  | [] => []
  | '\r' :: '\n' :: cs => '\n' :: unifyNewlines cs
  | '\r' :: cs => '\n' :: unifyNewlines cs
  | c :: cs => c :: unifyNewlines cs

/-- The texts in order, with `separator` between neighbours. -/
def joinWith (separator : String) : List String → String
  | [] => ""
  | [text] => text
  | text :: next :: rest => text ++ separator ++ joinWith separator (next :: rest)

/-- The list of a call or a definition: texts separated by a comma and a blank. -/
abbrev commaList (texts : List String) : String := joinWith ", " texts

@[simp] theorem joinWith_nil (separator : String) : joinWith separator [] = "" := rfl

@[simp] theorem joinWith_singleton (separator text : String) :
    joinWith separator [text] = text := rfl

theorem joinWith_cons_cons (separator text next : String) (rest : List String) :
    joinWith separator (text :: next :: rest) =
      text ++ separator ++ joinWith separator (next :: rest) := rfl

/-- After unification no carriage return is left. -/
theorem cr_not_mem_unifyNewlines (cs : List Char) : '\r' ∉ unifyNewlines cs := by
  fun_induction unifyNewlines cs with
  | case1 => exact List.not_mem_nil
  | case2 cs ih => simpa using ih
  | case3 cs _ ih => simpa using ih
  | case4 c cs _ hcr ih =>
    simp only [List.mem_cons, not_or]
    exact ⟨fun h => hcr h.symm, ih⟩

end TinyScript.Text
