import TinyScript.Text.Lines

/-!
# Joined texts taken apart

A text that is put together from pieces is taken apart again at a character that does not occur in
the pieces (`cut_unique`). So texts that are joined by a separator are determined by the result, if
they are not empty and do not hold the first character of the separator (`joinWith_unique`).
-/

namespace TinyScript.Text

/-- The text is empty or begins with the given character. -/
def OpensWith (c : Char) (s : String) : Prop := ∀ d ∈ s.toList.head?, d = c

theorem opensWith_empty (c : Char) : OpensWith c "" := nofun

theorem opensWith_of_head {c : Char} {s : String} (h : s.toList.head? = some c) :
    OpensWith c s := by
  intro d hd
  rw [h] at hd
  exact (Option.some.inj hd).symm

theorem OpensWith.append {c : Char} {s : String} (h : OpensWith c s) (hne : s ≠ "") (t : String) :
    OpensWith c (s ++ t) := by
  intro d hd
  cases hs : s.toList with
  | nil => exact absurd (String.toList_eq_nil_iff.mp hs) hne
  | cons x xs =>
    rw [String.toList_append, hs] at hd
    exact h d (by rwa [hs])

/-- Two ways to cut a list before its first `c` are the same. -/
theorem append_unique {c : Char} {as as' ts ts' : List Char} (ha : c ∉ as) (ha' : c ∉ as')
    (ht : ∀ d ∈ ts.head?, d = c) (ht' : ∀ d ∈ ts'.head?, d = c) (h : as ++ ts = as' ++ ts') :
    as = as' ∧ ts = ts' := by
  induction as generalizing as' with
  | nil =>
    cases as' with
    | nil => exact ⟨rfl, h⟩
    | cons x as' =>
      have hx : x = c := ht x (by rw [show ts = _ from h]; rfl)
      exact absurd (hx ▸ List.mem_cons_self) ha'
  | cons x as ih =>
    cases as' with
    | nil =>
      have hx : x = c := ht' x (by rw [show ts' = _ from h.symm]; rfl)
      exact absurd (hx ▸ List.mem_cons_self) ha
    | cons x' as' =>
      obtain ⟨rfl, hrest⟩ := List.cons.inj h
      obtain ⟨rfl, rfl⟩ := ih (List.not_mem_of_not_mem_cons ha)
        (List.not_mem_of_not_mem_cons ha') hrest
      exact ⟨rfl, rfl⟩

/-- A piece without the character ends where the character is. -/
theorem cut_unique {c : Char} {a a' t t' : String} (ha : c ∉ a.toList) (ha' : c ∉ a'.toList)
    (ht : OpensWith c t) (ht' : OpensWith c t') (h : a ++ t = a' ++ t') : a = a' ∧ t = t' := by
  have hlists : a.toList ++ t.toList = a'.toList ++ t'.toList := by
    rw [← String.toList_append, h, String.toList_append]
  obtain ⟨hleft, hright⟩ := append_unique ha ha' ht ht' hlists
  exact ⟨String.toList_inj.mp hleft, String.toList_inj.mp hright⟩

section Join

variable {c : Char} {separator : String}

/-- What follows the first of the joined texts. -/
def joinedRest (separator : String) : List String → String
  | [] => ""
  | next :: rest => separator ++ joinWith separator (next :: rest)

theorem joinWith_cons (separator text : String) (rest : List String) :
    joinWith separator (text :: rest) = text ++ joinedRest separator rest := by
  cases rest with
  | nil => exact String.append_empty.symm
  | cons next rest => rw [joinWith_cons_cons, joinedRest, String.append_assoc]

theorem opensWith_joinedRest (hsep : OpensWith c separator) (hne : separator ≠ "")
    (rest : List String) : OpensWith c (joinedRest separator rest) := by
  cases rest with
  | nil => exact opensWith_empty c
  | cons next rest => exact hsep.append hne _

/-- Joined texts are determined by the result. -/
theorem joinWith_unique (hsep : OpensWith c separator) (hne : separator ≠ "")
    {texts texts' : List String} (h : ∀ s ∈ texts, s ≠ "" ∧ c ∉ s.toList)
    (h' : ∀ s ∈ texts', s ≠ "" ∧ c ∉ s.toList)
    (heq : joinWith separator texts = joinWith separator texts') : texts = texts' := by
  have hempty : ∀ (s : String) (ss : List String), s ≠ "" → joinWith separator (s :: ss) ≠ "" := by
    intro s ss hs hjoined
    rw [joinWith_cons, String.append_eq_empty_iff] at hjoined
    exact hs hjoined.1
  induction texts generalizing texts' with
  | nil =>
    cases texts' with
    | nil => rfl
    | cons s' ss' => exact absurd heq.symm (hempty s' ss' (h' s' List.mem_cons_self).1)
  | cons s ss ih =>
    cases texts' with
    | nil => exact absurd heq (hempty s ss (h s List.mem_cons_self).1)
    | cons s' ss' =>
      rw [joinWith_cons, joinWith_cons] at heq
      obtain ⟨rfl, hrest⟩ := cut_unique (h s List.mem_cons_self).2 (h' s' List.mem_cons_self).2
        (opensWith_joinedRest hsep hne ss) (opensWith_joinedRest hsep hne ss') heq
      have hss := fun t ht => h t (List.mem_cons_of_mem _ ht)
      have hss' := fun t ht => h' t (List.mem_cons_of_mem _ ht)
      cases ss with
      | nil =>
        cases ss' with
        | nil => rfl
        | cons t' ts' => exact absurd (String.append_eq_empty_iff.mp hrest.symm).1 hne
      | cons t ts =>
        cases ss' with
        | nil => exact absurd (String.append_eq_empty_iff.mp hrest).1 hne
        | cons t' ts' =>
          have hjoined := (String.append_right_inj separator).mp hrest
          rw [ih hss hss' hjoined]

end Join

end TinyScript.Text
