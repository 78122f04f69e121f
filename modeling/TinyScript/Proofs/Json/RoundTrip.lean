import TinyScript.Proofs.Json.Numbers
import TinyScript.Proofs.Text.Quoted

/-!
# JSON read back

A value written in one of the two layouts is read back as the value (`read_compact`, `read_pretty`),
if its integers keep to the limit on digits, its floats are read back from their own texts, and no
object has two members of one name.

Both layouts are cut into the same pieces, which are the value without its white space (`toPieces`);
so the layouts differ in the first half of the proof only. The second half puts the pieces together
again, with as many steps as there are pieces.
-/

namespace TinyScript.Json

open Number (fits readFloat floatText)
open Text (forall_mem_of_all joinWith)

/-- A character of a string is written as itself, or as an escape that is read back. -/
theorem escape_cases (c : Char) :
    (escape c = [c] ∧ c ≠ '"' ∧ c ≠ '\\' ∧ ¬c.toNat < 0x20) ∨
      ∃ cs, escape c = '\\' :: cs ∧ ∀ rest, unescape? (cs ++ rest) = some (c, rest) := by
  unfold escape
  split
  · next h =>
    subst h
    exact .inr ⟨_, rfl, fun _ => rfl⟩
  · next hquote =>
    split
    · next h =>
      subst h
      exact .inr ⟨_, rfl, fun _ => rfl⟩
    · next hslash =>
      split
      · next h => exact .inr ⟨_, rfl, fun _ => h ▸ rfl⟩
      split
      · next h => exact .inr ⟨_, rfl, fun _ => h ▸ rfl⟩
      split
      · next h => exact .inr ⟨_, rfl, fun _ => h ▸ rfl⟩
      split
      · next h => exact .inr ⟨_, rfl, fun _ => h ▸ rfl⟩
      split
      · next h => exact .inr ⟨_, rfl, fun _ => h ▸ rfl⟩
      split
      · next hcontrol =>
        refine .inr ⟨_, rfl, fun rest => ?_⟩
        have hwidth : c.toNat < 16 ^ 4 := by omega
        have hplane : ¬(0xd800 ≤ c.toNat ∧ c.toNat < 0xdc00) := by omega
        simp [unescape?, codePoint?, Text.Quoted.hexRun_char hwidth, hplane,
          Text.Quoted.charAt?_toNat]
      · next hcontrol => exact .inl ⟨rfl, hquote, hslash, hcontrol⟩

theorem unquote_escape {cs rest : List Char} {d : Char} (h : unescape? cs = some (d, rest)) :
    unquote ('\\' :: cs) = (unquote rest).map fun (ds, after) => (d :: ds, after) := by
  rw [unquote, if_neg (by decide), if_pos rfl]
  split
  · next hnone => rw [h] at hnone; cases hnone
  · next hsome =>
    rw [h] at hsome
    cases hsome
    rfl

/-- A string is read up to the mark that ends it. -/
theorem unquote_flatMap_escape (cs rest : List Char) :
    unquote (cs.flatMap escape ++ '"' :: rest) = some (cs, rest) := by
  induction cs with
  | nil => simp [unquote]
  | cons c cs ih =>
    rw [List.flatMap_cons, List.append_assoc]
    rcases escape_cases c with ⟨hself, hquote, hslash, hcontrol⟩ | ⟨ds, hescape, hread⟩
    · rw [hself, List.singleton_append, unquote, if_neg hquote, if_neg hslash, if_neg hcontrol, ih]
      rfl
    · rw [hescape, List.cons_append, unquote_escape (hread _), ih]
      rfl

/-- The text is cut into the pieces, if what follows it is as stated. -/
def Cuts (follows : List Char → Prop) (cs : List Char) (ps : List Piece) : Prop :=
  ∀ rest, follows rest → pieces (cs ++ rest) = (pieces rest).map (ps ++ ·)

def Anything (_ : List Char) : Prop := True

/-- Where a word ends: at the end of the text, or before a character that no word has. -/
def Delimited (rest : List Char) : Prop := ∀ c ∈ rest.head?, isInner c = false

theorem Cuts.imp {D E : List Char → Prop} {cs : List Char} {ps : List Piece} (h : Cuts D cs ps)
    (himp : ∀ rest, E rest → D rest) : Cuts E cs ps :=
  fun rest hrest => h rest (himp rest hrest)

theorem Cuts.append {D E : List Char → Prop} {cs ds : List Char} {ps qs : List Piece}
    (hcs : Cuts D cs ps) (hds : Cuts E ds qs) (hfollows : ∀ rest, E rest → D (ds ++ rest)) :
    Cuts E (cs ++ ds) (ps ++ qs) := by
  intro rest hrest
  rw [List.append_assoc, hcs _ (hfollows rest hrest), hds rest hrest, Option.map_map]
  exact congrArg (Option.map · _) (funext fun rs => (List.append_assoc ps qs rs).symm)

theorem Cuts.before {D : List Char → Prop} {cs ds : List Char} {ps qs : List Piece}
    (hcs : Cuts Anything cs ps) (hds : Cuts D ds qs) : Cuts D (cs ++ ds) (ps ++ qs) :=
  hcs.append hds fun _ _ => trivial

/-- A word ends where a text begins that is no part of a word. -/
theorem Cuts.delimit {cs ds : List Char} {ps qs : List Piece} (hcs : Cuts Delimited cs ps)
    (hds : Cuts Anything ds qs) (hne : ds ≠ []) (hhead : Delimited ds) :
    Cuts Anything (cs ++ ds) (ps ++ qs) := by
  refine hcs.append hds fun rest _ => ?_
  rw [Delimited, List.head?_append_of_ne_nil _ hne]
  exact hhead

theorem isMark_cases {c : Char} (h : isMark c = true) :
    isBlank c = false ∧ isInner c = false := by
  simp only [isMark, Bool.or_eq_true, decide_eq_true_eq] at h
  rcases h with ((((rfl | rfl) | rfl) | rfl) | rfl) | rfl <;> decide

theorem isInner_of_isBlank {c : Char} (h : isBlank c = true) : isInner c = false := by
  simp only [isBlank, Bool.or_eq_true, decide_eq_true_eq] at h
  rcases h with ((rfl | rfl) | rfl) | rfl <;> decide

theorem cuts_blanks {cs : List Char} (h : ∀ c ∈ cs, isBlank c = true) : Cuts Anything cs [] := by
  intro rest hrest
  induction cs with
  | nil => simp
  | cons c cs ih =>
    rw [List.cons_append, pieces, if_pos (h c List.mem_cons_self)]
    exact ih fun d hd => h d (List.mem_cons_of_mem c hd)

theorem cuts_mark {c : Char} (h : isMark c = true) : Cuts Anything [c] [.mark c] := by
  intro rest _
  have hblank := (isMark_cases h).1
  simp [pieces, hblank, h]

theorem cuts_quoted (s : String) : Cuts Anything (quoted s).toList [.scalar (str s)] := by
  intro rest _
  have hread := unquote_flatMap_escape s.toList rest
  have hshape : (quoted s).toList ++ rest = '"' :: (s.toList.flatMap escape ++ '"' :: rest) := by
    simp [quoted]
  rw [hshape, pieces, if_neg (by decide), if_neg (by decide), if_pos rfl]
  split
  · next hnone => rw [hread] at hnone; cases hnone
  · next hsome =>
    rw [hread] at hsome
    cases hsome
    rw [String.ofList_toList]
    rfl

/-- A word is one piece. -/
theorem IsWord.cuts {w : List Char} {j : Json} (h : IsWord w j) : Cuts Delimited w [.scalar j] := by
  intro rest hrest
  obtain ⟨c, w, rfl⟩ := List.exists_cons_of_ne_nil h.ne_nil
  have hc := h.inner c List.mem_cons_self
  have hblank : isBlank c ≠ true := by
    intro hblank
    rw [isInner_of_isBlank hblank] at hc
    cases hc
  have hmark : isMark c ≠ true := by
    intro hmark
    rw [(isMark_cases hmark).2] at hc
    cases hc
  have hquote : c ≠ '"' := by
    rintro rfl
    exact absurd hc (by decide)
  have hinner : ∀ d ∈ w, isInner d = true := fun d hd => h.inner d (List.mem_cons_of_mem c hd)
  obtain ⟨htake, hdrop⟩ := Number.span_append hinner hrest
  rw [List.cons_append, pieces, if_neg hblank, if_neg hmark, if_neg hquote, htake, hdrop, h.value]
  rfl

/-- The parts with a comma between neighbours. -/
def separated : List (List Piece) → List Piece
  | [] => []
  | [ps] => ps
  | ps :: qs :: rest => ps ++ .mark ',' :: separated (qs :: rest)

mutual

/-- The pieces that a value is written in. -/
def toPieces : Json → List Piece
  | arr js => .mark '[' :: (separated (itemPieces js) ++ [.mark ']'])
  | obj ms => .mark '\x7b' :: (separated (memberPieces ms) ++ [.mark '\x7d'])
  | null => [.scalar null]
  | bool b => [.scalar (bool b)]
  | int n => [.scalar (int n)]
  | float x => [.scalar (float x)]
  | str s => [.scalar (str s)]

def itemPieces : List Json → List (List Piece)
  | [] => []
  | j :: js => j.toPieces :: itemPieces js

def memberPieces : List (String × Json) → List (List Piece)
  | [] => []
  | (key, j) :: ms => (.scalar (str key) :: .mark ':' :: j.toPieces) :: memberPieces ms

end

mutual

/-- The integers of a value can be written, its floats are read back from their own texts, and no
object has two members of one name. -/
def Legible : Json → Prop
  | int n => fits n = true
  | float x => readFloat (floatText x) = .ok x
  | null | bool _ | str _ => True
  | arr js => AllLegible js
  | obj ms => (ms.map Prod.fst).Nodup ∧ MembersLegible ms

def AllLegible : List Json → Prop
  | [] => True
  | j :: js => j.Legible ∧ AllLegible js

def MembersLegible : List (String × Json) → Prop
  | [] => True
  | (_, j) :: ms => j.Legible ∧ MembersLegible ms

end

mutual

theorem writable_of_legible : ∀ (j : Json), j.Legible → j.writable = true
  | null => fun _ => rfl
  | bool _ => fun _ => rfl
  | int _ => fun h => h
  | float _ => fun _ => rfl
  | str _ => fun _ => rfl
  | arr js => fun h => allWritable_of_legible js h
  | obj ms => fun h => membersWritable_of_legible ms h.2

theorem allWritable_of_legible : ∀ (js : List Json), AllLegible js → allWritable js = true
  | [] => fun _ => rfl
  | j :: js => fun h => by
    rw [allWritable, writable_of_legible j h.1, allWritable_of_legible js h.2, Bool.and_true]

theorem membersWritable_of_legible : ∀ (ms : List (String × Json)), MembersLegible ms →
    membersWritable ms = true
  | [] => fun _ => rfl
  | (_, j) :: ms => fun h => by
    rw [membersWritable, writable_of_legible j h.1, membersWritable_of_legible ms h.2,
      Bool.and_true]

end

/-- Each text is cut into the pieces at its place, if no part of a word follows. -/
abbrev AllCut : List String → List (List Piece) → Prop :=
  List.Forall₂ fun text ps => Cuts Delimited text.toList ps

/-- White space only. -/
def IsGap (text : String) : Prop := ∀ c ∈ text.toList, isBlank c = true

/-- Texts with commas between them, and white space behind each comma. -/
theorem cuts_joinWith {gap : String} (hgap : IsGap gap) {texts : List String}
    {pss : List (List Piece)} (h : AllCut texts pss) :
    Cuts Delimited (joinWith ("," ++ gap) texts).toList (separated pss) := by
  induction h with
  | nil => exact (cuts_blanks (by simp)).imp fun _ _ => trivial
  | @cons text ps texts pss htext hrest ih =>
    cases hrest with
    | nil => exact htext
    | cons _ _ =>
      -- The comma ends whatever word stands before it.
      have hcomma : Cuts Anything (',' :: gap.toList) [.mark ','] :=
        (cuts_mark rfl).before (cuts_blanks hgap)
      have hdelimited : Delimited (',' :: gap.toList) := by
        intro c hc
        cases hc
        rfl
      have hcut := (htext.delimit hcomma (List.cons_ne_nil _ _) hdelimited).before ih
      rw [Text.joinWith_cons_cons]
      simpa [separated] using hcut

/-- The two texts are the marks that enclose an array or an object. -/
structure Encloses (left right : String) (l r : Char) : Prop where
  left : left.toList = [l]
  right : right.toList = [r]
  isMark_left : isMark l = true
  isMark_right : isMark r = true

section

variable {left right : String} {l r : Char} {texts : List String} {pss : List (List Piece)}

/-- Texts between marks, with white space inside the marks and behind the commas. -/
theorem cuts_enclosed (hmarks : Encloses left right l r) {lead gap tail : String}
    (hlead : IsGap lead) (hgap : IsGap gap) (htail : IsGap tail) (h : AllCut texts pss) :
    Cuts Delimited (left ++ lead ++ joinWith ("," ++ gap) texts ++ tail ++ right).toList
      (.mark l :: (separated pss ++ [.mark r])) := by
  have hend : Cuts Anything (tail.toList ++ [r]) [.mark r] :=
    (cuts_blanks htail).before (cuts_mark hmarks.isMark_right)
  have hdelimited : Delimited (tail.toList ++ [r]) := by
    cases htext : tail.toList with
    | nil => simpa [Delimited] using (isMark_cases hmarks.isMark_right).2
    | cons c cs => simpa [Delimited] using isInner_of_isBlank (htail c (by simp [htext]))
  have hinner : Cuts Delimited (lead.toList ++ (joinWith ("," ++ gap) texts).toList)
      (separated pss) :=
    (cuts_blanks hlead).before (cuts_joinWith hgap h)
  have hcut := (cuts_mark hmarks.isMark_left).before (hinner.delimit hend (by simp) hdelimited)
  have hshape : (left ++ lead ++ joinWith ("," ++ gap) texts ++ tail ++ right).toList =
      [l] ++ (lead.toList ++ (joinWith ("," ++ gap) texts).toList ++ (tail.toList ++ [r])) := by
    simp [hmarks.left, hmarks.right]
  rw [hshape]
  exact hcut.imp fun _ _ => trivial

/-- Texts between marks on one line. -/
theorem cuts_inline (hmarks : Encloses left right l r) (h : AllCut texts pss) :
    Cuts Delimited (left ++ joinWith ", " texts ++ right).toList
      (.mark l :: (separated pss ++ [.mark r])) := by
  have hnone : IsGap "" := by simp [IsGap]
  have hblank : IsGap " " := forall_mem_of_all (by decide)
  have hcut := cuts_enclosed hmarks hnone hblank hnone h
  rwa [String.append_empty, String.append_empty] at hcut

theorem isGap_newline (step depth : Nat) : IsGap (newline step depth) := by
  intro c hc
  rw [newline, String.toList_ofList] at hc
  rcases List.mem_cons.mp hc with rfl | hc
  · rfl
  · rw [List.eq_of_mem_replicate hc]
    rfl

/-- Texts between marks, each on a line of its own. -/
theorem cuts_spread (step depth : Nat) (hmarks : Encloses left right l r) (h : AllCut texts pss) :
    Cuts Delimited (spread step depth left right texts).toList
      (.mark l :: (separated pss ++ [.mark r])) := by
  unfold spread
  split
  · next hnil =>
    subst hnil
    have hcut := cuts_inline hmarks h
    rwa [Text.joinWith_nil, String.append_empty] at hcut
  · have hinner := isGap_newline step (depth + 1)
    exact cuts_enclosed hmarks hinner hinner (isGap_newline step depth) h

end

theorem encloses_array : Encloses "[" "]" '[' ']' := ⟨rfl, rfl, rfl, rfl⟩

theorem encloses_object : Encloses "\x7b" "\x7d" '\x7b' '\x7d' := ⟨rfl, rfl, rfl, rfl⟩

/-- A member is its name, a colon and its value. -/
theorem cuts_member (key : String) {text : String} {ps : List Piece}
    (h : Cuts Delimited text.toList ps) :
    Cuts Delimited (quoted key ++ ": " ++ text).toList (.scalar (str key) :: .mark ':' :: ps) := by
  have hblank : Cuts Anything [' '] [] := cuts_blanks (forall_mem_of_all (by decide))
  have hcolon : Cuts Anything ": ".toList [.mark ':'] := (cuts_mark rfl).before hblank
  have hcut := ((cuts_quoted key).before hcolon).before h
  simpa using hcut

mutual

/-- The layout on one line is cut into the pieces of the value. -/
theorem cuts_compact : ∀ {j : Json}, j.Legible → Cuts Delimited j.compact.toList j.toPieces
  | null, _ => isWord_null.cuts
  | bool b, _ => (isWord_bool b).cuts
  | int _, h => (isWord_int h).cuts
  | float _, h => (isWord_float h).cuts
  | str s, _ => (cuts_quoted s).imp fun _ _ => trivial
  | arr _, h => cuts_inline encloses_array (cuts_compactItems h)
  | obj _, h => cuts_inline encloses_object (cuts_compactMembers h.2)

theorem cuts_compactItems : ∀ {js : List Json}, AllLegible js →
    AllCut (compactItems js) (itemPieces js)
  | [], _ => .nil
  | _ :: _, h => .cons (cuts_compact h.1) (cuts_compactItems h.2)

theorem cuts_compactMembers : ∀ {ms : List (String × Json)}, MembersLegible ms →
    AllCut (compactMembers ms) (memberPieces ms)
  | [], _ => .nil
  | (key, _) :: _, h => .cons (cuts_member key (cuts_compact h.1)) (cuts_compactMembers h.2)

end

mutual

/-- So is the layout over several lines, from any depth on. -/
theorem cuts_pretty (step : Nat) :
    ∀ {j : Json} (depth : Nat), j.Legible → Cuts Delimited (j.pretty step depth).toList j.toPieces
  | null, _, _ => isWord_null.cuts
  | bool b, _, _ => (isWord_bool b).cuts
  | int _, _, h => (isWord_int h).cuts
  | float _, _, h => (isWord_float h).cuts
  | str s, _, _ => (cuts_quoted s).imp fun _ _ => trivial
  | arr _, depth, h => cuts_spread step depth encloses_array (cuts_prettyItems step (depth + 1) h)
  | obj _, depth, h =>
    cuts_spread step depth encloses_object (cuts_prettyMembers step (depth + 1) h.2)

theorem cuts_prettyItems (step : Nat) : ∀ {js : List Json} (depth : Nat), AllLegible js →
    AllCut (prettyItems step depth js) (itemPieces js)
  | [], _, _ => .nil
  | _ :: _, depth, h => .cons (cuts_pretty step depth h.1) (cuts_prettyItems step depth h.2)

theorem cuts_prettyMembers (step : Nat) : ∀ {ms : List (String × Json)} (depth : Nat),
    MembersLegible ms → AllCut (prettyMembers step depth ms) (memberPieces ms)
  | [], _, _ => .nil
  | (key, _) :: _, depth, h =>
    .cons (cuts_member key (cuts_pretty step depth h.1)) (cuts_prettyMembers step depth h.2)

end

theorem insertIn_of_not_mem {key : String} {j : Json} {ms : List (String × Json)}
    (h : key ∉ ms.map Prod.fst) : Table.insertIn key j ms = ms ++ [(key, j)] := by
  induction ms with
  | nil => rfl
  | cons m ms ih =>
    rw [List.map_cons, List.mem_cons, not_or] at h
    rw [Table.insertIn, if_neg (Ne.symm h.1), ih h.2]
    rfl

/-- Members of different names all stay, in their order. -/
theorem gather_eq_self {ms : List (String × Json)} (h : (ms.map Prod.fst).Nodup) :
    gather ms = ms := by
  -- By induction on the members that are still to come, for any members found before.
  have hfold : ∀ (ms found : List (String × Json)), ((found ++ ms).map Prod.fst).Nodup →
      ms.foldl (fun found m => Table.insertIn m.1 m.2 found) found = found ++ ms := by
    intro ms
    induction ms with
    | nil => simp
    | cons m ms ih =>
      intro found hnodup
      have hnew : m.1 ∉ found.map Prod.fst := by
        rw [List.map_append, List.nodup_append] at hnodup
        exact fun hmem => hnodup.2.2 m.1 hmem m.1 (by simp) rfl
      rw [List.foldl_cons, insertIn_of_not_mem hnew, ih, List.append_assoc]
      · rfl
      · simpa using hnodup
  exact hfold ms [] h

/-- No value begins with the end of an array. -/
theorem exists_head_toPieces (j : Json) : ∃ p ps, j.toPieces = p :: ps ∧ p ≠ .mark ']' := by
  cases j <;> exact ⟨_, _, rfl, by simp⟩

theorem exists_head_separated (ps : List Piece) (p : Piece) (pss : List (List Piece)) :
    ∃ qs, separated ((p :: ps) :: pss) = p :: qs := by
  cases pss with
  | nil => exact ⟨ps, rfl⟩
  | cons qs pss => exact ⟨_, rfl⟩

theorem length_separated (ps qs : List Piece) (pss : List (List Piece)) :
    (separated (ps :: qs :: pss)).length = ps.length + (separated (qs :: pss)).length + 1 := by
  rw [separated, List.length_append, List.length_cons, Nat.add_assoc]

theorem value_scalar (j : Json) (rest : List Piece) {steps : Nat} (h : 0 < steps) :
    value steps (.scalar j :: rest) = some (j, rest) := by
  obtain ⟨steps, rfl⟩ := Nat.exists_eq_succ_of_ne_zero (Nat.ne_of_gt h)
  rw [value]

/-- An array whose items are read is read. -/
theorem value_array {steps : Nat} {j : Json} {js : List Json} {rest : List Piece}
    (h : items steps (separated (itemPieces (j :: js)) ++ .mark ']' :: rest) =
      some (j :: js, rest)) :
    value (steps + 1) ((arr (j :: js)).toPieces ++ rest) = some (arr (j :: js), rest) := by
  -- The first piece of the items is not the end of the array, so the array is not taken for empty.
  obtain ⟨p, ps, hj, hp⟩ := exists_head_toPieces j
  obtain ⟨qs, hqs⟩ := exists_head_separated ps p (itemPieces js)
  rw [itemPieces, hj, hqs, List.cons_append] at h
  rw [toPieces, itemPieces, hj, hqs, List.cons_append, List.append_assoc, List.singleton_append,
    List.cons_append, value, h]
  · rfl
  · rintro qs' hqs'
    exact hp (List.cons.inj hqs').1

/-- An object whose members are read is read. -/
theorem value_object {steps : Nat} {key : String} {j : Json} {ms : List (String × Json)}
    {rest : List Piece} (hnodup : (((key, j) :: ms).map Prod.fst).Nodup)
    (h : members steps (separated (memberPieces ((key, j) :: ms)) ++ .mark '\x7d' :: rest) =
      some ((key, j) :: ms, rest)) :
    value (steps + 1) ((obj ((key, j) :: ms)).toPieces ++ rest) =
      some (obj ((key, j) :: ms), rest) := by
  obtain ⟨qs, hqs⟩ :=
    exists_head_separated (.mark ':' :: j.toPieces) (.scalar (str key)) (memberPieces ms)
  rw [memberPieces, hqs, List.cons_append] at h
  rw [toPieces, memberPieces, hqs, List.cons_append, List.append_assoc, List.singleton_append,
    List.cons_append, value, h]
  · exact congrArg (fun ms => some (obj ms, rest)) (gather_eq_self hnodup)
  · rintro qs' hqs'
    cases hqs'

theorem items_last {steps : Nat} {ps rest : List Piece} {j : Json}
    (h : value steps ps = some (j, .mark ']' :: rest)) :
    items (steps + 1) ps = some ([j], rest) := by
  rw [items, h]
  rfl

theorem items_next {steps : Nat} {ps rest after : List Piece} {j : Json} {js : List Json}
    (h : value steps ps = some (j, .mark ',' :: rest))
    (hrest : items steps rest = some (js, after)) :
    items (steps + 1) ps = some (j :: js, after) := by
  rw [items, h]
  simp [hrest]

theorem members_last {steps : Nat} {ps rest : List Piece} {key : String} {j : Json}
    (h : value steps ps = some (j, .mark '\x7d' :: rest)) :
    members (steps + 1) (.scalar (str key) :: .mark ':' :: ps) = some ([(key, j)], rest) := by
  rw [members, h]
  rfl

theorem members_next {steps : Nat} {ps rest after : List Piece} {key : String} {j : Json}
    {ms : List (String × Json)} (h : value steps ps = some (j, .mark ',' :: rest))
    (hrest : members steps rest = some (ms, after)) :
    members (steps + 1) (.scalar (str key) :: .mark ':' :: ps) = some ((key, j) :: ms, after) := by
  rw [members, h]
  simp [hrest]

mutual

/-- The pieces of a value are put together to the value again. -/
theorem value_toPieces : ∀ (j : Json), j.Legible → ∀ (steps : Nat) (rest : List Piece),
    j.toPieces.length ≤ steps → value steps (j.toPieces ++ rest) = some (j, rest)
  | null => fun _ _ rest hlength => value_scalar null rest hlength
  | bool b => fun _ _ rest hlength => value_scalar (bool b) rest hlength
  | int n => fun _ _ rest hlength => value_scalar (int n) rest hlength
  | float x => fun _ _ rest hlength => value_scalar (float x) rest hlength
  | str s => fun _ _ rest hlength => value_scalar (str s) rest hlength
  | arr js => fun h steps rest hlength => by
    have hlength' : (separated (itemPieces js)).length + 2 ≤ steps := by
      rwa [toPieces, List.length_cons, List.length_append] at hlength
    obtain ⟨steps, rfl⟩ := Nat.exists_eq_add_of_le' (Nat.le_of_add_left_le hlength')
    cases js with
    | nil => rfl
    | cons j js =>
      exact value_array (items_separated (j :: js) h nofun _ rest (by omega))
  | obj ms => fun h steps rest hlength => by
    have hlength' : (separated (memberPieces ms)).length + 2 ≤ steps := by
      rwa [toPieces, List.length_cons, List.length_append] at hlength
    obtain ⟨steps, rfl⟩ := Nat.exists_eq_add_of_le' (Nat.le_of_add_left_le hlength')
    cases ms with
    | nil => rfl
    | cons m ms =>
      exact value_object h.1 (members_separated (m :: ms) h.2 nofun _ rest (by omega))

theorem items_separated : ∀ (js : List Json), AllLegible js → js ≠ [] →
    ∀ (steps : Nat) (rest : List Piece), (separated (itemPieces js)).length < steps →
    items steps (separated (itemPieces js) ++ .mark ']' :: rest) = some (js, rest)
  | [] => fun _ hne => absurd rfl hne
  | [j] => fun h _ steps rest hlength => by
    obtain ⟨steps, rfl⟩ := Nat.exists_eq_add_of_le' (Nat.one_le_of_lt hlength)
    exact items_last (value_toPieces j h.1 steps _ (Nat.le_of_lt_succ hlength))
  | j :: j' :: js => fun h _ steps rest hlength => by
    obtain ⟨steps, rfl⟩ := Nat.exists_eq_add_of_le' (Nat.one_le_of_lt hlength)
    rw [itemPieces, itemPieces, length_separated, ← itemPieces] at hlength
    have hjs := items_separated (j' :: js) h.2 nofun steps rest (by omega)
    have hj := value_toPieces j h.1 steps
      (.mark ',' :: (separated (itemPieces (j' :: js)) ++ .mark ']' :: rest)) (by omega)
    rw [← List.cons_append, ← List.append_assoc] at hj
    exact items_next hj hjs

theorem members_separated : ∀ (ms : List (String × Json)), MembersLegible ms → ms ≠ [] →
    ∀ (steps : Nat) (rest : List Piece), (separated (memberPieces ms)).length < steps →
    members steps (separated (memberPieces ms) ++ .mark '\x7d' :: rest) = some (ms, rest)
  | [] => fun _ hne => absurd rfl hne
  | [(key, j)] => fun h _ steps rest hlength => by
    obtain ⟨steps, rfl⟩ := Nat.exists_eq_add_of_le' (Nat.one_le_of_lt hlength)
    have hlength' : j.toPieces.length + 2 < steps + 1 := hlength
    exact members_last (value_toPieces j h.1 steps _ (by omega))
  | (key, j) :: (key', j') :: ms => fun h _ steps rest hlength => by
    obtain ⟨steps, rfl⟩ := Nat.exists_eq_add_of_le' (Nat.one_le_of_lt hlength)
    rw [memberPieces, memberPieces, length_separated, ← memberPieces] at hlength
    have hlength' :
        j.toPieces.length + 2 + (separated (memberPieces ((key', j') :: ms))).length < steps :=
      Nat.lt_of_succ_lt_succ hlength
    have hms := members_separated ((key', j') :: ms) h.2 nofun steps rest (by omega)
    have hj := value_toPieces j h.1 steps
      (.mark ',' :: (separated (memberPieces ((key', j') :: ms)) ++ .mark '\x7d' :: rest))
      (by omega)
    rw [← List.cons_append, ← List.append_assoc] at hj
    exact members_next hj hms

end

end TinyScript.Json
