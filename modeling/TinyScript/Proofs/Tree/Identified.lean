import TinyScript.Proofs.Tree.Entries
import TinyScript.Proofs.Tree.RoundTrip

/-!
# Outlines identify programs

Two parsed programs with the same outline are equal, provided that floats which are shown alike are
equal (`outline_identifies`). The layout of an outline tells the headers of the program and how they
are nested. The first word of a header tells the kind of the node, the entries below it tell its
parts, and the rest of the header tells the name, number, text or operator that it shows.
-/

namespace TinyScript

open Number (fits floatText intText)
open Outline (Entry blockEntry branchEntry)
open Text (OpensWith commaList joinWith quote)

/-- A word that is followed by a blank. -/
theorem Outline.exists_afterWord (word s : String) :
    ∃ t, word ++ " " ++ s = word ++ t ∧ OpensWith ' ' t :=
  ⟨" " ++ s, String.append_assoc, (Text.opensWith_of_head rfl).append (by decide) s⟩

open Outline (exists_afterWord)

/-- The first word of a header is the name of the kind. -/
theorem Expr.header_entry (e : Expr) :
    ∃ t, e.entry.header = e.className ++ t ∧ OpensWith ' ' t := by
  cases e with
  | var x => exact exists_afterWord "Variable" x
  | int n => exact exists_afterWord "WholeNumber" (intText n)
  | float x => exact exists_afterWord "Double" (floatText x)
  | str s => exact exists_afterWord "StringExp" (quote s)
  | call f args => exact exists_afterWord "FunctionCall" f
  | logic op | logicUnary op => exact exists_afterWord "BooleanExprNode" op
  | compare op => exact exists_afterWord "ComparisonExprNode" op
  | arith op | arithUnary op => exact exists_afterWord "InfixExprNode" op
  | hole => exact ⟨"", String.append_empty.symm, Text.opensWith_empty ' '⟩

theorem Expr.className_of_entry {e e' : Expr} (h : e.entry = e'.entry) :
    e.className = e'.className := by
  have hblank : ∀ e : Expr, ' ' ∉ e.className.toList := by
    intro e
    cases e <;> (simp only [Expr.className]; decide)
  obtain ⟨t, ht, hopen⟩ := e.header_entry
  obtain ⟨t', ht', hopen'⟩ := e'.header_entry
  rw [h, ht'] at ht
  exact (Text.cut_unique (hblank e') (hblank e) hopen' hopen ht).1.symm

theorem Text.quote_injective {s t : String} (h : quote s = quote t) : s = t := by
  have hcodes : Quoted.encode s.toList = Quoted.encode t.toList := String.ofList_injective h
  have hread := Quoted.decode_encode s.toList
  rw [hcodes, Quoted.decode_encode] at hread
  exact (String.toList_inj.mp (Except.ok.inj hread)).symm

theorem Number.intText_injective {m n : Int} (hm : fits m = true) (hn : fits n = true)
    (h : intText m = intText n) : m = n := by
  have hread := readInt_intText hm
  rw [h, readInt_intText hn] at hread
  exact (Except.ok.inj hread).symm

/-- Floats of the two lists that are shown alike are equal. -/
def ShownApart (xs ys : List Float) : Prop :=
  ∀ x ∈ xs, ∀ y ∈ ys, floatText x = floatText y → x = y

section ShownApart

variable {xs xs' ys ys' : List Float}

theorem ShownApart.left (h : ShownApart (xs ++ xs') (ys ++ ys')) : ShownApart xs ys :=
  fun x hx y hy => h x (List.mem_append_left _ hx) y (List.mem_append_left _ hy)

theorem ShownApart.right (h : ShownApart (xs ++ xs') (ys ++ ys')) : ShownApart xs' ys' :=
  fun x hx y hy => h x (List.mem_append_right _ hx) y (List.mem_append_right _ hy)

end ShownApart

theorem Outline.pair_inj {t u t' u' : Entry} (h : [t, u] = [t', u']) : t = t' ∧ u = u' :=
  ⟨(List.cons.inj h).1, (List.cons.inj (List.cons.inj h).2).1⟩

theorem Outline.blockEntry_inj {body body' : Block} {below below' : List Entry}
    (h : [blockEntry body below] = [blockEntry body' below']) : below = below' :=
  (Entry.node.inj (List.cons.inj h).1).2

theorem Outline.branchEntry_inj {c c' : Expr} {body body' : Block} {below below' : List Entry}
    (h : [branchEntry c body below] = [branchEntry c' body' below']) :
    c.entry = c'.entry ∧ below = below' := by
  obtain ⟨hc, hblock⟩ := List.cons.inj (Entry.node.inj (List.cons.inj h).1).2
  exact ⟨hc, blockEntry_inj hblock⟩

mutual

/-- An expression is determined by its headers. -/
theorem Expr.entry_unique (e e' : Expr) (h : e.Spelled) (h' : e'.Spelled)
    (hfloats : ShownApart e.floats e'.floats) (heq : e.entry = e'.entry) : e = e' := by
  have hclass := Expr.className_of_entry heq
  cases e with
  | var x =>
    cases e' with
    | var y =>
      obtain ⟨hheader, -⟩ := Entry.node.inj heq
      rw [(String.append_right_inj _).mp hheader]
    | _ => exact absurd hclass (by simp [Expr.className])
  | int m =>
    cases e' with
    | int n =>
      obtain ⟨hheader, -⟩ := Entry.node.inj heq
      rw [Number.intText_injective h.2 h'.2 ((String.append_right_inj _).mp hheader)]
    | _ => exact absurd hclass (by simp [Expr.className])
  | float x =>
    cases e' with
    | float y =>
      obtain ⟨hheader, -⟩ := Entry.node.inj heq
      have hxy := (String.append_right_inj _).mp hheader
      rw [hfloats x List.mem_cons_self y List.mem_cons_self hxy]
    | _ => exact absurd hclass (by simp [Expr.className])
  | str s =>
    cases e' with
    | str t =>
      obtain ⟨hheader, -⟩ := Entry.node.inj heq
      rw [Text.quote_injective ((String.append_right_inj _).mp hheader)]
    | _ => exact absurd hclass (by simp [Expr.className])
  | call f args =>
    cases e' with
    | call f' args' =>
      obtain ⟨hheader, hbelow⟩ := Entry.node.inj heq
      rw [(String.append_right_inj _).mp hheader,
        Expr.entries_unique args args' h.2 h'.2 hfloats hbelow]
    | _ => exact absurd hclass (by simp [Expr.className])
  | logic op l r =>
    cases e' with
    | logic op' l' r' =>
      obtain ⟨hheader, hbelow⟩ := Entry.node.inj heq
      obtain ⟨hl, hr⟩ := Outline.pair_inj hbelow
      rw [(String.append_right_inj _).mp hheader,
        Expr.entry_unique l l' h.2.1 h'.2.1 hfloats.left hl,
        Expr.entry_unique r r' h.2.2 h'.2.2 hfloats.right hr]
    -- One operand below the same header makes another list of entries.
    | logicUnary op' e' => cases (List.cons.inj (Entry.node.inj heq).2).2
    | _ => exact absurd hclass (by simp [Expr.className])
  | logicUnary op e =>
    cases e' with
    | logicUnary op' e' =>
      obtain ⟨hheader, hbelow⟩ := Entry.node.inj heq
      rw [(String.append_right_inj _).mp hheader,
        Expr.entry_unique e e' h.2 h'.2 hfloats (List.cons.inj hbelow).1]
    | logic op' l' r' => cases (List.cons.inj (Entry.node.inj heq).2).2
    | _ => exact absurd hclass (by simp [Expr.className])
  | compare op l r =>
    cases e' with
    | compare op' l' r' =>
      obtain ⟨hheader, hbelow⟩ := Entry.node.inj heq
      obtain ⟨hl, hr⟩ := Outline.pair_inj hbelow
      rw [(String.append_right_inj _).mp hheader,
        Expr.entry_unique l l' h.2.1 h'.2.1 hfloats.left hl,
        Expr.entry_unique r r' h.2.2 h'.2.2 hfloats.right hr]
    | _ => exact absurd hclass (by simp [Expr.className])
  | arith op l r =>
    cases e' with
    | arith op' l' r' =>
      obtain ⟨hheader, hbelow⟩ := Entry.node.inj heq
      obtain ⟨hl, hr⟩ := Outline.pair_inj hbelow
      rw [(String.append_right_inj _).mp hheader,
        Expr.entry_unique l l' h.2.1 h'.2.1 hfloats.left hl,
        Expr.entry_unique r r' h.2.2 h'.2.2 hfloats.right hr]
    | arithUnary op' e' => cases (List.cons.inj (Entry.node.inj heq).2).2
    | _ => exact absurd hclass (by simp [Expr.className])
  | arithUnary op e =>
    cases e' with
    | arithUnary op' e' =>
      obtain ⟨hheader, hbelow⟩ := Entry.node.inj heq
      rw [(String.append_right_inj _).mp hheader,
        Expr.entry_unique e e' h.2 h'.2 hfloats (List.cons.inj hbelow).1]
    | arith op' l' r' => cases (List.cons.inj (Entry.node.inj heq).2).2
    | _ => exact absurd hclass (by simp [Expr.className])
  | hole => exact h.elim

theorem Expr.entries_unique (es es' : List Expr) (h : Expr.AllSpelled es)
    (h' : Expr.AllSpelled es') (hfloats : ShownApart (Expr.floatsAll es) (Expr.floatsAll es'))
    (heq : Expr.entries es = Expr.entries es') : es = es' := by
  cases es with
  | nil =>
    cases es' with
    | nil => rfl
    | cons e' es' => cases heq
  | cons e es =>
    cases es' with
    | nil => cases heq
    | cons e' es' =>
      obtain ⟨hfirst, hrest⟩ := List.cons.inj heq
      rw [Expr.entry_unique e e' h.1 h'.1 hfloats.left hfirst,
        Expr.entries_unique es es' h.2 h'.2 hfloats.right hrest]

end

mutual

/-- The floats in a statement. -/
def Stmt.floats : Stmt → List Float
  | .assign _ e | .ret e | .bare e => e.floats
  | .print es => Expr.floatsAll es
  | .ifElse c body arms => c.floats ++ (Stmt.allFloats body ++ arms.floats)
  | .headless arms => arms.floats
  | .forRange _ args body => Expr.floatsAll args ++ Stmt.allFloats body
  | .define _ _ body _ | .block body => Stmt.allFloats body
  | .guarded c body => c.floats ++ Stmt.allFloats body
  | .hole => []

def Arms.floats : Arms → List Float
  | .done => []
  | .otherwise body => Stmt.allFloats body
  | .elif c body rest => c.floats ++ (Stmt.allFloats body ++ rest.floats)

def Stmt.allFloats : List Stmt → List Float
  | [] => []
  | s :: ss => s.floats ++ Stmt.allFloats ss

end

theorem Stmt.header_entry {inside : Bool} {s : Stmt} (h : s.WellFormed inside) :
    ∃ t, s.entry.header = s.className ++ t ∧ OpensWith ' ' t := by
  have hword : ∀ word : String, ∃ t, word = word ++ t ∧ OpensWith ' ' t := fun word =>
    ⟨"", String.append_empty.symm, Text.opensWith_empty ' '⟩
  cases s with
  | assign x e =>
    rw [Stmt.entry, Entry.header, String.append_assoc, String.append_assoc]
    exact exists_afterWord "AssignStmt" _
  | print es => exact hword "PrintStatement"
  | ifElse c body arms => exact hword "IfStatement"
  | forRange x args body =>
    rw [Stmt.entry, Entry.header, String.append_assoc, String.append_assoc, String.append_assoc]
    exact exists_afterWord "RangeStmt" _
  | define f params body registered =>
    rw [Stmt.entry, Entry.header, String.append_assoc, String.append_assoc, String.append_assoc]
    exact exists_afterWord "FunctionDefinition" _
  | ret e => exact exists_afterWord "ReturnStatement" _
  | headless | bare | block | guarded | hole => exact h.elim

theorem Stmt.className_of_entry {inside : Bool} {s s' : Stmt} (h : s.WellFormed inside)
    (h' : s'.WellFormed inside) (heq : s.entry = s'.entry) : s.className = s'.className := by
  have hblank : ∀ s : Stmt, s.WellFormed inside → ' ' ∉ s.className.toList := by
    intro s hs
    cases s with
    | headless | bare | block | guarded | hole => exact hs.elim
    | _ => simp only [Stmt.className]; decide
  obtain ⟨t, ht, hopen⟩ := Stmt.header_entry h
  obtain ⟨t', ht', hopen'⟩ := Stmt.header_entry h'
  rw [heq, ht'] at ht
  exact (Text.cut_unique (hblank s' h') (hblank s h) hopen' hopen ht).1.symm

/-- The header of a definition tells the function and its parameters. -/
theorem Outline.definition_unique {f f' : String} {params params' : List String} (hf : IsName f)
    (hf' : IsName f') (hparams : ∀ p ∈ params, IsName p) (hparams' : ∀ p ∈ params', IsName p)
    (h : "FunctionDefinition " ++ f ++ "(" ++ commaList params ++ ")" =
      "FunctionDefinition " ++ f' ++ "(" ++ commaList params' ++ ")") :
    f = f' ∧ params = params' := by
  have hbracket : ∀ s : String, OpensWith '(' ("(" ++ s) := fun s =>
    (Text.opensWith_of_head rfl).append (by decide) s
  have hpiece : ∀ ps : List String, (∀ p ∈ ps, IsName p) → ∀ p ∈ ps, p ≠ "" ∧ ',' ∉ p.toList :=
    fun ps hps p hp => ⟨(hps p hp).ne_empty, (hps p hp).not_mem (by decide)⟩
  have hopen := (String.append_left_inj _).mp h
  rw [String.append_assoc, String.append_assoc, String.append_assoc, String.append_assoc,
    String.append_right_inj] at hopen
  obtain ⟨hname, hlist⟩ := Text.cut_unique (hf.not_mem (by decide)) (hf'.not_mem (by decide))
    (hbracket _) (hbracket _) hopen
  refine ⟨hname, ?_⟩
  exact Text.joinWith_unique (Text.opensWith_of_head (c := ',') rfl) (by decide)
    (hpiece params hparams) (hpiece params' hparams') ((String.append_right_inj _).mp hlist)

mutual

/-- A statement is determined by its headers. -/
theorem Stmt.entry_unique {inside : Bool} (s s' : Stmt) (h : s.WellFormed inside)
    (h' : s'.WellFormed inside) (hn : s.Named) (hn' : s'.Named)
    (hfloats : ShownApart s.floats s'.floats) (heq : s.entry = s'.entry) : s = s' := by
  have hclass := Stmt.className_of_entry h h' heq
  cases s with
  | assign x e =>
    cases s' with
    | assign x' e' =>
      obtain ⟨hheader, hbelow⟩ := Entry.node.inj heq
      obtain rfl := Expr.entry_unique e e' h h' hfloats (List.cons.inj hbelow).1
      simp only [String.append_left_inj, String.append_right_inj] at hheader
      rw [hheader]
    | headless | bare | block | guarded | hole => exact h'.elim
    | _ => exact absurd hclass (by simp [Stmt.className])
  | print es =>
    cases s' with
    | print es' =>
      rw [Expr.entries_unique es es' h h' hfloats (Entry.node.inj heq).2]
    | headless | bare | block | guarded | hole => exact h'.elim
    | _ => exact absurd hclass (by simp [Stmt.className])
  | ifElse c body arms =>
    cases s' with
    | ifElse c' body' arms' =>
      obtain ⟨hbranch, harms⟩ := List.cons.inj (Entry.node.inj heq).2
      obtain ⟨hc, hbody⟩ := Outline.branchEntry_inj (Entry.node.inj hbranch).2
      rw [Expr.entry_unique c c' h.1 h'.1 hfloats.left hc,
        Stmt.entries_unique body body' h.2.1 h'.2.1 hn.1 hn'.1 hfloats.right.left hbody,
        Arms.entries_unique arms arms' h.2.2 h'.2.2 hn.2 hn'.2 hfloats.right.right harms]
    | headless | bare | block | guarded | hole => exact h'.elim
    | _ => exact absurd hclass (by simp [Stmt.className])
  | forRange x args body =>
    cases s' with
    | forRange x' args' body' =>
      obtain ⟨hheader, hbelow⟩ := Entry.node.inj heq
      -- The entry of the block is the last one below the header.
      obtain ⟨hargs, hblock⟩ := List.append_inj' hbelow rfl
      obtain rfl := Expr.entries_unique args args' h.2.1 h'.2.1 hfloats.left hargs
      simp only [String.append_left_inj, String.append_right_inj] at hheader
      rw [hheader, Stmt.entries_unique body body' h.2.2 h'.2.2 hn.2 hn'.2 hfloats.right
        (Outline.blockEntry_inj hblock)]
    | headless | bare | block | guarded | hole => exact h'.elim
    | _ => exact absurd hclass (by simp [Stmt.className])
  | define f params body registered =>
    cases s' with
    | define f' params' body' registered' =>
      obtain ⟨hheader, hbelow⟩ := Entry.node.inj heq
      obtain ⟨rfl, rfl⟩ := Outline.definition_unique hn.1 hn'.1 hn.2.1 hn'.2.1 hheader
      rw [h.1, h'.1, Stmt.entries_unique body body' h.2.2 h'.2.2 hn.2.2 hn'.2.2 hfloats
        (Outline.blockEntry_inj hbelow)]
    | headless | bare | block | guarded | hole => exact h'.elim
    | _ => exact absurd hclass (by simp [Stmt.className])
  | ret e =>
    cases s' with
    | ret e' =>
      obtain ⟨-, hbelow⟩ := Entry.node.inj heq
      rw [Expr.entry_unique e e' h.2 h'.2 hfloats (List.cons.inj hbelow).1]
    | headless | bare | block | guarded | hole => exact h'.elim
    | _ => exact absurd hclass (by simp [Stmt.className])
  | headless | bare | block | guarded | hole => exact h.elim

theorem Arms.entries_unique {inside : Bool} (arms arms' : Arms) (h : arms.WellFormed inside)
    (h' : arms'.WellFormed inside) (hn : arms.Named) (hn' : arms'.Named)
    (hfloats : ShownApart arms.floats arms'.floats) (heq : arms.entries = arms'.entries) :
    arms = arms' := by
  cases arms with
  | done =>
    cases arms' with
    | done => rfl
    | otherwise | elif => cases heq
  | otherwise body =>
    cases arms' with
    | done => cases heq
    | otherwise body' =>
      obtain ⟨-, hbelow⟩ := Entry.node.inj (List.cons.inj heq).1
      rw [Stmt.entries_unique body body' h h' hn hn' hfloats (Outline.blockEntry_inj hbelow)]
    | elif c' body' rest' =>
      exact absurd (Entry.node.inj (List.cons.inj heq).1).1 (by decide)
  | elif c body rest =>
    cases arms' with
    | done => cases heq
    | otherwise body' =>
      exact absurd (Entry.node.inj (List.cons.inj heq).1).1 (by decide)
    | elif c' body' rest' =>
      obtain ⟨hbranch, hrest⟩ := List.cons.inj heq
      obtain ⟨hc, hbody⟩ := Outline.branchEntry_inj (Entry.node.inj hbranch).2
      rw [Expr.entry_unique c c' h.1 h'.1 hfloats.left hc,
        Stmt.entries_unique body body' h.2.1 h'.2.1 hn.1 hn'.1 hfloats.right.left hbody,
        Arms.entries_unique rest rest' h.2.2 h'.2.2 hn.2 hn'.2 hfloats.right.right hrest]

theorem Stmt.entries_unique {inside : Bool} (ss ss' : List Stmt) (h : Stmt.AllWellFormed inside ss)
    (h' : Stmt.AllWellFormed inside ss') (hn : Stmt.AllNamed ss) (hn' : Stmt.AllNamed ss')
    (hfloats : ShownApart (Stmt.allFloats ss) (Stmt.allFloats ss'))
    (heq : Stmt.entries ss = Stmt.entries ss') : ss = ss' := by
  cases ss with
  | nil =>
    cases ss' with
    | nil => rfl
    | cons s' ss' => cases heq
  | cons s ss =>
    cases ss' with
    | nil => cases heq
    | cons s' ss' =>
      obtain ⟨hfirst, hrest⟩ := List.cons.inj heq
      rw [Stmt.entry_unique s s' h.1 h'.1 hn.1 hn'.1 hfloats.left hfirst,
        Stmt.entries_unique ss ss' h.2 h'.2 hn.2 hn'.2 hfloats.right hrest]

end

/-- The text of an outline is that of the entries of the program. -/
theorem Node.describe_program {program : Block} (h : Stmt.AllWellFormed false program)
    {limit : Nat} {text : String}
    (htext : (Node.stmt (.block program)).describe limit = .ok text) :
    text = joinWith "\n" ((blockEntry program (Stmt.entries program)).lines 0) := by
  have hlines : (blockEntry program (Stmt.entries program)).lines 0 =
      (Node.stmt (.block program)).outline := by
    rw [Node.outline, Stmt.outline, blockEntry, Entry.lines, Stmt.lines_entries 1 program h]
  rw [hlines]
  unfold Node.describe at htext
  split at htext
  · cases htext
  · split at htext
    · cases htext
    · exact (Except.ok.inj htext).symm

/-- Two parsed programs with the same outline are equal, provided that of their floats those that
are shown alike are equal. -/
theorem outline_identifies {room room' limit limit' : Nat} {source source' : String}
    {log log' : Log} {p q : Block} {text : String}
    (hp : (parseProgram room source log).1 = .ok p)
    (hq : (parseProgram room' source' log').1 = .ok q)
    (hfloats : ∀ x ∈ Stmt.allFloats p, ∀ y ∈ Stmt.allFloats q, floatText x = floatText y → x = y)
    (htext : (Node.stmt (.block p)).describe limit = .ok text)
    (htext' : (Node.stmt (.block q)).describe limit' = .ok text) : p = q := by
  have hwell := wellFormed_of_parseProgram hp
  have hwell' := wellFormed_of_parseProgram hq
  have hnamed := named_of_parseProgram hp
  have hnamed' := named_of_parseProgram hq
  have hlegible := Outline.legible_blockEntry p (Stmt.legible_entries p hwell hnamed)
  have hlegible' := Outline.legible_blockEntry q (Stmt.legible_entries q hwell' hnamed')
  have hsame := (Node.describe_program hwell htext).symm.trans (Node.describe_program hwell' htext')
  have hentry := Entry.text_unique hlegible hlegible' hsame
  exact Stmt.entries_unique p q hwell hwell' hnamed hnamed' hfloats (Entry.node.inj hentry).2

/-- A program with a definition, a float and a text. -/
def denseSource : String := "def f(a,b):\n return -a\nprint 2.5,'it'\n"

/-- The same program with other blanks, brackets and marks. -/
def spacedSource : String := "def f(a, b):\n    return (-a)\n\nprint 2.50, \"it\"\n"

theorem outline_identifies_denseSource :
    ∃ p q text, (parseProgram 200 denseSource ⟨0, #[]⟩).1 = .ok p ∧
      (parseProgram 200 spacedSource ⟨0, #[]⟩).1 = .ok q ∧ Stmt.allFloats p = [2.5] ∧
      (∀ x ∈ Stmt.allFloats p, ∀ y ∈ Stmt.allFloats q, floatText x = floatText y → x = y) ∧
      (Node.stmt (.block p)).describe 1000 = .ok text ∧
      (Node.stmt (.block q)).describe 1000 = .ok text ∧
      p = q := by
  have hread : (match (parseProgram 200 denseSource ⟨0, #[]⟩).1,
        (parseProgram 200 spacedSource ⟨0, #[]⟩).1 with
      | .ok p, .ok q =>
        match (Node.stmt (.block p)).describe 1000, (Node.stmt (.block q)).describe 1000 with
        | .ok text, .ok text' =>
          decide (Stmt.allFloats p = [2.5] ∧ Stmt.allFloats q = [2.5] ∧ text' = text)
        | _, _ => false
      | _, _ => false) = true := by decide +kernel
  split at hread
  · next p q hp hq =>
    split at hread
    · next text text' htext htext' =>
      obtain ⟨hfloats, hfloats', rfl⟩ := of_decide_eq_true hread
      have hsame : ∀ x ∈ Stmt.allFloats p, ∀ y ∈ Stmt.allFloats q,
          floatText x = floatText y → x = y := by
        rw [hfloats, hfloats']
        intro x hx y hy _
        rw [List.mem_singleton.mp hx, List.mem_singleton.mp hy]
      exact ⟨p, q, text', hp, hq, hfloats, hsame, htext, htext',
        outline_identifies hp hq hsame htext htext'⟩
    · cases hread
  · cases hread

end TinyScript
