import TinyScript.Proofs.Parsing.Program
import TinyScript.Proofs.Parsing.Progress

/-!
# What a production does with its tokens

Any production may be called on any list of tokens, at any place before the end and at any depth of
functions. It ends: its repetitions end by themselves (`LoopsEnd`), and it cannot be nested deeper
than there are tokens. If it gives a result, the tokens it has taken are a phrase of its rule, which
the result stands for, and the token after them is still there. If it fails, it has read the end of
the input at most once. In both cases the depth is what it was.
-/

namespace TinyScript

open TinyScript.Grammar TinyScript.Parser

namespace Production

/-- Files may be empty. -/
def isFile (p : Production) : Bool := p = fileInput || p = program

/-- The kinds of tokens with which the phrases of some statement productions begin. -/
def starts? : Production → Option (List Kind)
  | simpleStmt => some [.keyword .printWord, .keyword .returnWord, .name]
  | printStmt => some [.keyword .printWord]
  | returnStmt => some [.keyword .returnWord]
  | compoundStmt => some [.keyword .forWord, .keyword .ifWord, .keyword .defWord]
  | ifStmt => some [.keyword .ifWord]
  | forStmt => some [.keyword .forWord]
  | funcDef => some [.keyword .defWord]
  | _ => none

/-- The tokens are derived by the rule of the production, at the given depth of functions, and stand
for the phrase. An assignment and a call begin with a name that has been read before. The production
of `return` does not ask whether it stands in a function, and the body of a function is one level
deeper than the function. -/
def Derives (p : Production) (name : String) (depth : Nat) (ts : List Token) :
    Phrase → Prop
  | .block b =>
    match p with
    | fileInput | program => StmtRule.file.Derives depth ts b
    | suite => StmtRule.suite.Derives depth ts b
    | funcSuite => StmtRule.funcSuite.Derives (depth + 1) ts b
    | _ => False
  | .stmt s =>
    match p with
    | statement | simpleStmt | compoundStmt | ifStmt | forStmt | funcDef =>
      StmtRule.statement.Derives depth ts s
    | printStmt => StmtRule.simple.Derives depth ts s
    | returnStmt => StmtRule.simple.Derives (depth + 1) ts s
    | assignStmt => ∀ x : TokenOf .name, x.val.text = name →
        StmtRule.simple.Derives depth (x.val :: ts) s
    | _ => False
  | .expr e =>
    match p with
    | test => (ExprRule.one .test).Derives ts e
    | orTest => (ExprRule.one (.chain .or)).Derives ts e
    | andTest => (ExprRule.one (.chain .and)).Derives ts e
    | notTest => (ExprRule.one .notTest).Derives ts e
    | comparison => (ExprRule.one (.chain .comparison)).Derives ts e
    | arithExpr => (ExprRule.one (.chain .arith)).Derives ts e
    | term => (ExprRule.one (.chain .term)).Derives ts e
    | factor => (ExprRule.one .factor).Derives ts e
    | atomOrCall => (ExprRule.one .atomOrCall).Derives ts e
    | atom => (ExprRule.one .atom).Derives ts e
    | call => ∀ f : TokenOf .name, f.val.text = name →
        (ExprRule.one .atomOrCall).Derives (f.val :: ts) e
    | _ => False
  | .exprs es => p = testList ∧ ExprRule.testList.Derives ts es

end Production

namespace Parser

theorem orderly_map {α β : Type} {p : Parse α} {g : α → β} {c k : Nat}
    (h : Orderly p (fun _ => c) k) : Orderly (g <$> p) (fun _ => c) k := by
  rw [map_eq_pure_bind]
  exact h.bind fun _ => orderly_pure (Nat.sub_self c)

/-- Every production is orderly, and takes a token if it is not the one of files. -/
theorem orderly_production (room : Nat) {p : Production} (hp : p ≠ .expression) (name : String) :
    Orderly (p.parse room name) (fun _ => if p.isFile then 0 else 1) (room - 2) := by
  have hexpr := advances_test room
  have hstmt := advances_statement room
  have hexpr' := hexpr.mono (Nat.sub_le (room - 2) 1)
  have hstmt' := hstmt.mono (Nat.sub_le (room - 2) 1)
  have hroom : room - 2 ≤ room := Nat.sub_le room 2
  have hinner : room - 2 ≤ room - 1 := by omega
  have hnested : room - 2 ≤ room - 2 + 1 := Nat.le_succ _
  cases p <;> apply orderly_map
  case fileInput | program => exact orderly_fileInput hstmt
  case statement => exact hstmt
  case simpleStmt => exact advances_simpleStmt hexpr'
  case printStmt => exact advances_printStmt hexpr'
  case assignStmt => exact advances_assignStmt hexpr' name
  case returnStmt => exact advances_returnStmt hexpr'
  case compoundStmt => exact advances_compoundStmt hexpr' hstmt'
  case ifStmt => exact advances_ifStmt hexpr' hstmt'
  case forStmt => exact advances_forStmt hexpr' hstmt'
  case funcDef => exact advances_funcDef hstmt'
  case suite => exact advances_suite hstmt'
  case funcSuite => exact advances_funcSuite hstmt'
  case testList => exact advances_testList hexpr
  case test => exact hexpr
  case orTest => exact advances_orTest hexpr room hinner hnested
  case andTest => exact advances_andTest hexpr room hinner hnested
  case notTest => exact advances_notTest hexpr room hinner hnested
  case comparison => exact advances_comparison hexpr room hroom hnested
  case arithExpr => exact advances_arithExpr hexpr room hroom hnested
  case term => exact advances_term hexpr room hroom hnested
  case factor => exact advances_factor hexpr room hroom hnested
  case atomOrCall => exact advances_atomOrCall hexpr'
  case call => exact advances_call hexpr' name
  case atom => exact advances_atom hexpr'
  case expression => exact absurd rfl hp

theorem accepts_map {α β : Type} {p : Parse α} {g : α → β} {depth : Nat}
    {Q : List Token → β → Prop} (h : Accepts p depth fun ts a => Q ts (g a)) :
    Accepts (g <$> p) depth Q := by
  rw [map_eq_pure_bind]
  refine h.bind fun us a hq => accepts_pure ?_
  rwa [List.append_nil]

/-- Whatever is known of a run for each index is known of the same tokens. -/
theorem accepts_forall {α ι : Type} (i₀ : ι) {p : Parse α} {depth : Nat}
    {Q : ι → List Token → α → Prop} (h : ∀ i, Accepts p depth (Q i)) :
    Accepts p depth fun ts a => ∀ i, Q i ts a := by
  intro s a s' hd hs hp
  obtain ⟨ts, hsteps, -⟩ := h i₀ s a s' hd hs hp
  refine ⟨ts, hsteps, fun i => ?_⟩
  obtain ⟨us, hsteps', hq⟩ := h i s a s' hd hs hp
  rwa [List.append_cancel_right (hsteps.rest.symm.trans hsteps'.rest)]

/-- A name token with a given text. -/
abbrev Named (name : String) : Type := {x : TokenOf .name // x.val.text = name}

/-- The text of a name token may be any. -/
def named (name : String) : Named name := ⟨⟨⟨.name, name, .start⟩, rfl⟩, rfl⟩

/-- What a production gives stands for the tokens it has taken. -/
theorem accepts_production (room : Nat) {p : Production} (hp : p ≠ .expression) (name : String)
    (depth : Nat) : Accepts (p.parse room name) depth (p.Derives name depth) := by
  have hexpr : Accepts (test room) depth _ := accepts_test room
  have hstmt := accepts_statement room
  have hterm : Accepts (tier (.chain .term) (test room) room) depth _ :=
    accepts_chain (accepts_factor hexpr room)
  have hand : Accepts (tier (.chain .and) (test room) room) depth _ :=
    accepts_chain (accepts_notTest hexpr room)
  cases p <;> apply accepts_map
  case fileInput | program =>
    intro s b s' hd hs h
    obtain ⟨ts, hsteps, hfile, -⟩ := file_of_fileInput h hd hs
    exact ⟨ts, hsteps, hfile⟩
  case statement => exact hstmt depth
  case simpleStmt => exact accepts_simpleStmt hexpr
  case printStmt => exact accepts_printStmt hexpr
  case assignStmt =>
    have hnamed : ∀ x : Named name, Accepts (assignStmt (test room) name) depth fun ts st =>
        StmtRule.simple.Derives depth (x.1.val :: ts) st := by
      rintro ⟨x, rfl⟩
      exact accepts_assignStmt hexpr x
    exact (accepts_forall (named name) hnamed).imp fun _ _ h x hx => h ⟨x, hx⟩
  case returnStmt => exact accepts_returnStmt hexpr (Nat.succ_ne_zero depth)
  case compoundStmt => exact accepts_compoundStmt hexpr (hstmt depth) (hstmt (depth + 1))
  case ifStmt => exact accepts_ifStmt hexpr (hstmt depth)
  case forStmt => exact accepts_forStmt hexpr (hstmt depth)
  case funcDef => exact accepts_funcDef (hstmt (depth + 1))
  case suite => exact accepts_suite (hstmt depth)
  case funcSuite => exact accepts_funcSuite (hstmt (depth + 1))
  case testList => exact (accepts_testList hexpr).imp fun _ _ h => ⟨rfl, h⟩
  case test => exact hexpr
  case orTest => exact accepts_chain (l := .or) hand
  case andTest => exact hand
  case notTest => exact accepts_notTest hexpr room
  case comparison => exact accepts_comparison hexpr room
  case arithExpr => exact accepts_chain (l := .arith) hterm
  case term => exact hterm
  case factor => exact accepts_factor hexpr room
  case atomOrCall => exact accepts_atomOrCall hexpr
  case call =>
    have hnamed : ∀ f : Named name, Accepts (call (test room) name) depth fun ts e =>
        (ExprRule.one .atomOrCall).Derives (f.1.val :: ts) e := by
      rintro ⟨f, rfl⟩
      exact accepts_call hexpr f
    exact (accepts_forall (named name) hnamed).imp fun _ _ h f hf => h ⟨f, hf⟩
  case atom => exact accepts_atom hexpr
  case expression => exact absurd rfl hp

section Starts

variable {α β : Type} {scope scope' : Production} {k : Kind} {s s' : State}

theorem ok_of_map {p : Parse α} {g : α → β} {b : β} (h : (g <$> p) s = .ok b s') :
    ∃ a, p s = .ok a s' ∧ g a = b := by
  rw [map_eq_pure_bind] at h
  obtain ⟨a, s₁, hp, hpure⟩ := ok_of_bind h
  cases hpure
  exact ⟨a, hp, rfl⟩

theorem ok_of_enter_bind {p : Parse α} {a : α} (h : (enter scope >>= fun _ => p) s = .ok a s') :
    ∃ s₁, s₁.cursor = s.cursor ∧ p s₁ = .ok a s' := by
  obtain ⟨_, s₁, henter, hp⟩ := ok_of_bind h
  refine ⟨s₁, ?_, hp⟩
  cases henter
  rfl

theorem kind_of_expect {f : Token → Parse β} {b : β} (h : (expect scope k >>= f) s = .ok b s') :
    s.cursor.peek.kind = k := by
  obtain ⟨t, s₁, hexpect, -⟩ := ok_of_bind h
  obtain ⟨u, s₂, hnext, hcheck⟩ := ok_of_bind hexpect
  cases hnext
  split at hcheck
  · assumption
  · cases hcheck

theorem kind_of_simpleBody {expr : Parse Expr} {st : Stmt} (h : simpleBody expr s = .ok st s') :
    s.cursor.peek.kind ∈ [.keyword .printWord, .keyword .returnWord, .name] := by
  obtain ⟨t, s₁, hpeek, hbody⟩ := ok_of_bind h
  have ht : s.cursor.peek = t := by
    cases hpeek
    rfl
  rw [ht]
  generalize t.kind = kind at hbody ⊢
  split at hbody
  · simp
  · simp
  · simp
  · cases hbody

theorem kind_of_compoundStmt {expr : Parse Expr} {stmt : Parse Stmt} {st : Stmt}
    (h : compoundStmt expr stmt s = .ok st s') :
    s.cursor.peek.kind ∈ [.keyword .forWord, .keyword .ifWord, .keyword .defWord] := by
  obtain ⟨s₀, hcursor, hrest⟩ := ok_of_enter_bind h
  obtain ⟨t, s₁, hpeek, hbody⟩ := ok_of_bind hrest
  have ht : s.cursor.peek = t := by
    cases hpeek
    rw [hcursor]
  rw [ht]
  generalize t.kind = kind at hbody ⊢
  split at hbody
  · simp
  · simp
  · simp
  · cases hbody

/-- A production gives a result only where the next token can begin one of its phrases. -/
theorem kind_of_production {room : Nat} {p : Production} {name : String} {phrase : Phrase}
    {ks : List Kind} (h : p.parse room name s = .ok phrase s') (hks : p.starts? = some ks) :
    s.cursor.peek.kind ∈ ks := by
  cases p
  case simpleStmt =>
    cases hks
    obtain ⟨st, hst, -⟩ := ok_of_map h
    obtain ⟨s₁, hcursor, hrun⟩ := ok_of_enter_bind hst
    obtain ⟨_, _, hbody, -⟩ := ok_of_bind hrun
    rw [← hcursor]
    exact kind_of_simpleBody hbody
  case compoundStmt =>
    cases hks
    obtain ⟨st, hst, -⟩ := ok_of_map h
    exact kind_of_compoundStmt hst
  case printStmt | returnStmt | ifStmt | forStmt | funcDef =>
    cases hks
    obtain ⟨st, hst, -⟩ := ok_of_map h
    obtain ⟨s₁, hcursor, hrun⟩ := ok_of_enter_bind hst
    rw [← hcursor]
    exact List.mem_singleton.mpr (kind_of_expect hrun)
  all_goals cases hks

/-- A file goes on to an end of the input. -/
theorem eof_of_production {room : Nat} {p : Production} {name : String} {phrase : Phrase}
    (h : p.parse room name s = .ok phrase s') (hs : EndsInput s.rest) (hp : p.isFile = true) :
    s'.cursor.peek.kind = .eof := by
  cases p
  case fileInput | program =>
    obtain ⟨b, hb, -⟩ := ok_of_map h
    obtain ⟨_, -, -, heof⟩ := file_of_fileInput hb rfl hs
    exact heof
  all_goals cases hp

end Starts

/-- A call of a production from `s` keeps to its tokens. In all cases the depth of functions is
what it was. -/
structure Disciplined (room : Nat) (p : Production) (name : String) (s : State) : Prop where
  /-- The tokens that were taken are a phrase, and the token after it has not been taken. Only files
  may be empty, and they go on to an end of the input. -/
  returns : ∀ phrase s', p.parse room name s = .ok phrase s' → ∃ ts following more,
    s.Steps ts s' ∧ s'.rest = following :: more ∧
    p.Derives name s.functionDepth ts phrase ∧
    (∀ ks, p.starts? = some ks → ∃ t us, ts = t :: us ∧ t.kind ∈ ks) ∧
    (if p.isFile then following.kind = .eof else ts ≠ [])
  /-- The end of the input has been read at most once. -/
  fails : ∀ e s', p.parse room name s = .error e s' → ∃ ts,
    s.Reaches ts s' ∧ ts.countP (·.kind = .eof) ≤ 1
  /-- Nesting is limited by the tokens, so that with enough room it is not what stops the call. -/
  fits : ∀ s', p.parse room name s = .error .tooDeep s' → room < s.rest.length + 2

/-- The repetitions of the grammar, begun at `s`, end as they would without a bound. -/
structure LoopsEnd (s : State) : Prop where
  chain : ∀ (l : Level) inner room left,
    Rounds (chainRound l (tier l.operand (test inner) room)) left s
      (iterate (chainRound l (tier l.operand (test inner) room)) left s)
  list : ∀ room, Rounds (gather (listRound (test room))) [] s (collect (listRound (test room)) s)
  params : ∀ earlier, Rounds paramRound earlier s (iterate paramRound earlier s)
  block : ∀ room,
    Rounds (gather (blockRound (statement room))) [] s (collect (blockRound (statement room)) s)
  elifs : ∀ room, Rounds (gather (elifRound (test room) (statement room))) [] s
    (collect (elifRound (test room) (statement room)) s)
  file : ∀ room,
    Rounds (gather (fileRound (statement room))) [] s (collect (fileRound (statement room)) s)

theorem advances_tier (t : Tier) (inner room : Nat) : Advances (tier t (test inner) room) 0 := by
  have hexpr : Advances (test inner) 0 := (advances_test inner).mono (Nat.zero_le _)
  have hzero : ∀ n, 0 ≤ n := Nat.zero_le
  cases t with
  | test => exact hexpr
  | chain l =>
    cases l with
    | or => exact advances_orTest hexpr room (hzero _) (hzero _)
    | and => exact advances_andTest hexpr room (hzero _) (hzero _)
    | comparison => exact advances_comparison hexpr room (hzero _) (hzero _)
    | arith => exact advances_arithExpr hexpr room (hzero _) (hzero _)
    | term => exact advances_term hexpr room (hzero _) (hzero _)
  | notTest => exact advances_notTest hexpr room (hzero _) (hzero _)
  | factor => exact advances_factor hexpr room (hzero _) (hzero _)
  | atomOrCall => exact advances_atomOrCall hexpr
  | atom => exact advances_atom hexpr

theorem loopsEnd_of_endsInput {s : State} (hs : EndsInput s.rest) : LoopsEnd s where
  chain l inner room left :=
    rounds_iterate (k := 0) (orderly_chainRound l (advances_tier l.operand inner room)) left hs
  list room := rounds_collect (k := 0) (orderly_listRound (advances_tier .test room 0)) hs
  params earlier := rounds_iterate (k := 0) orderly_paramRound earlier hs
  block room := rounds_collect (orderly_blockRound (advances_statement room)) hs
  elifs room :=
    have hstmt := (advances_statement room).mono (Nat.zero_le _)
    rounds_collect (k := 0) (orderly_elifRound (advances_tier .test room 0) hstmt) hs
  file room := rounds_collect (orderly_fileRound (advances_statement room)) hs

theorem disciplined_of_endsInput {s : State} (hs : EndsInput s.rest) (room : Nat) {p : Production}
    (hp : p ≠ .expression) (name : String) : Disciplined room p name s where
  returns := by
    intro phrase s' h
    have hrun := orderly_production room hp name s hs
    rw [h] at hrun
    cases hrun with
    | @ok _ _ ts hsteps hleast =>
      obtain ⟨us, hsteps', hderives⟩ := accepts_production room hp name _ s phrase s' rfl hs h
      obtain rfl : ts = us := List.append_cancel_right (hsteps.rest.symm.trans hsteps'.rest)
      obtain ⟨more, hmore⟩ := State.rest_eq_cons (hsteps.endsInput hs)
      refine ⟨ts, s'.cursor.peek, more, hsteps, hmore, hderives, fun ks hks => ?_, ?_⟩
      · have hfile : p.isFile = false := by cases p <;> first | rfl | cases hks
        rw [hfile] at hleast
        obtain ⟨t, us, rfl⟩ := List.exists_cons_of_length_pos hleast
        refine ⟨t, us, rfl, ?_⟩
        rw [← State.peek_of_rest hsteps.rest]
        exact kind_of_production h hks
      · by_cases hfile : p.isFile = true
        · rw [if_pos hfile]
          exact eof_of_production h hs hfile
        · rw [if_neg hfile] at hleast ⊢
          exact List.ne_nil_of_length_pos hleast
  fails := by
    intro e s' h
    have hrun := orderly_production room hp name s hs
    rw [h] at hrun
    cases hrun with
    | error hreaches _ => exact ⟨_, hreaches, hreaches.countP_le_one⟩
  fits := by
    intro s' h
    have hrun := orderly_production room hp name s hs
    rw [h] at hrun
    cases hrun with
    | error _ hroom =>
      have := hroom rfl
      omega

/-- Any list of tokens ends the input, where it does not do so itself, and there is an end of the
input behind every place in it. -/
theorem endsInput_of_pos {s : State} {tokens : List Token}
    (htokens : s.cursor.tokens = (Cursor.ofTokens tokens).tokens)
    (hpos : s.cursor.pos < s.cursor.tokens.size) : EndsInput s.rest := by
  obtain ⟨us, t, hts, ht⟩ := endsInput_terminated tokens
  have hlist : s.cursor.tokens.toList = us ++ [t] := by
    rw [htokens]
    exact hts
  rw [← Array.length_toList, hlist, List.length_append, List.length_singleton] at hpos
  refine ⟨us.drop s.cursor.pos, t, ?_, ht⟩
  rw [State.rest, hlist, List.drop_append_of_le_length (Nat.le_of_lt_succ hpos)]

end Parser

/-- Every production, called at any place of any list of tokens and at any depth of functions, ends
and keeps to its tokens. The one entry point that takes the end of the input is no production. -/
theorem production_disciplined (tokens : List Token) {s : State}
    (htokens : s.cursor.tokens = (Cursor.ofTokens tokens).tokens)
    (hpos : s.cursor.pos < s.cursor.tokens.size) {p : Production} (hp : p ≠ .expression)
    (name : String) :
    LoopsEnd s ∧ ∀ room, Disciplined room p name s := by
  have hs := endsInput_of_pos htokens hpos
  refine ⟨loopsEnd_of_endsInput hs, fun room => ?_⟩
  exact disciplined_of_endsInput hs room hp name

/-- Tokens with an end of the input in the middle and none at the end. -/
def brokenTokens : List Token :=
  [⟨.name, "x", ⟨1, 1⟩⟩, ⟨.symbol .assign, "=", ⟨1, 3⟩⟩, ⟨.number, "1", ⟨1, 5⟩⟩, ⟨.eof, "", ⟨1, 6⟩⟩,
    ⟨.indent, "", ⟨2, 1⟩⟩]

/-- Some place in these tokens, inside two functions. -/
def brokenState (pos : Nat) : State := ⟨{ Cursor.ofTokens brokenTokens with pos }, 2, ⟨4, #[]⟩⟩

/-- Whether the production gives a result there. -/
def readsAt (p : Production) (name : String) (pos : Nat) : Bool :=
  match p.parse 200 name (brokenState pos) with
  | .ok _ _ => true
  | .error _ _ => false

/-- The rest of the assignment is read up to the first end of the input; the whole statement fails
there, because it lacks its line end. -/
theorem brokenTokens_disciplined :
    (∃ phrase s' ts following more,
      Production.assignStmt.parse 200 "x" (brokenState 1) = .ok phrase s' ∧
      (brokenState 1).Steps ts s' ∧ s'.rest = following :: more ∧
      Production.assignStmt.Derives "x" 2 ts phrase) ∧
    ∃ e s' ts, Production.simpleStmt.parse 200 "" (brokenState 0) = .error e s' ∧
      (brokenState 0).Reaches ts s' ∧ ts.countP (·.kind = .eof) ≤ 1 := by
  have hreads : readsAt .assignStmt "x" 1 = true := by decide +kernel
  have hstops : readsAt .simpleStmt "" 0 = false := by decide +kernel
  obtain ⟨-, hassigned⟩ := production_disciplined brokenTokens
    (s := brokenState 1) rfl (by decide) (p := .assignStmt) (by decide) "x"
  obtain ⟨-, hsimpler⟩ := production_disciplined brokenTokens
    (s := brokenState 0) rfl (by decide) (p := .simpleStmt) (by decide) ""
  unfold readsAt at hreads hstops
  constructor
  · split at hreads
    · next phrase s' hrun =>
      obtain ⟨ts, following, more, hsteps, hrest, hderives, -⟩ :=
        (hassigned 200).returns phrase s' hrun
      exact ⟨phrase, s', ts, following, more, hrun, hsteps, hrest, hderives⟩
    · cases hreads
  · split at hstops
    · cases hstops
    · next e s' hrun =>
      obtain ⟨ts, hreaches, hcount⟩ := (hsimpler 200).fails e s' hrun
      exact ⟨e, s', ts, hrun, hreaches, hcount⟩

end TinyScript
