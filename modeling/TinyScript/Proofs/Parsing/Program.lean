import TinyScript.Parser
import TinyScript.Proofs.Parsing.Stmt

/-!
# Programs are what the grammar derives

A list of tokens that ends with the end of the input is parsed as a program exactly when the tokens
before the end have a lawful derivation that is not nested deeper than the room allows. The program
is then the one that the derivation stands for, and the derivation is unique. Where a derivation is
nested deeper, the parser says so and nothing else.

Two things keep the parser from accepting more. A `return` always needs its line end, also where the
rule for function bodies could do without; and nesting is limited.
-/

namespace TinyScript.Parser

open Grammar

theorem rest_start {us : List Token} {e : Token} (he : e.kind = .eof) (log : Log) :
    (State.start (us ++ [e]) log).rest = us ++ [e] := by
  simp [State.start, State.rest, Cursor.ofTokens, Cursor.terminated, he]

/-- What one round of a program does. -/
theorem fileRound_cases {stmt : Parse Stmt} {s s' : State} {o : Option (Option Stmt)}
    (h : fileRound stmt s = .ok o s') :
    (o = none ∧ s' = s ∧ s.cursor.peek.kind = .eof) ∨
      (o = some none ∧ s' = { s with cursor := s.cursor.next } ∧ s.cursor.peek.kind = .newline) ∨
      ∃ st, o = some (some st) ∧ stmt s = .ok st s' := by
  obtain ⟨b, s₁, h₁, h₂⟩ := ok_of_bind h
  cases h₁
  split at h₂
  · next hc =>
    cases h₂
    exact .inl ⟨rfl, rfl, by simpa using hc⟩
  · obtain ⟨b', s₂, h₃, h₄⟩ := ok_of_bind h₂
    cases h₃
    split at h₄
    · next hc =>
      cases h₄
      exact .inr (.inl ⟨rfl, rfl, by simpa using hc⟩)
    · obtain ⟨st, s₃, h₅, h₆⟩ := ok_of_bind h₄
      cases h₆
      exact .inr (.inr ⟨st, rfl, h₅⟩)

/-- The rounds of a program go on to the end of the input, if there are enough of them. -/
theorem file_of_collectFor {room fuel depth : Nat} {s s' : State} {items : List (Option Stmt)}
    (h : collectFor (fileRound (statement room)) fuel s = .ok items s')
    (hdepth : s.functionDepth = depth)
    (hs : EndsInput s.rest) (hfuel : s.rest.length ≤ fuel) :
    ∃ d : StmtDerivation false .file, s.Steps d.yield s' ∧ d.tree = items.filterMap id ∧
      d.Lawful (decide (0 < depth)) ∧ s'.cursor.peek.kind = .eof := by
  induction fuel generalizing s items with
  | zero =>
    obtain ⟨us, t, hus, -⟩ := hs
    simp [hus] at hfuel
  | succ fuel ih =>
    obtain ⟨o, s₁, h₁, h₂⟩ := ok_of_bind h
    rcases fileRound_cases h₁ with ⟨rfl, rfl, heof⟩ | ⟨rfl, rfl, hnl⟩ | ⟨st, rfl, hst⟩
    · cases h₂
      exact ⟨.fileNil, .refl _, rfl, trivial, heof⟩
    · obtain ⟨more, s₂, h₃, h₄⟩ := ok_of_bind h₂
      cases h₄
      obtain ⟨us, hus⟩ := State.rest_eq_cons hs
      have hstep := State.steps_next hus (by simp [hnl])
      have hlen : ({ s with cursor := s.cursor.next } : State).rest.length ≤ fuel := by
        rw [hstep.rest_eq hus]
        rw [hus, List.length_cons] at hfuel
        omega
      obtain ⟨d, hd, htree, hlawful, heof⟩ := ih h₃ hdepth (hstep.endsInput hs) hlen
      refine ⟨.fileNewline ⟨_, hnl⟩ d, hstep.trans hd, ?_, hlawful, heof⟩
      rw [StmtDerivation.tree, htree]
      rfl
    · obtain ⟨more, s₂, h₃, h₄⟩ := ok_of_bind h₂
      cases h₄
      obtain ⟨_, hstep, ⟨d, rfl, rfl, hd⟩⟩ := accepts_statement room depth s st s₁ hdepth hs hst
      have hlen : s₁.rest.length ≤ fuel := by
        obtain ⟨t, ts, hy, -⟩ := d.statement_head
        have hrest := congrArg List.length hstep.rest
        rw [hy, List.length_append, List.length_cons] at hrest
        omega
      obtain ⟨more, hmore, htree, hlawful, heof⟩ := ih h₃ (hstep.depth.trans hdepth)
        (hstep.endsInput hs) hlen
      refine ⟨.fileStatement d more, hstep.trans hmore, ?_, ⟨hd, hlawful⟩, heof⟩
      rw [StmtDerivation.tree, htree]
      rfl

/-- What is parsed as a file has a derivation, and goes on to an end of the input. -/
theorem file_of_fileInput {room depth : Nat} {s s' : State} {b : Block}
    (h : fileInput (statement room) s = .ok b s') (hdepth : s.functionDepth = depth)
    (hs : EndsInput s.rest) :
    ∃ ts, s.Steps ts s' ∧ StmtRule.file.Derives depth ts b ∧ s'.cursor.peek.kind = .eof := by
  rw [fileInput_eq] at h
  obtain ⟨_, s₀, henter, hcollect⟩ := ok_of_bind h
  obtain ⟨items, s₁, hitems, hpure⟩ := ok_of_bind hcollect
  obtain ⟨fuel, s₂, hpatience, hrounds⟩ := ok_of_bind hitems
  have hsteps : s.Steps [] s₀ := by
    cases henter
    exact .of_log _ _
  have hfuel : s₀.rest.length ≤ fuel ∧ s₂ = s₀ := by
    cases hpatience
    exact ⟨by rw [State.remaining_eq]; exact Nat.le_succ _, rfl⟩
  obtain ⟨hlen, rfl⟩ := hfuel
  obtain ⟨d, hd, htree, hlawful, heof⟩ :=
    file_of_collectFor hrounds (hsteps.depth.trans hdepth) (hsteps.endsInput hs) hlen
  cases hpure
  exact ⟨d.yield, hsteps.trans hd, ⟨d, rfl, htree, hlawful⟩, heof⟩

/-- The first end of the input is where the tokens end. -/
theorem eq_of_append_eof {us vs ws : List Token} {e t : Token} (hus : ∀ u ∈ us, u.kind ≠ .eof)
    (ht : t.kind = .eof) (h : us ++ [e] = vs ++ t :: ws) : vs = us ∧ t = e := by
  rcases List.eq_nil_or_concat ws with rfl | ⟨ws', w, rfl⟩
  · obtain ⟨hvs, hte⟩ := List.append_inj' h rfl
    exact ⟨hvs.symm, (List.cons.inj hte).1.symm⟩
  · rw [List.concat_eq_append, ← List.cons_append, ← List.append_assoc] at h
    have hmem : t ∈ us := by
      rw [(List.append_inj' h rfl).1]
      simp
    exact absurd ht (hus t hmem)

/-- What is parsed as a program has a derivation. -/
theorem derivation_of_program {room : Nat} {us : List Token} {e : Token} {log : Log} {b : Block}
    {s' : State} (he : e.kind = .eof) (hus : ∀ t ∈ us, t.kind ≠ .eof)
    (h : program room (.start (us ++ [e]) log) = .ok b s') :
    ∃ d : StmtDerivation false .file, d.yield = us ∧ d.Lawful false ∧ d.tree = b := by
  have hrest : (State.start (us ++ [e]) log).rest = us ++ [e] := rest_start he log
  have hends : EndsInput (State.start (us ++ [e]) log).rest := ⟨us, e, hrest, he⟩
  obtain ⟨_, hsteps, ⟨d, rfl, htree, hlawful⟩, heof⟩ := file_of_fileInput h rfl hends
  obtain ⟨ws, hws⟩ := State.rest_eq_cons (hsteps.endsInput hends)
  have hsplit : us ++ [e] = d.yield ++ s'.cursor.peek :: ws := by rw [← hrest, hsteps.rest, hws]
  exact ⟨d, (eq_of_append_eof hus heof hsplit).1, hlawful, htree⟩

/-- A program with a derivation is parsed, if it is not nested too deep. -/
theorem reads_program (d : StmtDerivation false .file) {rest : List Token}
    (hrest : StmtRule.file.EndsBefore rest) (hd : d.Lawful false) (room : Nat) :
    Reads (program room) 0 d.yield rest d.tree (d.nesting ≤ room) := by
  rw [program, fileInput_eq]
  refine Reads.enter_bind (Reads.patience_bind (f := fun fuel =>
    collectFor (fileRound (statement room)) fuel >>= fun items => pure (items.filterMap id))
    fun fuel hfuel => ?_)
  obtain ⟨items, htree, hread⟩ := isParsed d room rest fuel hrest hfuel hd
  rw [← htree]
  exact hread.map

/-- The start of a program leaves the parser with one of two answers. -/
theorem program_of_derivation (d : StmtDerivation false .file) {e : Token} (he : e.kind = .eof)
    (hd : d.Lawful false) (log : Log) (room : Nat) :
    (d.nesting ≤ room ∧ ∃ s, program room (.start (d.yield ++ [e]) log) = .ok d.tree s) ∨
      (room < d.nesting ∧ ∃ s, program room (.start (d.yield ++ [e]) log) = .error .tooDeep s) := by
  have hend : StmtRule.file.EndsBefore [e] := he
  have hread := reads_program d hend hd room
  rcases hread _ (rest_start he log) rfl with ⟨hfits, s, hok, -⟩ | ⟨hdeep, s, herror⟩
  · exact .inl ⟨hfits, s, hok⟩
  · exact .inr ⟨Nat.lt_of_not_le hdeep, s, herror⟩

/-- A program is accepted exactly if it has a lawful derivation that fits into the room, and what is
returned is what the derivation stands for. A derivation that does not fit is reported as nested too
deep. There is at most one derivation. -/
theorem program_iff_derivation {us : List Token} {e : Token} (he : e.kind = .eof)
    (hus : ∀ t ∈ us, t.kind ≠ .eof) (log : Log) (room : Nat) :
    (∀ b, (∃ s, program room (.start (us ++ [e]) log) = .ok b s) ↔
      ∃ d : StmtDerivation false .file, d.yield = us ∧ d.Lawful false ∧ d.NamesCalled [e] ∧
        d.nesting ≤ room ∧ d.tree = b) ∧
    (∀ d : StmtDerivation false .file, d.yield = us → d.Lawful false → room < d.nesting →
      ∃ s, program room (.start (us ++ [e]) log) = .error .tooDeep s) ∧
    ∀ d d' : StmtDerivation false .file, d.yield = us → d'.yield = us → d = d' := by
  refine ⟨fun b => ⟨?_, ?_⟩, ?_, ?_⟩
  · rintro ⟨s, hok⟩
    obtain ⟨d, rfl, hlawful, htree⟩ := derivation_of_program he hus hok
    rcases program_of_derivation d he hlawful log room with ⟨hfits, -⟩ | ⟨-, s', herror⟩
    · exact ⟨d, rfl, hlawful, d.namesCalled he, hfits, htree⟩
    · rw [herror] at hok
      cases hok
  · rintro ⟨d, rfl, hlawful, -, hfits, rfl⟩
    rcases program_of_derivation d he hlawful log room with ⟨-, hok⟩ | ⟨hdeep, -⟩
    · exact hok
    · omega
  · rintro d rfl hlawful hdeep
    rcases program_of_derivation d he hlawful log room with ⟨hfits, -⟩ | ⟨-, herror⟩
    · omega
    · exact herror
  · rintro d d' rfl hd'
    have hend : StmtRule.file.EndsBefore [e] := he
    exact (d.unique d' (by rw [hd']) hend hend).1

/-- A token of a given kind. -/
def sample (k : Kind) : TokenOf k := ⟨⟨k, "x", .start⟩, rfl⟩

/-- The expression `x`. -/
def sampleName : ExprDerivation (.one .test) := .ofPrimary (.atom (.name (sample _)))

/-- A block with one statement. -/
def sampleSuite (s : StmtDerivation false .statement) : StmtDerivation false .suite :=
  .suite (sample _) (sample _) s .statementsNil (sample _)

/-- A function that loops over a range, and returns from a branch inside the loop. -/
def sampleProgram : StmtDerivation false .file :=
  .fileNewline (sample _) (.fileStatement
    (.definition (sample _) (sample _) (sample _) (.paramsSome (sample _) .paramNil) (sample _)
      (sample _) (.funcSuite (sample _) (sample _) (.bodyStatement
        (.loop (sample _) (sample _) (sample _) (sample _) (sample _)
          (.list sampleName (.listCons (sample _) sampleName .listNil)) (sample _) (sample _)
          (sampleSuite (.conditional (sample _) sampleName (sample _)
            (sampleSuite (.line (.ret (.returnStmt (sample _) sampleName)) (sample _)))
            (.armsElse (sample _) (sample _)
              (sampleSuite (.line (.print (sample _) (.list sampleName .listNil)) (sample _)))))))
        .bodyNil) (sample _)))
    .fileNil)

theorem program_sampleProgram :
    (∀ t ∈ sampleProgram.yield, t.kind ≠ .eof) ∧
      ∃ s, program 200 (.start (sampleProgram.yield ++ [(sample .eof).val]) ⟨0, #[]⟩) =
        .ok sampleProgram.tree s := by
  have hinner : ∀ t ∈ sampleProgram.yield, t.kind ≠ .eof := by decide
  have hlawful : sampleProgram.Lawful false := by
    simp [sampleProgram, sampleSuite, StmtDerivation.Lawful, StmtDerivation.tree,
      ExprDerivation.tree]
  refine ⟨hinner, ((program_iff_derivation rfl hinner ⟨0, #[]⟩ 200).1 _).mpr ?_⟩
  exact ⟨sampleProgram, rfl, hlawful, sampleProgram.namesCalled rfl, by decide, rfl⟩

/-- A function body in which a `return` without a line end stands before another statement. -/
def bareReturn : StmtDerivation true .file :=
  .fileStatement
    (.definition (sample _) (sample _) (sample _) .paramsNone (sample _) (sample _)
      (.funcSuite (sample _) (sample _)
        (.bodyReturn rfl (.returnStmt (sample _) sampleName)
          (.bodyStatement (.line (.assign (sample _) (sample _) sampleName) (sample _)) .bodyNil))
        (sample _)))
    .fileNil

/-- A name in `n` pairs of parentheses. -/
def nestedName : (n : Nat) → ExprDerivation (.one .atomOrCall)
  | 0 => .atom (.name (sample _))
  | n + 1 => .atom (.paren (sample _) (nestedName n).ofPrimary (sample _))

theorem le_nesting_nestedName (n : Nat) : n ≤ (nestedName n).nesting := by
  induction n with
  | zero => exact Nat.zero_le _
  | succ n ih =>
    simp only [nestedName, ExprDerivation.nesting, ExprDerivation.nesting_ofPrimary]
    omega

theorem kind_of_mem_nestedName {n : Nat} {t : Token} (h : t ∈ (nestedName n).yield) :
    t.kind ≠ .eof := by
  induction n with
  | zero =>
    rw [List.mem_singleton.mp h]
    decide
  | succ n ih =>
    simp only [nestedName, ExprDerivation.yield, ExprDerivation.yield_ofPrimary, List.mem_cons,
      List.mem_append, List.not_mem_nil, or_false] at h
    rcases h with rfl | h | rfl
    · decide
    · exact ih h
    · decide

/-- Printing a name in `n` pairs of parentheses. -/
def nestedPrint (bare : Bool) (n : Nat) : StmtDerivation bare .file :=
  .fileStatement
    (.line (.print (sample _) (.list (nestedName n).ofPrimary .listNil)) (sample _)) .fileNil

theorem yield_nestedPrint (bare : Bool) (n : Nat) :
    (nestedPrint bare n).yield = (nestedPrint false n).yield := rfl

/-- Nesting that exceeds the room is not accepted. -/
theorem program_nestedPrint {room n : Nat} (h : room ≤ n) (log : Log) :
    ∃ s, program room (.start ((nestedPrint false n).yield ++ [(sample .eof).val]) log) =
      .error .tooDeep s := by
  have hname := le_nesting_nestedName n
  rcases program_of_derivation (nestedPrint false n) (e := (sample .eof).val) rfl
    ⟨trivial, trivial⟩ log room with ⟨hfits, -⟩ | ⟨-, herror⟩
  · simp only [nestedPrint, StmtDerivation.nesting, ExprDerivation.nesting,
      ExprDerivation.nesting_ofPrimary] at hfits
    omega
  · exact herror

/-- The rule for function bodies derives a program that is not accepted, and so do the other rules
when they nest deep enough. -/
theorem derivable_not_accepted :
    (bareReturn.Lawful false ∧ bareReturn.NamesCalled [(sample .eof).val] ∧
      (∀ t ∈ bareReturn.yield, t.kind ≠ .eof) ∧
      ∀ b s, program 200 (.start (bareReturn.yield ++ [(sample .eof).val]) ⟨0, #[]⟩) ≠
        .ok b s) ∧
    (nestedPrint true 300).Lawful false ∧ (nestedPrint true 300).NamesCalled [(sample .eof).val] ∧
      (∀ t ∈ (nestedPrint true 300).yield, t.kind ≠ .eof) ∧
      ∀ b s, program 200
        (.start ((nestedPrint true 300).yield ++ [(sample .eof).val]) ⟨0, #[]⟩) ≠ .ok b s := by
  refine ⟨⟨?_, bareReturn.namesCalled rfl, by decide, ?_⟩, ⟨trivial, trivial⟩,
    StmtDerivation.namesCalled _ rfl, ?_, ?_⟩
  · simp [bareReturn, StmtDerivation.Lawful, StmtDerivation.tree]
  · have hreject : (match program 200
        (.start (bareReturn.yield ++ [(sample .eof).val]) ⟨0, #[]⟩) with
        | .ok .. => false
        | .error .. => true) = true := by decide +kernel
    intro b s hok
    rw [hok] at hreject
    cases hreject
  · intro t ht
    simp only [nestedPrint, StmtDerivation.yield, ExprDerivation.yield, List.mem_append,
      List.mem_cons, ExprDerivation.yield_ofPrimary, List.append_nil, List.not_mem_nil,
      or_false] at ht
    rcases ht with (rfl | ht) | rfl
    · decide
    · exact kind_of_mem_nestedName ht
    · decide
  · intro b s hok
    obtain ⟨s', herror⟩ := program_nestedPrint (by decide : 200 ≤ 300) ⟨0, #[]⟩
    rw [yield_nestedPrint, herror] at hok
    cases hok

end TinyScript.Parser
