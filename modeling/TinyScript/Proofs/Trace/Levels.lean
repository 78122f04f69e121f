import TinyScript.Proofs.Eval.Concat
import TinyScript.Proofs.Parsing.Law

/-!
# Levels of detail

No step of parsing or running looks at the log. So a run can be set beside another one that differs
from it in its log only: both go the same way, and any relation between the logs that is kept by
offering both the same message holds at the end as well. Two such relations are used. A log of a
lower level has the messages of one of a higher level but for those that are too detailed for it
(`Log.Coarser`), and about an environment that does not report at all nothing needs to be known.

The main statement is `runProgram_trace_invisible`.
-/

namespace TinyScript

/-- What a log of level `m` has of one of a higher level `n`. -/
structure Log.Coarser (m n : Int) (coarse fine : Log) : Prop where
  low : coarse.level = m
  high : fine.level = n
  entries : coarse.entries.toList = fine.entries.toList.filter (·.level ≤ m)

/-- The relation is kept when both logs are offered the same message. -/
def Log.Kept (Q : Log → Log → Prop) : Prop :=
  ∀ {l l' : Log} (level : Int) (text : Thunk String), Q l l' →
    Q (l.note level text) (l'.note level text)

theorem Log.coarser_start (m n : Int) : Log.Coarser m n ⟨m, #[]⟩ ⟨n, #[]⟩ := ⟨rfl, rfl, rfl⟩

theorem Log.kept_coarser {m n : Int} (hmn : m ≤ n) : Log.Kept (Log.Coarser m n) := by
  rintro coarse fine level text ⟨rfl, rfl, hentries⟩
  refine ⟨coarse.level_note level text, fine.level_note level text, ?_⟩
  by_cases hcoarse : level ≤ coarse.level
  · -- Both take the message.
    rw [Log.note_of_le hcoarse, Log.note_of_le (Int.le_trans hcoarse hmn)]
    simp [hentries, hcoarse]
  · rw [Log.note_of_lt (Int.not_le.mp hcoarse)]
    by_cases hfine : level ≤ fine.level
    · rw [Log.note_of_le hfine]
      simp [hentries, hcoarse]
    · rw [Log.note_of_lt (Int.not_le.mp hfine)]
      exact hentries

namespace Parser

/-- Two states that differ in their logs only. -/
structure State.Beside (Q : Log → Log → Prop) (s s' : State) : Prop where
  cursor : s'.cursor = s.cursor
  depth : s'.functionDepth = s.functionDepth
  log : Q s.log s'.log

/-- Two runs of a step end in the same way, and in states that differ in their logs only. -/
inductive Abreast {α : Type} (Q : Log → Log → Prop) :
    EStateM.Result Failure State α → EStateM.Result Failure State α → Prop where
  | ok {a : α} {s s' : State} (h : s.Beside Q s') : Abreast Q (.ok a s) (.ok a s')
  | error {e : Failure} {s s' : State} (h : s.Beside Q s') : Abreast Q (.error e s) (.error e s')

/-- The step goes the same way whatever the log is. -/
def Blind (Q : Log → Log → Prop) {α : Type} (p : Parse α) : Prop :=
  ∀ s s', s.Beside Q s' → Abreast Q (p s) (p s')

section Blind

variable {Q : Log → Log → Prop} {α β : Type} {p : Parse α} {f : α → Parse β}

theorem Blind.bind (h : Blind Q p) (hf : ∀ a, Blind Q (f a)) : Blind Q (p >>= f) := by
  intro s s' hs
  have hp := h s s' hs
  generalize hr : p s = r at hp
  generalize hr' : p s' = r' at hp
  cases hp with
  | ok hv =>
    rw [bind_of_ok hr, bind_of_ok hr']
    exact hf _ _ _ hv
  | error hv =>
    rw [bind_of_error hr, bind_of_error hr']
    exact .error hv

/-- A step that looks at the cursor only, and moves it. -/
theorem blind_cursor (look : Cursor → α) (move : Cursor → Cursor) :
    Blind Q fun s => .ok (look s.cursor) { s with cursor := move s.cursor } := by
  intro s s' hs
  dsimp only
  rw [hs.cursor]
  exact .ok ⟨rfl, hs.depth, hs.log⟩

theorem Blind.inFunction (h : Blind Q p) : Blind Q (inFunction p) := by
  intro s s' hs
  have hp := h { s with functionDepth := s.functionDepth + 1 }
    { s' with functionDepth := s'.functionDepth + 1 } ⟨hs.cursor, congrArg (· + 1) hs.depth, hs.log⟩
  unfold Parser.inFunction
  generalize p { s with functionDepth := s.functionDepth + 1 } = r at hp
  generalize p { s' with functionDepth := s'.functionDepth + 1 } = r' at hp
  cases hp with
  | ok hv => exact .ok ⟨hv.cursor, congrArg (· - 1) hv.depth, hv.log⟩
  | error hv => exact .error ⟨hv.cursor, congrArg (· - 1) hv.depth, hv.log⟩

theorem law_blind (hQ : Log.Kept Q) : Law (fun _ => True) (Blind Q) where
  pure a _ _ hs := .ok hs
  bind hp hf := hp.bind hf
  peek_bind hf := (blind_cursor Cursor.peek id).bind fun t => hf t trivial
  next_bind hf := (blind_cursor Cursor.peek Cursor.next).bind fun t => hf t trivial
  looksAt kinds := blind_cursor (fun c => kinds.contains c.peek.kind) id
  enter p s s' hs := .ok ⟨hs.cursor, hs.depth, hQ _ _ hs.log⟩
  patience := blind_cursor (fun c => c.remaining + 1) id
  depth {_ p q} hp hq s s' hs := by
    show Abreast Q ((if s.functionDepth = 0 then p else q) s)
      ((if s'.functionDepth = 0 then p else q) s')
    rw [hs.depth]
    split
    · exact hp s s' hs
    · exact hq s s' hs
  inFunction hp := hp.inFunction
  reject scope cause t s s' hs := by
    unfold reject
    rw [hs.cursor]
    exact .error hs
  tooDeep _ _ hs := .error hs
  number _ _ _ _ _ hs := .error hs
  float _ _ _ _ _ hs := .error hs

end Blind

/-- Parsing from two logs gives the same result, and logs that are still related. -/
theorem parseText_blind {Q : Log → Log → Prop} {α : Type} {p : Parse α} (hp : Blind Q p)
    {log log' : Log} (hlog : Q log log') (scope : Production) (source : String) :
    (parseText scope p source log').1 = (parseText scope p source log).1 ∧
      Q (parseText scope p source log).2 (parseText scope p source log').2 := by
  unfold parseText
  cases tokenize source with
  | error e => exact ⟨rfl, hlog⟩
  | ok ts =>
    have hrun := hp (.start ts log) (.start ts log') ⟨rfl, rfl, hlog⟩
    dsimp only
    generalize p (.start ts log) = r at hrun
    generalize p (.start ts log') = r' at hrun
    cases hrun with
    | ok h => exact ⟨rfl, h.log⟩
    | @error e s s' h =>
      refine ⟨?_, h.log⟩
      cases e with
      | rejected e | unreadable e => rfl
      | tooDeep => simp only [Failure.parseError, h.cursor]

end Parser

theorem parseProgram_blind {Q : Log → Log → Prop} (hQ : Log.Kept Q) {log log' : Log}
    (hlog : Q log log') (room : Nat) (source : String) :
    (parseProgram room source log').1 = (parseProgram room source log).1 ∧
      Q (parseProgram room source log).2 (parseProgram room source log').2 :=
  Parser.parseText_blind ((Parser.law_blind hQ).program _) hlog .program source

open Exec (Parallel)

/-- A relation between worlds that the same step keeps in both, and that concerns their logs through
`Q` only. -/
structure World.Tracing (Q : Log → Log → Prop) (R : World → World → Prop) : Prop where
  lockstep : Lockstep R
  kept : Log.Kept Q
  log {w w' : World} : R w w' → Q w.log w'.log
  set {w w' : World} {l l' : Log} : R w w' → Q l l' → R { w with log := l } { w' with log := l' }

section Tracing

variable {Q : Log → Log → Prop} {R : World → World → Prop} (h : World.Tracing Q R)
include h

theorem World.Tracing.note {w w' : World} (hw : R w w') (level : Int) (text : Thunk String) :
    R { w with log := w.log.note level text } { w' with log := w'.log.note level text } :=
  h.set hw (h.kept level text (h.log hw))

theorem Interpreter.parallel_run (g : Grant) (program : Block) :
    Parallel R (Interpreter.run g program) := by
  have hbody := (Stmt.parallel_all h.lockstep g program).reportDepth "Interpreter.run"
  have hnote : Parallel R (Exec.note 1
      ("run: " ++ program.length.repr ++ " top-level statements")) :=
    fun _ _ hw => .ok (h.note hw _ _)
  exact hnote.bind fun _ => hbody.ensuring fun _ _ hw => h.note hw _ _

/-- A text goes the same way in related worlds. -/
theorem runProgram_parallel {w w' : World} (hw : R w w') (l : Limits) (source : String) :
    (runProgram l source w').1 = (runProgram l source w).1 ∧
      R (runProgram l source w).2 (runProgram l source w').2 := by
  obtain ⟨hresult, hlog⟩ := parseProgram_blind h.kept (h.log hw) l.nesting source
  unfold runProgram
  generalize parseProgram l.nesting source w.log = parsed at hresult hlog
  generalize parseProgram l.nesting source w'.log = parsed' at hresult hlog
  obtain ⟨result, log⟩ := parsed
  obtain ⟨result', log'⟩ := parsed'
  obtain rfl : result' = result := hresult
  have hstart := h.set hw hlog
  cases result' with
  | error e => exact ⟨rfl, hstart⟩
  | ok program =>
    have hrun := Interpreter.parallel_run h l.grant program _ _ hstart
    dsimp only at hrun ⊢
    generalize Interpreter.run l.grant program { w with log } = r at hrun
    generalize Interpreter.run l.grant program { w' with log := log' } = r' at hrun
    cases hrun with
    | ok hv => exact ⟨rfl, hv⟩
    | error hv => exact ⟨rfl, hv⟩

end Tracing

/-- The worlds differ in their logs only, and the first log is of a lower level. -/
structure World.Coarser (m n : Int) (coarse fine : World) : Prop extends coarse.Agree fine where
  traced : fine.traced = coarse.traced
  log : coarse.log.Coarser m n fine.log

theorem World.lockstep_coarser {m n : Int} (hmn : m ≤ n) : Lockstep (World.Coarser m n) where
  env h := h.env
  change env h := ⟨⟨rfl, h.output⟩, h.traced, h.log⟩
  print text h := ⟨⟨h.env, congrArg (· ++ text) h.output⟩, h.traced, h.log⟩
  trace {w w'} level text h := by
    by_cases htraced : w.traced = true
    · rw [if_pos htraced, if_pos (h.traced.trans htraced)]
      exact ⟨⟨h.env, h.output⟩, h.traced, Log.kept_coarser hmn level text h.log⟩
    · rw [if_neg htraced, if_neg (h.traced ▸ htraced)]
      exact h

theorem World.tracing_coarser {m n : Int} (hmn : m ≤ n) :
    World.Tracing (Log.Coarser m n) (World.Coarser m n) where
  lockstep := World.lockstep_coarser hmn
  kept := Log.kept_coarser hmn
  log h := h.log
  set h hl := ⟨⟨h.env, h.output⟩, h.traced, hl⟩

theorem World.tracing_agree : World.Tracing (fun _ _ => True) World.Agree where
  lockstep := World.lockstep_agree
  kept _ _ _ := trivial
  log _ := trivial
  set h _ := ⟨h.env, h.output⟩

/-- Two runs that cannot be told apart without their traces. -/
structure SameRun (r r' : RunEnd × World) : Prop extends r.2.Agree r'.2 where
  ending : r'.1 = r.1

/-- How much of a run is traced cannot be seen from it: it is the same at any two levels, and when
its environment reports nothing. Of the trace at the higher level, the lower one has the messages
that are not too detailed for it, wherever the run stops. -/
theorem runProgram_trace_invisible (l : Limits) (source : String) (w : World) {m n : Int}
    (hmn : m ≤ n) :
    (∀ room, (parseProgram room source ⟨n, #[]⟩).1 = (parseProgram room source ⟨m, #[]⟩).1 ∧
      (parseProgram room source ⟨m, #[]⟩).2.entries.toList =
        (parseProgram room source ⟨n, #[]⟩).2.entries.toList.filter (·.level ≤ m)) ∧
    (SameRun (runProgram l source { w with log := ⟨m, #[]⟩ })
        (runProgram l source { w with log := ⟨n, #[]⟩ }) ∧
      (runProgram l source { w with log := ⟨m, #[]⟩ }).2.log.entries.toList =
        (runProgram l source { w with log := ⟨n, #[]⟩ }).2.log.entries.toList.filter
          (·.level ≤ m)) ∧
    SameRun (runProgram l source { w with log := ⟨m, #[]⟩ })
      (runProgram l source { w with log := ⟨n, #[]⟩, traced := false }) := by
  have hparse := parseProgram_blind (Log.kept_coarser hmn) (Log.coarser_start m n)
  have hcoarser : World.Coarser m n { w with log := ⟨m, #[]⟩ } { w with log := ⟨n, #[]⟩ } :=
    ⟨⟨rfl, rfl⟩, rfl, Log.coarser_start m n⟩
  obtain ⟨hending, hworld⟩ := runProgram_parallel (World.tracing_coarser hmn) hcoarser l source
  have hagree : World.Agree { w with log := ⟨m, #[]⟩ }
    { w with log := ⟨n, #[]⟩, traced := false } := ⟨rfl, rfl⟩
  obtain ⟨hending', hworld'⟩ := runProgram_parallel World.tracing_agree hagree l source
  refine ⟨fun room => ?_, ⟨⟨hworld.toAgree, hending⟩, hworld.log.entries⟩, ⟨hworld', hending'⟩⟩
  obtain ⟨hparsed, hlog⟩ := hparse room source
  exact ⟨hparsed, hlog.entries⟩

/-- The messages, up to a level, of a program that stops at its last line. -/
def stoppingTrace (level : Int) : List TraceEntry :=
  (runProgram Interpreter.limits "x = 1\nif x:\n  print y\n"
    (Interpreter.start ⟨level, #[]⟩)).2.log.entries.toList

theorem filter_stoppingTrace :
    (2 : Int) ≤ 4 ∧ (stoppingTrace 4).filter (·.level ≤ 2) =
      [⟨1, "run: 2 top-level statements"⟩, ⟨2, "assign x = 1"⟩, ⟨1, "run: done"⟩] := by
  have hle : (2 : Int) ≤ 4 := by decide
  have hlow : stoppingTrace 2 =
      [⟨1, "run: 2 top-level statements"⟩, ⟨2, "assign x = 1"⟩, ⟨1, "run: done"⟩] := by
    decide +kernel
  obtain ⟨-, ⟨-, hentries⟩, -⟩ := runProgram_trace_invisible Interpreter.limits
    "x = 1\nif x:\n  print y\n" (Interpreter.start ⟨0, #[]⟩) hle
  exact ⟨hle, hentries.symm.trans hlow⟩

end TinyScript
