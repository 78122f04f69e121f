import TinyScript.Cli
import TinyScript.Proofs.Eval.Safety
import TinyScript.Proofs.Parsing.Unreadable
import TinyScript.Proofs.Tree.Shown

/-!
# How the command ends

A program that fails is told about on the error stream, with exit code 1. Limits of the machine are
not failures of that kind: they escape from the command, and so does a numeral that has too many
digits. The main statement, `command_settled`, says that nothing else escapes once the files can be
opened. That these do is shown by `command_hugeRepeat`. Of programs with a text literal that is
beyond this library nothing is said.
-/

namespace TinyScript

theorem Table.keys_insertIn {α : Type} {name : String} {es : List (String × α)}
    (h : (Table.findIn name es).isSome = true) (a : α) :
    (Table.insertIn name a es).map Prod.fst = es.map Prod.fst := by
  induction es with
  | nil => cases h
  | cons e es ih =>
    obtain ⟨key, b⟩ := e
    rw [Table.findIn] at h
    rw [Table.insertIn]
    by_cases hkey : key = name
    · rw [if_pos hkey, hkey]
      rfl
    · rw [if_neg hkey] at h ⊢
      exact congrArg (key :: ·) (ih h)

/-- The error is not one of a text literal that is beyond this library. -/
def ParseError.Within (e : ParseError) : Prop :=
  ∀ s, e = .rejected s → s.cause ≠ .invalidString .beyond

namespace Cli

namespace Directory

variable {d : Directory} {key : String}

/-- What a path leads to depends on the names of the files alone. -/
theorem follow_congr {d' : Directory} (hfiles : ∀ k, d'.files.contains k = d.files.contains k)
    (hdirs : ∀ k, d'.hasDirectory k = d.hasDirectory k) (here parts : List String) :
    d'.follow here parts = d.follow here parts := by
  induction parts generalizing here with
  | nil => rfl
  | cons part rest ih =>
    simp only [follow, hfiles, hdirs, ih]

/-- Writing to a file that is there leads no path elsewhere. -/
theorem place_append (h : d.files.contains key = true) (text : String) (path : Path) :
    (d.append key text).place path = d.place path := by
  have hfiles : ∀ k, (d.append key text).files.contains k = d.files.contains k := by
    intro k
    rw [append, Table.contains, Table.find?_insert]
    by_cases hk : key = k
    · rw [if_pos hk, ← hk, h]
      rfl
    · rw [if_neg hk]
      rfl
  have hdirs : ∀ k, (d.append key text).hasDirectory k = d.hasDirectory k := by
    intro k
    have hkeys := congrArg
      (List.any · fun path => (k ++ "/").toList.isPrefixOf path.toList)
      (Table.keys_insertIn h ((d.files.find? key).getD [] ++ text.toUTF8.toList))
    rw [List.any_map, List.any_map] at hkeys
    exact hkeys
  simp only [place, follow_congr hfiles hdirs]

theorem exists_openForWriting_append (h : d.files.contains key = true) (text : String)
    {path : String} (hopen : ∃ r, d.openForWriting path = .ok r) :
    ∃ r, (d.append key text).openForWriting path = .ok r := by
  obtain ⟨r, hr⟩ := hopen
  unfold openForWriting at hr ⊢
  rw [place_append h]
  split at hr
  · cases hr
  · cases hr
  · cases hr
  all_goals
    split at hr
    · cases hr
    · next hslash => exact ⟨_, if_neg hslash⟩

end Directory

/-- A trace in a file is in a file that is there. -/
theorem Sink.contains_of_start {level : Int} {path key : String} {d d' : Directory} {sink : Sink}
    (h : Sink.start level path d = .ok (sink, d')) (hkey : sink.file = some key) :
    d'.files.contains key = true := by
  unfold Sink.start at h
  split at h
  · cases hopen : d.openForWriting path with
    | error e =>
      rw [hopen] at h
      cases h
    | ok r =>
      rw [hopen] at h
      cases h
      cases hkey
      unfold Directory.openForWriting at hopen
      split at hopen
      all_goals try cases hopen
      all_goals
        split at hopen
        · cases hopen
        · cases hopen
          simp [Directory.put, Table.contains]
  · cases h
    cases hkey

/-- Writing the trace takes no path away. -/
theorem Sink.exists_openForWriting_write {level : Int} {path target : String} {d d' : Directory}
    (sink : Sink) (h : Sink.start level path d = .ok (sink, d')) (text : String)
    (hopen : ∃ r, d'.openForWriting target = .ok r) :
    ∃ r, (sink.write text d').2.openForWriting target = .ok r := by
  cases hfile : sink.file with
  | none => simpa only [Sink.write, hfile] using hopen
  | some key =>
    simp only [Sink.write, hfile]
    exact Directory.exists_openForWriting_append (Sink.contains_of_start h hfile) text hopen

/-- Parsing does not stop at a text literal that is beyond this library. -/
def ReadWithin (room level : Nat) (source : String) : Prop :=
  ∀ e log, parseProgram room source ⟨level, #[]⟩ = (.error e, log) → e.Within

/-- What the command tells about a program that fails: the text is no program, a fault stops its
run, or its tree is too high to be shown. -/
inductive Failing (l : Limits) (level : Nat) (source : String) : Mode → Diagnostic → Prop where
  | parse {mode : Mode} {e : ParseError} {log : Log} {d : Diagnostic}
      (hparse : parseProgram l.nesting source ⟨level, #[]⟩ = (.error e, log)) (hwithin : e.Within)
      (hd : e.diagnostic? = some d) : Failing l level source mode d
  | run {program : Block} {log : Log} {f : Fault} {w : World} {d : Diagnostic}
      (hparse : parseProgram l.nesting source ⟨level, #[]⟩ = (.ok program, log))
      (hrun : Interpreter.run l.grant program (Interpreter.start log) = .error (.fault f) w)
      (hd : f.diagnostic? = some d) : Failing l level source .run d
  | height {mode : Mode} {scope : String} {program : Block} {log : Log} {d : Diagnostic}
      (hparse : parseProgram l.nesting source ⟨level, #[]⟩ = (.ok program, log))
      (hscope : (mode, scope) ∈ [(.dump, "Interpreter.dump"), (.emit, "--emit-ast")])
      (hhigh : l.height < (Node.stmt (.block program)).height)
      (hd : (Fault.script (.tooDeep scope)).diagnostic? = some d) : Failing l level source mode d

/-- How the command can end, and what it then has written to the error stream apart from the
trace. -/
inductive Settled (l : Limits) (level : Nat) (source : String) (mode : Mode) :
    Ending → String → Prop where
  | done : Settled l level source mode (.exit 0) ""
  | failed {d : Diagnostic} (hd : Failing l level source mode d) :
      Settled l level source mode (.exit 1) (d.render ++ "\n")
  | numeral {n : Nat} (hn : Number.maxDigits < n) :
      Settled l level source mode (.escaped (.numeral (.tooManyDigits n))) ""
  | limit {x : Limit} (hmode : mode = .run) (hx : x ≠ .nesting) :
      Settled l level source mode (.escaped (.stop (.fault (.limit x)))) ""
  | exhausted (hmode : mode = .run) : Settled l level source mode (.escaped (.stop .exhausted)) ""

section Execute

variable {l : Limits} {level : Nat} {source : String}

theorem settled_runBlock {program : Block} {log : Log}
    (hparse : parseProgram l.nesting source ⟨level, #[]⟩ = (.ok program, log)) :
    Settled l level source .run (runBlock l.grant program log).ending
      (runBlock l.grant program log).complaint := by
  have hprogram := wellFormed_of_parseProgram (congrArg Prod.fst hparse)
  have hsafe : Safe false Env.empty (Stmt.allFunctions program) (Stmt.execAll l.grant program) :=
    Stmt.safe_all l.grant program hprogram fun _ hf => hf
  have hended := hsafe.run (Interpreter.start log) (Env.Reached.refl nofun)
  unfold runBlock
  cases hrun : Interpreter.run l.grant program (Interpreter.start log) with
  | ok a w => exact .done
  | error s w =>
    rw [hrun] at hended
    obtain ⟨-, hordinary, hne⟩ := hended
    cases s with
    | returned v => cases hordinary
    | exhausted => exact .exhausted rfl
    | fault f =>
      cases f with
      | script f | loop f | tree f => exact .failed (.run hparse hrun rfl)
      | limit x => exact .limit rfl fun hx => hne (hx ▸ rfl)
      | notValue n | noPayload | unfinished => cases hordinary

theorem settled_execute (hwithin : ReadWithin l.nesting level source) (mode : Mode) :
    Settled l level source mode (execute l mode level source).ending
      (execute l mode level source).complaint := by
  unfold execute
  rcases hparse : parseProgram l.nesting source ⟨level, #[]⟩ with ⟨result, log⟩
  cases result with
  | error e =>
    cases e with
    | lexical e | rejected e => exact .failed (.parse hparse (hwithin _ _ hparse) rfl)
    | unreadable r =>
      obtain ⟨n, rfl, hn⟩ := unreadable_of_parseProgram (congrArg Prod.fst hparse)
      exact .numeral hn
  | ok program =>
    have hprogram := wellFormed_of_parseProgram (congrArg Prod.fst hparse)
    cases mode with
    | run => exact settled_runBlock hparse
    | dump =>
      dsimp only
      rw [dumpProgram, Interpreter.dump_of_wellFormed hprogram]
      by_cases hhigh : l.height < (Node.stmt (.block program)).height
      · rw [if_pos hhigh]
        exact .failed (.height hparse (by simp) hhigh rfl)
      · rw [if_neg hhigh]
        exact .done
    | emit =>
      dsimp only
      rw [emitProgram, Item.exportText_of_wellFormed hprogram]
      by_cases hhigh : l.height < (Node.stmt (.block program)).height
      · rw [if_pos hhigh]
        exact .failed (.height hparse (by simp) hhigh rfl)
      · rw [if_neg hhigh]
        exact .done

theorem emitted_failWith (f : Fault) (output : String) (log : Log) :
    (failWith f output log).emitted = none := by
  unfold failWith
  split <;> rfl

/-- Only an export is written to a file, and then there is nothing to tell. -/
theorem mode_of_emitted {mode : Mode} {text : String}
    (h : (execute l mode level source).emitted = some text) :
    mode = .emit ∧ (execute l mode level source).complaint = "" := by
  unfold execute at h ⊢
  generalize parseProgram l.nesting source ⟨level, #[]⟩ = parsed at h ⊢
  obtain ⟨result, log⟩ := parsed
  cases result with
  | error e =>
    cases e with
    | lexical e | rejected e | unreadable r => cases h
  | ok program =>
    cases mode with
    | run =>
      simp only [runBlock] at h
      split at h
      · cases h
      · simp [emitted_failWith] at h
      · cases h
    | dump =>
      simp only [dumpProgram] at h
      split at h
      · cases h
      · simp [emitted_failWith] at h
    | emit =>
      refine ⟨rfl, ?_⟩
      simp only [emitProgram] at h ⊢
      split at h
      · rfl
      all_goals simp [emitted_failWith] at h

end Execute

/-- The command, on a program file that can be read, with a trace and an output that can be written,
ends as settled, whatever the limits of the host are. What it tells about the program stands behind
the trace. -/
theorem command_settled {l : Limits} {argv : List String} {d d' : Directory} {o : Options}
    {key source : String} {sink : Sink} (hargs : Options.parse? argv = some o)
    (hfile : d.place (.ofText o.program) = .file key)
    (htext : Text.Utf8.readText ((d.files.find? key).getD []) = .ok source)
    (hsink : Sink.start o.level o.debugFile d = .ok (sink, d'))
    (hout : o.mode = .emit →
      ∃ r, d'.openForWriting ((Path.ofText o.program).addEnding emitEnding).text = .ok r)
    (hwithin : ReadWithin l.nesting o.level source) :
    ∃ told,
      (command l argv d).errors =
        (sink.write (execute l o.mode o.level source).log.text d').1 ++ told ∧
      Settled l o.level source o.mode (command l argv d).ending told := by
  have hcommand : command l argv d = launch l o source d := by
    simp only [command, hargs, hfile, htext]
  have hsettled := settled_execute hwithin o.mode
  rw [hcommand]
  simp only [launch, hsink]
  generalize hexecute : execute l o.mode o.level source = e at hsettled
  cases hemitted : e.emitted with
  | none =>
    refine ⟨e.complaint, ?_, ?_⟩
    · simp only [deliver, hemitted]
    · simpa only [deliver, hemitted] using hsettled
  | some text =>
    obtain ⟨hmode, hcomplaint⟩ := mode_of_emitted (hexecute ▸ hemitted)
    obtain ⟨r, hr⟩ := sink.exists_openForWriting_write hsink e.log.text (hout hmode)
    rw [hexecute] at hcomplaint
    rw [hcomplaint] at hsettled
    refine ⟨"", ?_, ?_⟩
    · simp only [deliver, hemitted, hr, String.append_empty]
    · simpa only [deliver, hemitted, hr] using hsettled

/-- A working directory with one program. -/
def directoryOf (source : String) : Directory := ⟨⟨[("p.mpy", source.toUTF8.toList)]⟩⟩

/-- A program that divides by zero. -/
def divisionByZero : String := "print 1 / 0\n"

theorem command_divisionByZero :
    ∃ told,
      (command Interpreter.limits ["-vv", "p.mpy"] (directoryOf divisionByZero)).errors =
        "" ++ told ∧
      told = "binary_op division by zero\n" ∧
      Settled Interpreter.limits 2 divisionByZero .run
        (command Interpreter.limits ["-vv", "p.mpy"] (directoryOf divisionByZero)).ending told := by
  have hargs : Options.parse? ["-vv", "p.mpy"] = some ⟨"p.mpy", .run, 2, "debug.txt"⟩ := by
    decide +kernel
  have hfile : (directoryOf divisionByZero).place (.ofText "p.mpy") = .file "p.mpy" := by
    decide +kernel
  have htext : Text.Utf8.readText (((directoryOf divisionByZero).files.find? "p.mpy").getD []) =
      .ok divisionByZero := by
    generalize hread : Text.Utf8.readText _ = r
    have hsome : r.toOption = some divisionByZero := by
      rw [← hread]
      decide +kernel
    cases r with
    | error e => cases hsome
    | ok source => exact congrArg Except.ok (Option.some.inj hsome)
  have hsink : Sink.start 2 "debug.txt" (directoryOf divisionByZero) =
      .ok (⟨2, some "debug.txt"⟩, (directoryOf divisionByZero).put "debug.txt" "") := by rfl
  have htold : (command Interpreter.limits ["-vv", "p.mpy"] (directoryOf divisionByZero)).errors =
      "binary_op division by zero\n" := by decide +kernel
  have hwithin : ReadWithin Interpreter.limits.nesting 2 divisionByZero := by
    intro e log hparse
    have hread : (parseProgram 200 divisionByZero ⟨(2 : Nat), #[]⟩).1.isOk = true := by
      decide +kernel
    cases hparse ▸ hread
  obtain ⟨told, herrors, hsettled⟩ :=
    command_settled (l := Interpreter.limits) hargs hfile htext hsink nofun hwithin
  exact ⟨told, herrors, String.empty_append.symm.trans (herrors.symm.trans htold), hsettled⟩

/-- The limit of the machine that escaped. -/
def Ending.limit? : Ending → Option Limit
  | .escaped (.stop (.fault (.limit l))) => some l
  | _ => none

/-- Repeating a text more often than any text can be long is not told about: it escapes. -/
theorem command_hugeRepeat :
    (command Interpreter.limits ["p.mpy"]
      (directoryOf "print \"a\" * 9223372036854775808\n")).ending.limit? = some .repeatCount := by
  decide +kernel

end Cli

end TinyScript
