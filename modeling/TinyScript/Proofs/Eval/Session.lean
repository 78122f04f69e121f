import TinyScript.Proofs.Eval.Definitions
import TinyScript.Proofs.Tree.Bodies

/-!
# Functions over a session

A session runs programs one after the other in one world. Programs that have been parsed can be run
again, and between runs the environment can be read and changed. Whatever is done, and however the
runs end, the table of functions holds for each name the function that was defined last under it,
and every function in it is sound (`session_functions`). Running a definition that the table holds
has no effect at all. The tree of a program does not change when it is run, so running it again
defines its functions again.
-/

namespace TinyScript

open Exec

/-- The world in which a run ends, however it ends. -/
def Exec.worldAfter {α : Type} (p : Exec α) (w : World) : World :=
  match p w with
  | .ok _ w' | .error _ w' => w'

theorem Exec.env_worldAfter {α : Type} (p : Exec α) (w : World) :
    (p.worldAfter w).env = p.envAfter w := by
  unfold worldAfter envAfter
  cases p w with
  | ok | error => rfl

/-- What can be done with an environment from outside a program. -/
inductive Access where
  | eval (e : Expr)
  | get (name : String)
  | set (name : String) (v : Value)
  | create (name : String) (n : Int)
  | erase (name : String)
  | increment (name : String) (amount : Int)
  /-- Makes a name hold the value of another, in the same cell. -/
  | share (name source : String)

/-- Does it, and lets go of what it tells. -/
def Access.exec (g : Grant) : Access → Exec Unit
  | eval e => do let _ ← Exec.eval g e
  | get name => do let _ ← Exec.ask (·.get name)
  | set name v => Exec.change (·.set name v)
  | create name n => Exec.tryChange (·.create name n)
  | erase name => Exec.change (·.erase name)
  | increment name amount => Exec.tryChange (·.increment name amount)
  | share name source => Exec.tryChange (·.share name source)

inductive Action where
  /-- Parses a text and runs the program. -/
  | run (source : String)
  /-- Runs again the program that was parsed as the one of this number. -/
  | rerun (index : Nat)
  | access (a : Access)

/-- The world of a session, and the programs that have been parsed in it. -/
structure Session where
  world : World
  programs : List Block

namespace Session

/-- A session in which nothing has been bound or defined yet. -/
def start (w : World) : Session := ⟨{ w with env := .empty }, []⟩

def perform (l : Limits) (s : Session) : Action → Session
  | .run source =>
    match parseProgram l.nesting source s.world.log with
    | (.error _, log) => { s with world := { s.world with log } }
    | (.ok program, log) =>
      ⟨(Interpreter.run l.grant program).worldAfter { s.world with log }, s.programs ++ [program]⟩
  | .rerun index =>
    match s.programs[index]? with
    | none => s
    | some program => { s with world := (Interpreter.run l.grant program).worldAfter s.world }
  | .access a => { s with world := (a.exec l.grant).worldAfter s.world }

/-- The functions that an action defines. -/
def defined (l : Limits) (s : Session) : Action → List Function
  | .run source =>
    match parseProgram l.nesting source s.world.log with
    | (.error _, _) => []
    | (.ok program, log) => Interpreter.defined l.grant program { s.world with log }
  | .rerun index =>
    match s.programs[index]? with
    | none => []
    | some program => Interpreter.defined l.grant program s.world
  | .access _ => []

def performAll (l : Limits) (s : Session) (actions : List Action) : Session :=
  actions.foldl (perform l) s

/-- The functions that the actions define, in their order. -/
def history (l : Limits) (s : Session) : List Action → List Function
  | [] => []
  | a :: rest => s.defined l a ++ (s.perform l a).history l rest

end Session

theorem Env.functions_share {env env' : Env} {x y : String} (h : env.share x y = .ok env') :
    env'.functions = env.functions := by
  unfold Env.share at h
  split at h
  · cases h
    rfl
  · cases h

theorem Access.records_exec (g : Grant) (a : Access) : Records (a.exec g) fun _ => [] := by
  cases a with
  | eval e => exact (records_ask _).before fun _ => records_pure _
  | get name => exact (records_ask _).before fun _ => records_pure _
  | set name v => exact fun _ => rfl
  | create name n => exact records_tryChange Env.functions_create
  | erase name => exact fun _ => rfl
  | increment name amount => exact records_tryChange Env.functions_increment
  | share name source => exact records_tryChange Env.functions_share

namespace Session

variable {l : Limits} {s : Session}

theorem functions_worldAfter {α : Type} {p : Exec α} {ds : World → List Function}
    (h : Records p ds) (w : World) :
    (p.worldAfter w).env.functions = Function.enterAll w.env.functions (ds w) := by
  rw [env_worldAfter]
  exact h w

/-- An action enters the functions that it defines. -/
theorem functions_perform (l : Limits) (s : Session) (a : Action) :
    (s.perform l a).world.env.functions =
      Function.enterAll s.world.env.functions (s.defined l a) := by
  cases a with
  | run source =>
    rw [perform, defined]
    split
    · rfl
    · exact functions_worldAfter (Interpreter.records_run l.grant _) _
  | rerun index =>
    rw [perform, defined]
    cases s.programs[index]? with
    | none => rfl
    | some program => exact functions_worldAfter (Interpreter.records_run l.grant program) _
  | access a => exact functions_worldAfter (a.records_exec l.grant) _

/-- The programs of the session define sound functions only. -/
def Sound (s : Session) : Prop :=
  ∀ program ∈ s.programs, ∀ f ∈ Stmt.allFunctions program, f.Sound

theorem sound_start (w : World) : (start w).Sound := nofun

/-- The programs stay sound, and so is what an action defines. -/
theorem Sound.perform (h : s.Sound) (l : Limits) (a : Action) :
    (s.perform l a).Sound ∧ ∀ f ∈ s.defined l a, f.Sound := by
  cases a with
  | run source =>
    rw [Session.perform, defined]
    split
    · exact ⟨h, nofun⟩
    · next program log hparsed =>
      have hprogram : ∀ f ∈ Stmt.allFunctions program, f.Sound := by
        intro f hf
        exact sound_of_parseProgram (congrArg Prod.fst hparsed) hf
      refine ⟨List.forall_mem_append.mpr ⟨h, List.forall_mem_singleton.mpr hprogram⟩, ?_⟩
      exact fun f hf => hprogram f (Interpreter.definesOnly l.grant program _ hf)
  | rerun index =>
    rw [Session.perform, defined]
    cases hindex : s.programs[index]? with
    | none => exact ⟨h, nofun⟩
    | some program =>
      refine ⟨h, fun f hf => ?_⟩
      exact h program (List.mem_of_getElem? hindex) f (Interpreter.definesOnly l.grant program _ hf)
  | access a => exact ⟨h, nofun⟩

theorem functions_performAll (l : Limits) (s : Session) (actions : List Action) :
    (s.performAll l actions).world.env.functions =
      Function.enterAll s.world.env.functions (s.history l actions) := by
  induction actions generalizing s with
  | nil => rfl
  | cons a rest ih =>
    rw [history, Function.enterAll_append, ← functions_perform]
    exact ih (s.perform l a)

theorem Sound.history (h : s.Sound) (l : Limits) (actions : List Action) :
    ∀ f ∈ s.history l actions, f.Sound := by
  induction actions generalizing s with
  | nil => nofun
  | cons a rest ih =>
    obtain ⟨hnext, hdefined⟩ := h.perform l a
    exact List.forall_mem_append.mpr ⟨hdefined, ih hnext⟩

end Session

/-- Running a function that is registered does nothing. -/
theorem Function.exec_toStmt {f : Function} (h : f.registered = true) (g : Grant) (w : World) :
    f.toStmt.exec g w = .ok () w := by
  rw [Function.toStmt, Stmt.exec, if_pos h]
  rfl

/-- After any actions, the table has under each name the function that was defined last under it,
and nothing else. Each function in it is sound, and running it again does nothing. A program that is
run again enters the functions that it defines itself, also those that are in the table already. -/
theorem session_functions (l : Limits) (w : World) (actions : List Action) :
    let s := (Session.start w).performAll l actions
    (∀ k d, (k, d) ∈ s.world.env.functions.entries ↔
      Function.last? k ((Session.start w).history l actions) = some d) ∧
    (∀ k d, (k, d) ∈ s.world.env.functions.entries →
      d.name = k ∧ d.Sound ∧ ∀ g' w', d.toStmt.exec g' w' = .ok () w') ∧
    ∀ index program, s.programs[index]? = some program →
      let table := (s.perform l (.rerun index)).world.env.functions
      ∀ k,
        (∀ d, Function.last? k (Interpreter.defined l.grant program s.world) = some d →
          d ∈ Stmt.allFunctions program ∧ table.find? k = some d) ∧
        (Function.last? k (Interpreter.defined l.grant program s.world) = none →
          table.find? k = s.world.env.functions.find? k) := by
  intro s
  have hfunctions : s.world.env.functions =
      Function.enterAll .empty ((Session.start w).history l actions) :=
    Session.functions_performAll l (Session.start w) actions
  have hentries : ∀ k d, (k, d) ∈ s.world.env.functions.entries ↔
      Function.last? k ((Session.start w).history l actions) = some d := by
    intro k d
    have hkeys : (s.world.env.functions.entries.map Prod.fst).Nodup := by
      rw [hfunctions]
      exact Function.nodup_enterAll (t := .empty) List.nodup_nil _
    have hfind := Function.find?_enterAll .empty ((Session.start w).history l actions) k
    rw [← hfunctions, Table.find?_empty, Option.or_none] at hfind
    rw [Table.mem_iff_findIn hkeys, ← hfind, Table.find?]
  refine ⟨hentries, fun k d hd => ?_, fun index program hindex => ?_⟩
  · obtain ⟨hmem, hname⟩ := Function.mem_of_last? ((hentries k d).mp hd)
    have hsound := (Session.sound_start w).history l actions d hmem
    exact ⟨hname, hsound, fun g' w' => Function.exec_toStmt hsound.registered g' w'⟩
  · intro table k
    have hdefined : s.defined l (.rerun index) = Interpreter.defined l.grant program s.world := by
      simp only [Session.defined, hindex]
    have hfind : table.find? k =
        (Function.last? k (Interpreter.defined l.grant program s.world)).or
          (s.world.env.functions.find? k) := by
      rw [← Function.find?_enterAll, ← hdefined, ← Session.functions_perform]
    refine ⟨fun d hlast => ⟨?_, ?_⟩, fun hlast => ?_⟩
    · exact Interpreter.definesOnly l.grant program s.world (Function.mem_of_last? hlast).1
    · rw [hfind, hlast, Option.some_or]
    · rw [hfind, hlast, Option.none_or]

/-- A program that defines `f`, and one that defines it anew in a branch and then fails. -/
def redefinition : List Action :=
  [.run "def f(a):\n  return a\n", .run "if 1 < 2:\n  def f():\n    print 2\nprint y\n"]

theorem session_functions_redefinition :
    let s := (Session.start ⟨.empty, "", ⟨0, #[]⟩, true⟩).performAll Interpreter.limits redefinition
    (∃ d, ("f", d) ∈ s.world.env.functions.entries ∧ d.params = [] ∧ d.Sound) ∧
      ∃ d, (s.perform Interpreter.limits (.rerun 0)).world.env.functions.find? "f" = some d ∧
        d.params = ["a"] := by
  intro s
  obtain ⟨hentries, hsound, hrerun⟩ :=
    session_functions Interpreter.limits ⟨.empty, "", ⟨0, #[]⟩, true⟩ redefinition
  refine ⟨?_, ?_⟩
  · have hlast : (Function.last? "f" ((Session.start ⟨.empty, "", ⟨0, #[]⟩, true⟩).history
        Interpreter.limits redefinition)).map Function.params = some [] := by decide +kernel
    obtain ⟨d, hd, hparams⟩ := Option.map_eq_some_iff.mp hlast
    have hmem := (hentries "f" d).mpr hd
    exact ⟨d, hmem, hparams, (hsound "f" d hmem).2.1⟩
  · have hagain : (s.programs[0]?.bind fun program => (Function.last? "f"
        (Interpreter.defined Interpreter.limits.grant program s.world)).map Function.params) =
          some ["a"] := by decide +kernel
    obtain ⟨program, hprogram, hlast⟩ := Option.bind_eq_some_iff.mp hagain
    obtain ⟨d, hd, hparams⟩ := Option.map_eq_some_iff.mp hlast
    exact ⟨d, ((hrerun 0 program hprogram "f").1 d hd).2, hparams⟩

end TinyScript
