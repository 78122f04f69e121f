import TinyScript.Interpreter
import TinyScript.Proofs.Eval.Effects
import TinyScript.Proofs.Tree.WellFormed

/-!
# The definitions that a run evaluates

`Stmt.defined g s w` lists the functions that running `s` in the world `w` defines, in their order:
those in the branches that are taken, those of every pass of a loop, and none behind the place where
the run stops. The table of functions in which a run ends is the one in which it began, with these
functions entered one after the other (`records_run`). So a name has the function that was defined
last under it (`Function.find?_enterAll`).
-/

namespace TinyScript

open Exec

/-- Enters functions into a table, each under its own name. -/
def Function.enterAll (t : Table Function) (fs : List Function) : Table Function :=
  fs.foldl (fun t f => t.insert f.name f) t

/-- The last of the functions that has the name. -/
def Function.last? (name : String) (fs : List Function) : Option Function :=
  fs.findRev? (·.name = name)

namespace Function

variable {t : Table Function} {fs : List Function} {name : String} {f : Function}

theorem enterAll_append (t : Table Function) (fs fs' : List Function) :
    enterAll t (fs ++ fs') = enterAll (enterAll t fs) fs' :=
  List.foldl_append

theorem find?_enterAll (t : Table Function) (fs : List Function) (name : String) :
    (enterAll t fs).find? name = (last? name fs).or (t.find? name) := by
  induction fs generalizing t with
  | nil => rfl
  | cons f fs ih =>
    have hrest : (enterAll t (f :: fs)).find? name =
        (last? name fs).or ((t.insert f.name f).find? name) := ih (t.insert f.name f)
    rw [hrest, Table.find?_insert]
    simp only [last?, List.findRev?]
    cases fs.findRev? (·.name = name) with
    | some _ => rfl
    | none => by_cases hname : f.name = name <;> simp [hname]

theorem mem_of_last? (h : last? name fs = some f) : f ∈ fs ∧ f.name = name := by
  rw [last?, List.findRev?_eq_find?_reverse] at h
  have hname := List.find?_some h
  exact ⟨List.mem_reverse.mp (List.mem_of_find?_eq_some h), of_decide_eq_true hname⟩

end Function

namespace Table

variable {α : Type} {es : List (String × α)}

theorem mem_keys_insertIn {name key : String} {a : α} :
    key ∈ (insertIn name a es).map Prod.fst ↔ key = name ∨ key ∈ es.map Prod.fst := by
  induction es with
  | nil => simp [insertIn]
  | cons e es ih =>
    obtain ⟨other, b⟩ := e
    rw [insertIn]
    split
    · next hother => simp [hother]
    · rw [List.map_cons, List.mem_cons, ih, List.map_cons, List.mem_cons]
      exact or_left_comm

theorem nodup_insertIn (h : (es.map Prod.fst).Nodup) (name : String) (a : α) :
    ((insertIn name a es).map Prod.fst).Nodup := by
  induction es with
  | nil => simp [insertIn]
  | cons e es ih =>
    obtain ⟨other, b⟩ := e
    obtain ⟨hother, hes⟩ := List.nodup_cons.mp h
    rw [insertIn]
    split
    · next heq =>
      subst heq
      exact h
    · next hne =>
      refine List.nodup_cons.mpr ⟨fun hmem => ?_, ih hes⟩
      rcases mem_keys_insertIn.mp hmem with heq | hmem
      · exact hne heq
      · exact hother hmem

/-- Where no name is entered twice, the entries are what is found. -/
theorem mem_iff_findIn (h : (es.map Prod.fst).Nodup) {name : String} {a : α} :
    (name, a) ∈ es ↔ findIn name es = some a := by
  induction es with
  | nil => simp [findIn]
  | cons e es ih =>
    obtain ⟨other, b⟩ := e
    obtain ⟨hother, hes⟩ := List.nodup_cons.mp h
    rw [findIn, List.mem_cons]
    split
    · next heq =>
      subst heq
      have hnone : (other, a) ∉ es := fun hmem => hother (List.mem_map.mpr ⟨_, hmem, rfl⟩)
      simp [hnone, eq_comm]
    · next hne =>
      rw [← ih hes]
      simp [Ne.symm hne]

end Table

theorem Function.nodup_enterAll {t : Table Function} (h : (t.entries.map Prod.fst).Nodup)
    (fs : List Function) : ((enterAll t fs).entries.map Prod.fst).Nodup := by
  induction fs generalizing t with
  | nil => exact h
  | cons f fs ih => exact ih (Table.nodup_insertIn h f.name f)

namespace Exec

variable {α : Type}

/-- What is defined behind a step, if the step does not stop. -/
def after (p : Exec α) (ds : α → World → List Function) (w : World) : List Function :=
  match p w with
  | .ok a w' => ds a w'
  | .error _ _ => []

/-- What the passes define that are made as long as `test` holds. -/
def repeated (test : Exec Bool) (pass : Exec Unit) (ds : World → List Function) :
    (passes : Nat) → World → List Function
  | 0 => fun _ => []
  | passes + 1 => after test fun more =>
    if more then fun w => ds w ++ after pass (fun _ => repeated test pass ds passes) w
    else fun _ => []

end Exec

namespace Loop

/-- What the passes of a loop define, if each of them defines what `ds` says. -/
def defined (x : String) (start stop step : Int) (pass : Exec Unit) (ds : World → List Function)
    (passes : Nat) : World → List Function :=
  match Direction.of? start stop step with
  | none | some .nowhere => fun _ => []
  | some direction =>
    repeated (test x direction stop) (do
      pass
      Exec.tryChange (·.increment x step)) ds passes

end Loop

mutual

/-- The functions that running the statement defines. -/
def Stmt.defined (g : Grant) : Stmt → World → List Function
  | .ifElse c body arms =>
    after (condition g c) fun taken => if taken then Stmt.allDefined g body else arms.defined g
  | .forRange x args body =>
    after (Loop.enter g.room x args) fun (b, stop) =>
      Loop.defined x b.start stop b.step (Stmt.execAll g body) (Stmt.allDefined g body) g.passes
  | .define name params body registered => fun _ =>
    if registered then [] else [⟨name, params, body, true⟩]
  | .block body => Stmt.allDefined g body
  | .guarded c body =>
    after (condition g c) fun taken => if taken then Stmt.allDefined g body else fun _ => []
  | .assign .. | .print _ | .headless _ | .ret _ | .bare _ | .hole => fun _ => []

def Arms.defined (g : Grant) : Arms → World → List Function
  | .done => fun _ => []
  | .otherwise body => after (trace 3 "if: took else branch") fun _ => Stmt.allDefined g body
  | .elif c body rest =>
    after (condition g c) fun taken => if taken then Stmt.allDefined g body else rest.defined g

def Stmt.allDefined (g : Grant) : List Stmt → World → List Function
  | [] => fun _ => []
  | s :: ss => fun w => s.defined g w ++ after (s.exec g) (fun _ => Stmt.allDefined g ss) w

end

/-- The functions that running the program defines. -/
def Interpreter.defined (g : Grant) (program : Block) : World → List Function :=
  after (note 1 ("run: " ++ program.length.repr ++ " top-level statements")) fun _ =>
    Stmt.allDefined g program

/-- Runs of the step define what `ds` says. -/
def Records {α : Type} (p : Exec α) (ds : World → List Function) : Prop :=
  ∀ w, (p.envAfter w).functions = Function.enterAll w.env.functions (ds w)

section Records

variable {α β : Type} {p : Exec α} {f : α → Exec β} {ds : World → List Function}
variable {es : α → World → List Function}

theorem records_of_keeps (h : ∀ I, KeepsFunctions I p) : Records p fun _ => [] :=
  fun w => (h (· = w.env.functions)).envAfter rfl

theorem Records.bind (h : Records p ds) (hf : ∀ a, Records (f a) (es a)) :
    Records (p >>= f) fun w => ds w ++ after p es w := by
  intro w
  have hp := h w
  unfold envAfter at hp
  cases hr : p w with
  | ok a w' =>
    rw [hr] at hp
    have hbind : (p >>= f).envAfter w = (f a).envAfter w' := by
      simp only [envAfter, bind_of_ok hr]
    rw [hbind, hf a w', hp, Function.enterAll_append, after, hr]
  | error s w' =>
    rw [hr] at hp
    simp only [envAfter, bind_of_error hr, after, hr, List.append_nil]
    exact hp

/-- A step that defines nothing, in front of another. -/
theorem Records.after (h : Records p fun _ => []) (hf : ∀ a, Records (f a) (es a)) :
    Records (p >>= f) (after p es) :=
  h.bind hf

/-- A step that defines nothing, behind another. -/
theorem Records.before (h : Records p ds) (hf : ∀ a, Records (f a) fun _ => []) :
    Records (p >>= f) ds := by
  intro w
  have hnone : Exec.after p (fun _ _ => []) w = [] := by
    unfold Exec.after
    split <;> rfl
  have hboth := h.bind hf w
  simp only [hnone, List.append_nil] at hboth
  exact hboth

theorem Records.ensuring (h : Records p ds) {change : World → World}
    (hchange : ∀ w, (change w).env.functions = w.env.functions) :
    Records (Exec.ensuring p change) ds := by
  intro w
  rw [← h w]
  unfold envAfter Exec.ensuring
  cases p w with
  | ok a w' | error a w' => exact hchange w'

theorem Records.ite {test : Exec Bool} {q r : Exec Unit} {qs rs : World → List Function}
    (h : Records test fun _ => []) (hq : Records q qs) (hr : Records r rs) :
    Records (test >>= fun b => if b = true then q else r)
      (Exec.after test fun b => if b = true then qs else rs) := by
  refine h.after fun b => ?_
  cases b with
  | true => exact hq
  | false => exact hr

theorem records_pure (a : α) : Records (pure a : Exec α) fun _ => [] := fun _ => rfl

theorem records_throw (s : Stop) : Records (throw s : Exec α) fun _ => [] := fun _ => rfl

theorem records_ask (query : Env → Except Fault α) : Records (ask query) fun _ => [] :=
  records_of_keeps fun _ => keepsFunctions_ask query

theorem records_ofExcept (r : Except Fault α) : Records (Exec.ofExcept r) fun _ => [] := by
  cases r with
  | ok a => exact records_pure a
  | error fault => exact records_throw (.fault fault)

theorem records_trace (level : Int) (text : Thunk String) :
    Records (trace level text) fun _ => [] :=
  records_of_keeps fun _ => within_trace level text

theorem records_tryChange {change : Env → Except Fault Env}
    (h : ∀ {env env'}, change env = .ok env' → env'.functions = env.functions) :
    Records (tryChange change) fun _ => [] :=
  records_of_keeps fun _ => keepsFunctions_tryChange h

theorem records_repeatWhile {test : Exec Bool} {pass : Exec Unit}
    (htest : Records test fun _ => []) (hpass : Records pass ds) (passes : Nat) :
    Records (repeatWhile test pass passes) (repeated test pass ds passes) := by
  induction passes with
  | zero =>
    refine htest.before fun more => ?_
    cases more with
    | true => exact records_throw .exhausted
    | false => exact records_pure ()
  | succ passes ih => exact htest.ite (hpass.bind fun _ => ih) (records_pure ())

theorem Env.functions_create {env env' : Env} {x : String} {n : Int}
    (h : env.create x n = .ok env') : env'.functions = env.functions := by
  unfold Env.create at h
  split at h
  · cases h
  · cases h
    rfl

theorem Loop.records_enter (room : Nat) (x : String) (args : List Expr) :
    Records (Loop.enter room x args) fun _ => [] := by
  refine (records_ask _).before fun b => ?_
  have hget : Records (get : Exec World) fun _ => [] := fun _ => rfl
  refine hget.before fun w => ?_
  dsimp only
  split
  · exact records_throw _
  · split
    · exact records_throw _
    · exact (records_ofExcept _).before fun _ => (records_trace _ _).before fun _ =>
        (records_tryChange Env.functions_create).before fun _ => records_pure _

theorem Loop.records_passes {pass : Exec Unit} (h : Records pass ds) (x : String) (b : Bounds)
    (stop : Int) (passes : Nat) :
    Records (Loop.passes x b stop pass passes)
      (Loop.defined x b.start stop b.step pass ds passes) := by
  refine Records.ensuring ?_ fun _ => rfl
  unfold Loop.run Loop.defined
  cases Direction.of? b.start stop b.step with
  | none => exact records_throw _
  | some direction =>
    have htest : Records (Loop.test x direction stop) fun _ => [] :=
      (records_ask _).before fun _ => records_pure _
    have hcount : Records (tryChange (·.increment x b.step)) fun _ => [] :=
      records_tryChange Env.functions_increment
    cases direction with
    | nowhere => exact records_pure ()
    | up | down => exact records_repeatWhile htest (h.before fun _ => hcount) passes

end Records

mutual

/-- Running a statement defines the functions that are said to be defined. -/
theorem Stmt.records_exec (g : Grant) (s : Stmt) : Records (s.exec g) (s.defined g) := by
  cases s with
  | assign x e => exact records_of_keeps fun _ => keepsFunctions_assign g x e
  | print es => exact records_of_keeps fun _ => keepsFunctions_printAll g es
  | ifElse c body arms =>
    have htaken := (Stmt.records_execAll g body).before fun _ =>
      records_trace 3 "if: took primary branch"
    exact (records_ask _).ite htaken (Arms.records_exec g 1 arms)
  | headless arms => exact records_throw _
  | forRange x args body =>
    rw [Stmt.exec, runLoop]
    refine (Loop.records_enter g.room x args).after fun (b, stop) => ?_
    exact Loop.records_passes (Stmt.records_execAll g body) x b stop g.passes
  | define name params body registered =>
    cases registered with
    | true => exact records_pure ()
    | false =>
      have hchange : Records (Exec.change (·.register ⟨name, params, body, true⟩)) fun _ =>
          [⟨name, params, body, true⟩] := fun _ => rfl
      exact hchange.before fun _ => records_trace _ _
  | ret e => exact (records_ask _).before fun _ => records_throw _
  | bare e => exact (records_ask _).before fun _ => records_pure _
  | block body => exact Stmt.records_execAll g body
  | guarded c body => exact (records_ask _).ite (Stmt.records_execAll g body) (records_pure ())
  | hole => exact records_throw _

theorem Arms.records_exec (g : Grant) (index : Nat) (arms : Arms) :
    Records (arms.exec g index) (arms.defined g) := by
  cases arms with
  | done => exact records_pure ()
  | otherwise body => exact (records_trace _ _).after fun _ => Stmt.records_execAll g body
  | elif c body rest =>
    have htaken := (Stmt.records_execAll g body).before fun _ =>
      records_trace 3 ("if: took elif branch " ++ index.repr)
    exact (records_ask _).ite htaken (Arms.records_exec g (index + 1) rest)

theorem Stmt.records_execAll (g : Grant) (ss : List Stmt) :
    Records (Stmt.execAll g ss) (Stmt.allDefined g ss) := by
  cases ss with
  | nil => exact records_pure ()
  | cons s ss => exact (Stmt.records_exec g s).bind fun _ => Stmt.records_execAll g ss

end

theorem Interpreter.envAfter_reportDepth {α : Type} (scope : String) (p : Exec α) (w : World) :
    (Interpreter.reportDepth scope p).envAfter w = p.envAfter w := by
  unfold envAfter Interpreter.reportDepth
  cases p w with
  | ok a w' => rfl
  | error s w' =>
    cases s with
    | returned | exhausted => rfl
    | fault f =>
      cases f with
      | limit l => cases l <;> rfl
      | _ => rfl

/-- Running a program enters the functions that it defines. -/
theorem Interpreter.records_run (g : Grant) (program : Block) :
    Records (Interpreter.run g program) (Interpreter.defined g program) := by
  have hnote : Records (note 1 ("run: " ++ program.length.repr ++ " top-level statements"))
      fun _ => [] := fun _ => rfl
  refine hnote.after fun _ => Records.ensuring (fun w => ?_) fun _ => rfl
  rw [Interpreter.envAfter_reportDepth]
  exact Stmt.records_execAll g program w

/-- Only functions of the list are defined. -/
def DefinesOnly (fs : List Function) (ds : World → List Function) : Prop := ∀ w, ds w ⊆ fs

section DefinesOnly

variable {α : Type} {p : Exec α} {fs fs' : List Function} {ds : World → List Function}

theorem DefinesOnly.mono (h : DefinesOnly fs ds) (hfs : fs ⊆ fs') : DefinesOnly fs' ds :=
  fun w => List.Subset.trans (h w) hfs

theorem definesOnly_none : DefinesOnly fs fun _ => [] := fun _ => List.nil_subset _

theorem definesOnly_after {es : α → World → List Function} (h : ∀ a, DefinesOnly fs (es a)) :
    DefinesOnly fs (after p es) := by
  intro w
  unfold after
  split
  · exact h _ _
  · exact List.nil_subset _

theorem definesOnly_ite {es es' : World → List Function} (h : DefinesOnly fs es)
    (h' : DefinesOnly fs es') (test : Exec Bool) :
    DefinesOnly fs (after test fun b => if b = true then es else es') := by
  refine definesOnly_after fun b => ?_
  cases b with
  | true => exact h
  | false => exact h'

theorem definesOnly_append {es : World → List Function} (h : DefinesOnly fs ds)
    (h' : DefinesOnly fs es) : DefinesOnly fs fun w => ds w ++ es w :=
  fun w => List.append_subset.mpr ⟨h w, h' w⟩

theorem definesOnly_repeated (h : DefinesOnly fs ds) (test : Exec Bool) (pass : Exec Unit)
    (passes : Nat) : DefinesOnly fs (repeated test pass ds passes) := by
  induction passes with
  | zero => exact definesOnly_none
  | succ passes ih =>
    refine definesOnly_ite (definesOnly_append h ?_) definesOnly_none test
    exact definesOnly_after fun _ => ih

theorem Loop.definesOnly_defined (h : DefinesOnly fs ds) (x : String) (start stop step : Int)
    (pass : Exec Unit) (passes : Nat) :
    DefinesOnly fs (Loop.defined x start stop step pass ds passes) := by
  unfold Loop.defined
  split
  · exact definesOnly_none
  · exact definesOnly_none
  · exact definesOnly_repeated h _ _ passes

end DefinesOnly

mutual

/-- What running a statement defines stands in the statement. -/
theorem Stmt.definesOnly (g : Grant) (s : Stmt) : DefinesOnly s.functions (s.defined g) := by
  cases s with
  | assign | print | headless | ret | bare | hole => exact definesOnly_none
  | ifElse c body arms =>
    refine definesOnly_ite ?_ ?_ _
    · exact (Stmt.definesOnly_all g body).mono (List.subset_append_left _ _)
    · exact (Arms.definesOnly g arms).mono (List.subset_append_right _ _)
  | forRange x args body =>
    refine definesOnly_after fun (b, stop) => ?_
    exact Loop.definesOnly_defined (Stmt.definesOnly_all g body) x b.start stop b.step _ g.passes
  | define name params body registered =>
    intro w
    rw [Stmt.defined]
    split
    · exact List.nil_subset _
    · exact List.cons_subset.mpr ⟨List.mem_cons_self, List.nil_subset _⟩
  | block body => exact Stmt.definesOnly_all g body
  | guarded c body => exact definesOnly_ite (Stmt.definesOnly_all g body) definesOnly_none _

theorem Arms.definesOnly (g : Grant) (arms : Arms) :
    DefinesOnly arms.functions (arms.defined g) := by
  cases arms with
  | done => exact definesOnly_none
  | otherwise body => exact definesOnly_after fun _ => Stmt.definesOnly_all g body
  | elif c body rest =>
    refine definesOnly_ite ?_ ?_ _
    · exact (Stmt.definesOnly_all g body).mono (List.subset_append_left _ _)
    · exact (Arms.definesOnly g rest).mono (List.subset_append_right _ _)

theorem Stmt.definesOnly_all (g : Grant) (ss : List Stmt) :
    DefinesOnly (Stmt.allFunctions ss) (Stmt.allDefined g ss) := by
  cases ss with
  | nil => exact definesOnly_none
  | cons s ss =>
    refine definesOnly_append ?_ (definesOnly_after fun _ => ?_)
    · exact (Stmt.definesOnly g s).mono (List.subset_append_left _ _)
    · exact (Stmt.definesOnly_all g ss).mono (List.subset_append_right _ _)

end

theorem Interpreter.definesOnly (g : Grant) (program : Block) :
    DefinesOnly (Stmt.allFunctions program) (Interpreter.defined g program) :=
  definesOnly_after fun _ => Stmt.definesOnly_all g program

end TinyScript
