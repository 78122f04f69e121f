import TinyScript.Proofs.Eval.Frame

/-!
# What a run can change

A run changes the variables that it assigns and the functions that it defines, and nothing else
(`exec_changes_only_assigned`). This holds however the run ends, also when several names share one
value, and also for names that are used as loop variables. Once a loop has bound its variable, the
variable is unbound when the loop is over, whatever the passes did to it.
-/

namespace TinyScript

open Exec

mutual

/-- Whether a statement defines a function, outside the bodies of other functions. -/
def Stmt.defines (f : String) : Stmt → Bool
  | .define name _ _ _ => name = f
  | .ifElse _ body arms => Stmt.definesAny f body || arms.defines f
  | .headless arms => arms.defines f
  | .forRange _ _ body | .block body | .guarded _ body => Stmt.definesAny f body
  | .assign .. | .print _ | .ret _ | .bare _ | .hole => false

def Arms.defines (f : String) : Arms → Bool
  | .done => false
  | .otherwise body => Stmt.definesAny f body
  | .elif _ body rest => Stmt.definesAny f body || rest.defines f

def Stmt.definesAny (f : String) : List Stmt → Bool
  | [] => false
  | s :: ss => s.defines f || Stmt.definesAny f ss

end

/-- The environment in which a run ends, however it ends. -/
def Exec.envAfter {α : Type} (p : Exec α) (w : World) : Env :=
  match p w with
  | .ok _ w' | .error _ w' => w'.env

/-- What a step keeps holds where its runs end. -/
theorem Exec.Within.envAfter {α : Type} {I : Env → Prop} {F : Stop → Prop} {p : Exec α}
    {Q : α → Prop} (h : Within I F p Q) {w : World} (hw : I w.env) : I (p.envAfter w) := by
  have hend := h w hw
  unfold Exec.envAfter
  cases hr : p w with
  | ok a w' | error a w' =>
    rw [hr] at hend
    exact hend.1

theorem Framed.find?_envAfter {α : Type} {A : String → Bool} {p : Exec α} (h : Framed A p)
    (w : World) {x : String} (hx : A x = false) :
    (p.envAfter w).bindings.find? x = w.env.bindings.find? x :=
  ((h w.env).envAfter (Frame.refl A w.env)).kept x hx (w.env.cell_lt x)

section Functions

variable {α : Type} {I : Table Function → Prop} {f : String} {o : Option Function}

/-- A step that keeps what holds of the functions, however it ends. -/
def KeepsFunctions (I : Table Function → Prop) (p : Exec α) : Prop :=
  Within (fun env => I env.functions) (fun _ => True) p fun _ => True

theorem keepsFunctions_ask (query : Env → Except Fault α) : KeepsFunctions I (ask query) :=
  within_ask fun _ _ => answers_of_true _

theorem keepsFunctions_assign (g : Grant) (x : String) (e : Expr) :
    KeepsFunctions I (assign g x e) := by
  refine (keepsFunctions_ask _).bind fun v _ => ?_
  have hset : KeepsFunctions I (Exec.change (·.set x v)) := within_change fun _ henv => henv
  refine hset.bind fun _ _ => ?_
  exact (within_ofExcept (answers_of_true _)).bind fun _ _ => within_trace _ _

theorem keepsFunctions_printAll (g : Grant) (es : List Expr) : KeepsFunctions I (printAll g es) :=
  (keepsFunctions_ask _).bind fun line _ => within_print line

/-- Counting changes values only. -/
theorem Env.functions_increment {env env' : Env} {x : String} {amount : Int}
    (h : env.increment x amount = .ok env') : env'.functions = env.functions := by
  unfold Env.increment at h
  split at h
  · cases h
  · next b hb =>
    cases hv : b.value.increment amount with
    | error fault =>
      rw [hv] at h
      cases h
    | ok v =>
      rw [hv] at h
      cases h
      rfl

/-- A change that leaves the functions as they are if it succeeds. -/
theorem keepsFunctions_tryChange {change : Env → Except Fault Env}
    (h : ∀ {env env'}, change env = .ok env' → env'.functions = env.functions) :
    KeepsFunctions I (tryChange change) := by
  apply within_tryChange
  intro env henv
  cases hchange : change env with
  | error fault => trivial
  | ok env' =>
    show I env'.functions
    rw [h hchange]
    exact henv

/-- A step that leaves the entry `o` of the function name `f` as it is. -/
def KeepsFunction (f : String) (o : Option Function) (p : Exec Unit) : Prop :=
  Within (fun env => env.functions.find? f = o) (fun _ => True) p fun _ => True

theorem keepsFunction_define {name : String} (hname : name ≠ f) (params : List String)
    (body : Block) : KeepsFunction f o (define name params body) := by
  refine (within_change fun env henv => ?_).bind fun _ _ => within_trace _ _
  rw [Env.register, Table.find?_insert, if_neg hname]
  exact henv

theorem keepsFunction_condition (g : Grant) (c : Expr) :
    Within (fun env => env.functions.find? f = o) (fun _ => True) (condition g c) fun _ => True :=
  keepsFunctions_ask (I := (·.find? f = o)) _

theorem keepsFunction_runLoop (room passes : Nat) (x : String) (args : List Expr)
    {pass : Exec Unit} (h : KeepsFunction f o pass) :
    KeepsFunction f o (runLoop room passes x args pass) := by
  apply within_runLoop (J := fun _ cur => cur.functions.find? f = o)
  · exact fun _ _ _ _ => trivial
  · exact fun env n henv _ => henv
  · intro env start stop step _ _
    apply within_run
    · exact fun direction =>
        (within_ask fun _ _ => answers_of_true _).bind fun _ _ => within_pure trivial
    · exact h
    · exact keepsFunctions_tryChange (I := (·.find? f = o)) Env.functions_increment
    · trivial
    · trivial
  · exact fun env cur _ _ hcur => hcur

end Functions

mutual

/-- A statement leaves alone the functions that it does not define. -/
theorem Stmt.keepsFunction (g : Grant) {f : String} {o : Option Function} (s : Stmt)
    (h : s.defines f = false) : KeepsFunction f o (s.exec g) := by
  cases s with
  | assign x e => exact keepsFunctions_assign (I := (·.find? f = o)) g x e
  | print es => exact keepsFunctions_printAll (I := (·.find? f = o)) g es
  | ifElse c body arms =>
    obtain ⟨hbody, harms⟩ := Bool.or_eq_false_iff.mp h
    have htaken : KeepsFunction f o (Stmt.execAll g body) := Stmt.keepsFunction_all g body hbody
    have hother : KeepsFunction f o (arms.exec g 1) := Arms.keepsFunction g 1 arms harms
    exact (keepsFunction_condition g c).ite (htaken.bind fun _ _ => within_trace _ _) hother
  | headless arms => exact within_throw trivial
  | forRange x args body =>
    exact keepsFunction_runLoop g.room g.passes x args (Stmt.keepsFunction_all g body h)
  | define name params body registered =>
    cases registered with
    | true => exact within_pure trivial
    | false => exact keepsFunction_define (of_decide_eq_false h) params body
  | ret e => exact (within_ask fun _ _ => answers_of_true _).bind fun v _ => within_throw trivial
  | bare e => exact (within_ask fun _ _ => answers_of_true _).bind fun v _ => within_pure trivial
  | block body => exact Stmt.keepsFunction_all g body h
  | guarded c body =>
    exact (keepsFunction_condition g c).ite (Stmt.keepsFunction_all g body h) (within_pure trivial)
  | hole => exact within_throw trivial

theorem Arms.keepsFunction (g : Grant) {f : String} {o : Option Function} (index : Nat)
    (arms : Arms) (h : arms.defines f = false) : KeepsFunction f o (arms.exec g index) := by
  cases arms with
  | done => exact within_pure trivial
  | otherwise body => exact (within_trace _ _).bind fun _ _ => Stmt.keepsFunction_all g body h
  | elif c body rest =>
    obtain ⟨hbody, hrest⟩ := Bool.or_eq_false_iff.mp h
    have htaken : KeepsFunction f o (Stmt.execAll g body) := Stmt.keepsFunction_all g body hbody
    have hother : KeepsFunction f o (rest.exec g (index + 1)) :=
      Arms.keepsFunction g (index + 1) rest hrest
    exact (keepsFunction_condition g c).ite (htaken.bind fun _ _ => within_trace _ _) hother

theorem Stmt.keepsFunction_all (g : Grant) {f : String} {o : Option Function} (ss : List Stmt)
    (h : Stmt.definesAny f ss = false) : KeepsFunction f o (Stmt.execAll g ss) := by
  cases ss with
  | nil => exact within_pure trivial
  | cons s ss =>
    obtain ⟨hfirst, hmore⟩ := Bool.or_eq_false_iff.mp h
    have hrun : KeepsFunction f o (s.exec g) := Stmt.keepsFunction g s hfirst
    exact hrun.bind fun _ _ => Stmt.keepsFunction_all g ss hmore

end

/-- The variable of a loop is unbound when the passes are over, however they end. -/
theorem Loop.find?_passes (x : String) (b : Bounds) (stop : Int) (pass : Exec Unit) (passes : Nat)
    (w : World) : ((Loop.passes x b stop pass passes).envAfter w).bindings.find? x = none := by
  unfold Exec.envAfter Loop.passes Exec.ensuring
  cases Loop.run x b.start stop b.step pass passes w with
  | ok _ w' | error _ w' => simp [Env.erase]

/-- A run leaves every variable that it does not assign with the binding it had, and every function
name that it does not define with the function it had; a loop variable counts as assigned only if an
assignment names it. A loop either is refused before it binds its variable, and then nothing
happens; or it binds the variable, and then the variable is unbound in the end. -/
theorem exec_changes_only_assigned (g : Grant) (w : World) :
    (∀ s : Stmt,
      (∀ x, s.assigns x = false →
        ((s.exec g).envAfter w).bindings.find? x = w.env.bindings.find? x) ∧
      ∀ f, s.defines f = false →
        ((s.exec g).envAfter w).functions.find? f = w.env.functions.find? f) ∧
    (∀ ss : List Stmt,
      (∀ x, Stmt.assignsAny x ss = false →
        ((Stmt.execAll g ss).envAfter w).bindings.find? x = w.env.bindings.find? x) ∧
      ∀ f, Stmt.definesAny f ss = false →
        ((Stmt.execAll g ss).envAfter w).functions.find? f = w.env.functions.find? f) ∧
    ∀ x args body,
      (∃ f, Loop.Refused w.env g.room x args f ∧
        (Stmt.forRange x args body).exec g w = .error (.fault f) w) ∨
      ∃ b stop w₁, w₁.env = w.env.set x (.int b.start) ∧
        (Stmt.forRange x args body).exec g w =
          Loop.passes x b stop (Stmt.execAll g body) g.passes w₁ ∧
        (((Stmt.forRange x args body).exec g).envAfter w).bindings.find? x = none := by
  refine ⟨fun s => ⟨fun x hx => ?_, fun f hf => ?_⟩, fun ss => ⟨fun x hx => ?_, fun f hf => ?_⟩, ?_⟩
  · exact (Stmt.framed g s).find?_envAfter w hx
  · exact (Stmt.keepsFunction g s hf).envAfter rfl
  · exact (Stmt.framed_all g ss).find?_envAfter w hx
  · exact (Stmt.keepsFunction_all g ss hf).envAfter rfl
  · intro x args body
    rcases runLoop_cases g.room x args w with ⟨f, hf, heq⟩ | ⟨b, stop, w₁, -, -, -, hw₁, heq⟩
    · exact .inl ⟨f, hf, heq g.passes (Stmt.execAll g body)⟩
    · have hrun : (Stmt.forRange x args body).exec g w =
          Loop.passes x b stop (Stmt.execAll g body) g.passes w₁ :=
        heq g.passes (Stmt.execAll g body)
      refine .inr ⟨b, stop, w₁, hw₁, hrun, ?_⟩
      unfold Exec.envAfter
      rw [hrun]
      exact Loop.find?_passes x b stop (Stmt.execAll g body) g.passes w₁

/-- The names `a` and `b` share one value. -/
def sharedValue : Env :=
  (Env.empty.set "a" (.int 1)).bindAlso "b" ⟨.int 1, 0⟩ Nat.one_pos

/-- A loop that assigns `a` and its own variable, defines a function, and then fails. -/
def failingLoop : Stmt :=
  .forRange "i" [.int 3]
    [.assign "a" (.var "i"), .define "f" [] [] false, .assign "i" (.str "x"), .print [.var "y"]]

theorem exec_failingLoop :
    failingLoop.assigns "b" = false ∧ failingLoop.defines "g" = false ∧
      ((failingLoop.exec ⟨10, 5⟩).envAfter ⟨sharedValue, "", ⟨0, #[]⟩, true⟩).bindings.find? "b" =
        sharedValue.bindings.find? "b" ∧
      ((failingLoop.exec ⟨10, 5⟩).envAfter ⟨sharedValue, "", ⟨0, #[]⟩, true⟩).functions.find? "g" =
        none := by
  obtain ⟨hvariables, hfunctions⟩ :=
    (exec_changes_only_assigned ⟨10, 5⟩ ⟨sharedValue, "", ⟨0, #[]⟩, true⟩).1 failingLoop
  exact ⟨by decide, by decide, hvariables "b" (by decide), hfunctions "g" (by decide)⟩

end TinyScript
