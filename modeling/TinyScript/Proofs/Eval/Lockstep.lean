import TinyScript.Proofs.Eval.Rules

/-!
# Two runs side by side

`Lockstep R` says that a relation between worlds is kept when the same is done in both of them: the
same change of the environment, the same text printed, the same message offered. Related worlds have
the same environment, so no step can tell them apart. Whatever such a relation is, a statement that
is run in two related worlds ends in the same way in both, and in related worlds
(`Stmt.parallel`).
-/

namespace TinyScript

/-- The relation is kept by what a step can do, and does not reach the environment. -/
structure Lockstep (R : World → World → Prop) : Prop where
  env {w w' : World} : R w w' → w'.env = w.env
  change {w w' : World} (env : Env) : R w w' → R { w with env } { w' with env }
  print {w w' : World} (text : String) : R w w' →
    R { w with output := w.output ++ text } { w' with output := w'.output ++ text }
  trace {w w' : World} (level : Int) (text : Thunk String) : R w w' →
    R (if w.traced then { w with log := w.log.note level text } else w)
      (if w'.traced then { w' with log := w'.log.note level text } else w')

/-- Two runs end in the same way, and in related worlds. -/
inductive Together {α : Type} (R : World → World → Prop) :
    EStateM.Result Stop World α → EStateM.Result Stop World α → Prop where
  | ok {a : α} {w w' : World} (h : R w w') : Together R (.ok a w) (.ok a w')
  | error {s : Stop} {w w' : World} (h : R w w') : Together R (.error s w) (.error s w')

/-- From related worlds the step goes the same way. -/
def Exec.Parallel {α : Type} (R : World → World → Prop) (p : Exec α) : Prop :=
  ∀ w w', R w w' → Together R (p w) (p w')

theorem Together.imp {α : Type} {R S : World → World → Prop} {r r' : EStateM.Result Stop World α}
    (h : Together R r r') (hRS : ∀ w w', R w w' → S w w') : Together S r r' := by
  cases h with
  | ok h => exact .ok (hRS _ _ h)
  | error h => exact .error (hRS _ _ h)

/-- Steps that may differ, each followed by another. -/
theorem Together.bind {α β : Type} {R : World → World → Prop} {p p' : Exec α} {f f' : α → Exec β}
    {w w' : World} (h : Together R (p w) (p' w'))
    (hf : ∀ a v v', R v v' → Together R (f a v) (f' a v')) :
    Together R ((p >>= f) w) ((p' >>= f') w') := by
  generalize hr : p w = r at h
  generalize hr' : p' w' = r' at h
  cases h with
  | ok hv =>
    rw [Exec.bind_of_ok hr, Exec.bind_of_ok hr']
    exact hf _ _ _ hv
  | error hv =>
    rw [Exec.bind_of_error hr, Exec.bind_of_error hr']
    exact .error hv

/-- What is done in the end may turn one relation into another. -/
theorem Together.finally {α : Type} {R S : World → World → Prop} {p p' : Exec α} {w w' : World}
    (h : Together R (p w) (p' w')) {change change' : World → World}
    (hchange : ∀ v v', R v v' → S (change v) (change' v')) :
    Together S (Exec.ensuring p change w) (Exec.ensuring p' change' w') := by
  unfold Exec.ensuring
  generalize p w = r at h
  generalize p' w' = r' at h
  cases h with
  | ok hv => exact .ok (hchange _ _ hv)
  | error hv => exact .error (hchange _ _ hv)

namespace Exec

variable {α β : Type} {R : World → World → Prop} {p : Exec α} {f : α → Exec β}

theorem parallel_pure (a : α) : Parallel R (pure a) := fun _ _ hw => .ok hw

theorem parallel_throw (s : Stop) : Parallel R (throw s : Exec α) := fun _ _ hw => .error hw

theorem Parallel.bind (h : Parallel R p) (hf : ∀ a, Parallel R (f a)) : Parallel R (p >>= f) :=
  fun w w' hw => (h w w' hw).bind hf

/-- A step that looks at the world first. -/
theorem Parallel.get_bind {f : World → Exec β}
    (h : ∀ w w', R w w' → Together R (f w w) (f w' w')) : Parallel R (get >>= f) :=
  h

theorem Parallel.ite {test : Exec Bool} {p q : Exec β} (h : Parallel R test) (hp : Parallel R p)
    (hq : Parallel R q) : Parallel R (test >>= fun b => if b = true then p else q) := by
  refine h.bind fun b => ?_
  cases b with
  | true => exact hp
  | false => exact hq

theorem Parallel.ensuring {change : World → World} (h : Parallel R p)
    (hchange : ∀ w w', R w w' → R (change w) (change w')) : Parallel R (ensuring p change) :=
  fun w w' hw => (h w w' hw).finally hchange

theorem parallel_ofExcept (r : Except Fault α) : Parallel R (ofExcept r) := by
  cases r with
  | ok a => exact parallel_pure a
  | error e => exact parallel_throw _

theorem Parallel.repeatWhile {test : Exec Bool} {pass : Exec Unit} (htest : Parallel R test)
    (hpass : Parallel R pass) (passes : Nat) : Parallel R (repeatWhile test pass passes) := by
  induction passes with
  | zero => exact htest.ite (parallel_throw _) (parallel_pure ())
  | succ passes ih => exact htest.ite (hpass.bind fun _ => ih) (parallel_pure ())

/-- A query that both environments answer in the same way. -/
theorem parallel_ask_of_eq {query : Env → Except Fault α}
    (h : ∀ w w', R w w' → query w'.env = query w.env) : Parallel R (ask query) := by
  intro w w' hw
  unfold ask
  rw [h w w' hw]
  cases query w.env with
  | ok a => exact .ok hw
  | error e => exact .error hw

section Lockstep

variable (hR : Lockstep R)
include hR

theorem parallel_ask (query : Env → Except Fault α) : Parallel R (ask query) :=
  parallel_ask_of_eq fun _ _ hw => congrArg query (hR.env hw)

theorem parallel_change (change : Env → Env) : Parallel R (Exec.change change) := by
  intro w w' hw
  unfold Exec.change
  rw [hR.env hw]
  exact .ok (hR.change _ hw)

theorem parallel_tryChange (change : Env → Except Fault Env) : Parallel R (tryChange change) := by
  intro w w' hw
  unfold tryChange
  rw [hR.env hw]
  cases change w.env with
  | ok env => exact .ok (hR.change env hw)
  | error e => exact .error hw

theorem parallel_print (text : String) : Parallel R (print text) :=
  fun _ _ hw => .ok (hR.print text hw)

theorem parallel_trace (level : Int) (text : Thunk String) : Parallel R (trace level text) :=
  fun _ _ hw => .ok (hR.trace level text hw)

end Lockstep

end Exec

open Exec

section Statements

variable {R : World → World → Prop} (hR : Lockstep R)
include hR

theorem Loop.parallel_run {x : String} {start stop step : Int} {pass : Exec Unit} {passes : Nat}
    (hpass : Parallel R pass) : Parallel R (Loop.run x start stop step pass passes) := by
  unfold Loop.run
  split
  · exact parallel_throw _
  · exact parallel_pure ()
  · refine Parallel.repeatWhile ?_ (hpass.bind fun _ => parallel_tryChange hR _) passes
    exact (parallel_ask hR _).bind fun n => parallel_pure _

theorem Loop.parallel_enter {room : Nat} {x : String} {args : List Expr} :
    Parallel R (Loop.enter room x args) := by
  refine (parallel_ask hR _).bind fun bounds => Parallel.get_bind fun w w' hw => ?_
  rw [hR.env hw]
  split
  · exact .error hw
  · dsimp only
    cases bounds.stop with
    | none => exact .error hw
    | some stop =>
      refine Parallel.bind (parallel_ofExcept _) (fun _ => ?_) w w' hw
      refine (parallel_trace hR _ _).bind fun _ => (parallel_tryChange hR _).bind fun _ => ?_
      exact parallel_pure _

theorem parallel_runLoop {room passes : Nat} {x : String} {args : List Expr} {pass : Exec Unit}
    (hpass : Parallel R pass) : Parallel R (runLoop room passes x args pass) := by
  refine (Loop.parallel_enter hR).bind ?_
  rintro ⟨b, stop⟩
  refine (Loop.parallel_run hR hpass).ensuring fun v v' hv => ?_
  rw [hR.env hv]
  exact hR.change _ hv

end Statements

mutual

/-- In related worlds a statement ends in the same way. -/
theorem Stmt.parallel {R : World → World → Prop} (hR : Lockstep R) (g : Grant) (s : Stmt) :
    Parallel R (s.exec g) := by
  cases s with
  | assign x e =>
    refine (parallel_ask hR _).bind fun v => (parallel_change hR _).bind fun _ => ?_
    exact (parallel_ofExcept _).bind fun _ => parallel_trace hR _ _
  | print es => exact (parallel_ask hR _).bind fun line => parallel_print hR line
  | ifElse c body arms =>
    have hbody : Parallel R (Stmt.execAll g body) := Stmt.parallel_all hR g body
    have harms : Parallel R (arms.exec g 1) := Arms.parallel hR g 1 arms
    exact (parallel_ask hR _).ite (hbody.bind fun _ => parallel_trace hR _ _) harms
  | headless arms => exact parallel_throw _
  | forRange x args body => exact parallel_runLoop hR (Stmt.parallel_all hR g body)
  | define name params body registered =>
    cases registered with
    | true => exact parallel_pure ()
    | false => exact (parallel_change hR _).bind fun _ => parallel_trace hR _ _
  | ret e => exact (parallel_ask hR _).bind fun v => parallel_throw _
  | bare e => exact (parallel_ask hR _).bind fun v => parallel_pure ()
  | block body => exact Stmt.parallel_all hR g body
  | guarded c body =>
    exact (parallel_ask hR _).ite (Stmt.parallel_all hR g body) (parallel_pure ())
  | hole => exact parallel_throw _

theorem Arms.parallel {R : World → World → Prop} (hR : Lockstep R) (g : Grant) (index : Nat)
    (arms : Arms) : Parallel R (arms.exec g index) := by
  cases arms with
  | done => exact parallel_pure ()
  | otherwise body => exact (parallel_trace hR _ _).bind fun _ => Stmt.parallel_all hR g body
  | elif c body rest =>
    have hbody : Parallel R (Stmt.execAll g body) := Stmt.parallel_all hR g body
    have hrest : Parallel R (rest.exec g (index + 1)) := Arms.parallel hR g (index + 1) rest
    exact (parallel_ask hR _).ite (hbody.bind fun _ => parallel_trace hR _ _) hrest

theorem Stmt.parallel_all {R : World → World → Prop} (hR : Lockstep R) (g : Grant)
    (ss : List Stmt) : Parallel R (Stmt.execAll g ss) := by
  cases ss with
  | nil => exact parallel_pure ()
  | cons s ss => exact (Stmt.parallel hR g s).bind fun _ => Stmt.parallel_all hR g ss

end

end TinyScript
