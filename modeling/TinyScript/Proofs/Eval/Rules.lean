import TinyScript.Eval.Stmt

/-!
# Rules for runs

`Within I F p Q` says what is known of every run of the step `p` that begins in an environment with
the property `I`: it ends in an environment with that property, however it ends; a result satisfies
`Q`, and a reason to stop satisfies `F`. There is one rule for each way in which steps are put
together, so a property of all statements is proved by giving what holds of the few steps that touch
the environment.

`Loop.enter_cases` says all that a loop can do before its first pass.
-/

namespace TinyScript.Exec

section Bind

variable {α β : Type} {p : Exec α} {f : α → Exec β} {w w' : World} {a : α}

theorem bind_of_ok (h : p w = .ok a w') : (p >>= f) w = f a w' := by
  simp only [bind, EStateM.bind, h]

theorem bind_of_error {s : Stop} (h : p w = .error s w') : (p >>= f) w = .error s w' := by
  simp only [bind, EStateM.bind, h]

variable {query : Env → Except Fault α}

theorem ask_of_ok (h : query w.env = .ok a) : ask query w = .ok a w := by
  simp only [ask, h]

theorem ask_of_error {e : Fault} (h : query w.env = .error e) :
    ask query w = .error (.fault e) w := by
  simp only [ask, h]

end Bind

/-- What is known of the end of a run. -/
def Ended {α : Type} (I : Env → Prop) (F : Stop → Prop) (Q : α → Prop) :
    EStateM.Result Stop World α → Prop
  | .ok a w => I w.env ∧ Q a
  | .error s w => I w.env ∧ F s

/-- What is known of every run that begins where `I` holds. -/
def Within {α : Type} (I : Env → Prop) (F : Stop → Prop) (p : Exec α) (Q : α → Prop) : Prop :=
  ∀ w, I w.env → Ended I F Q (p w)

/-- What an answer of the environment tells. -/
def Answers {α : Type} (F : Stop → Prop) (Q : α → Prop) : Except Fault α → Prop
  | .ok a => Q a
  | .error f => F (.fault f)

section Answers

variable {α β : Type} {F : Stop → Prop} {Q : α → Prop} {R : β → Prop} {r : Except Fault α}

theorem Answers.bind {f : α → Except Fault β} (h : Answers F Q r)
    (hf : ∀ a, Q a → Answers F R (f a)) : Answers F R (r >>= f) := by
  cases r with
  | ok a => exact hf a h
  | error e => exact h

theorem Answers.map {f : α → β} (h : Answers F Q r) (hf : ∀ a, Q a → R (f a)) :
    Answers F R (r.map f) := by
  cases r with
  | ok a => exact hf a h
  | error e => exact h

/-- Of an answer about which nothing is asked. -/
theorem answers_of_true (r : Except Fault α) : Answers (fun _ => True) (fun _ => True) r := by
  cases r with
  | ok a => trivial
  | error f => trivial

/-- Queries one after the other give an answer for each. -/
theorem answers_mapM {f : α → Except Fault β} {xs : List α} (h : ∀ x ∈ xs, Answers F R (f x)) :
    Answers F (fun ys => ys.length = xs.length ∧ ∀ y ∈ ys, R y) (xs.mapM f) := by
  induction xs with
  | nil => exact ⟨rfl, nofun⟩
  | cons x xs ih =>
    rw [List.mapM_cons]
    refine (h x List.mem_cons_self).bind fun y hy => ?_
    refine (ih fun x' hx' => h x' (List.mem_cons_of_mem _ hx')).bind fun ys hys => ?_
    exact ⟨congrArg Nat.succ hys.1, List.forall_mem_cons.mpr ⟨hy, hys.2⟩⟩

end Answers

section Within

variable {α β : Type} {I : Env → Prop} {F : Stop → Prop} {p : Exec α} {f : α → Exec β}
variable {Q : α → Prop} {R : β → Prop}

theorem within_pure {a : α} (h : Q a) : Within I F (pure a) Q :=
  fun _ hw => ⟨hw, h⟩

theorem within_throw {s : Stop} (h : F s) : Within I F (throw s : Exec α) Q :=
  fun _ hw => ⟨hw, h⟩

theorem Within.bind (h : Within I F p Q) (hf : ∀ a, Q a → Within I F (f a) R) :
    Within I F (p >>= f) R := by
  intro w hw
  have hp := h w hw
  cases hr : p w with
  | ok a w' =>
    rw [hr] at hp
    rw [bind_of_ok hr]
    exact hf a hp.2 w' hp.1
  | error s w' =>
    rw [hr] at hp
    rw [bind_of_error hr]
    exact hp

theorem within_ask {query : Env → Except Fault α} (h : ∀ env, I env → Answers F Q (query env)) :
    Within I F (ask query) Q := by
  intro w hw
  have hq := h w.env hw
  unfold ask
  cases hr : query w.env with
  | ok a =>
    rw [hr] at hq
    exact ⟨hw, hq⟩
  | error e =>
    rw [hr] at hq
    exact ⟨hw, hq⟩

theorem within_ofExcept {r : Except Fault α} (h : Answers F Q r) : Within I F (ofExcept r) Q := by
  cases r with
  | ok a => exact within_pure h
  | error e => exact within_throw h

theorem within_change {change : Env → Env} (h : ∀ env, I env → I (change env)) :
    Within I F (Exec.change change) fun _ => True :=
  fun w hw => ⟨h w.env hw, trivial⟩

theorem within_tryChange {change : Env → Except Fault Env}
    (h : ∀ env, I env → Answers F I (change env)) :
    Within I F (tryChange change) fun _ => True := by
  intro w hw
  have hc := h w.env hw
  unfold tryChange
  cases hr : change w.env with
  | ok env =>
    rw [hr] at hc
    exact ⟨hc, trivial⟩
  | error e =>
    rw [hr] at hc
    exact ⟨hw, hc⟩

theorem within_print (text : String) : Within I F (print text) fun _ => True :=
  fun _ hw => ⟨hw, trivial⟩

theorem env_trace (level : Int) (text : Thunk String) (w : World) :
    ∃ w', trace level text w = .ok () w' ∧ w'.env = w.env := by
  refine ⟨_, rfl, ?_⟩
  split <;> rfl

theorem within_trace (level : Int) (text : Thunk String) :
    Within I F (trace level text) fun _ => True := by
  intro w hw
  obtain ⟨w', hr, henv⟩ := env_trace level text w
  rw [hr]
  refine ⟨?_, trivial⟩
  rwa [henv]

theorem within_note (level : Int) (text : Thunk String) :
    Within I F (note level text) fun _ => True :=
  fun _ hw => ⟨hw, trivial⟩

/-- What is done in the end may turn one property of the environment into another. -/
theorem Ended.ensuring {J : Env → Prop} {w : World} (h : Ended J F Q (p w))
    {change : World → World} (hchange : ∀ w', J w'.env → I (change w').env) :
    Ended I F Q (ensuring p change w) := by
  unfold Exec.ensuring
  cases hr : p w with
  | ok a w' | error a w' =>
    rw [hr] at h
    exact ⟨hchange w' h.1, h.2⟩

theorem Within.ite {q : Exec β} {p : Exec β} {test : Exec Bool} (h : Within I F test fun _ => True)
    (hp : Within I F p R) (hq : Within I F q R) :
    Within I F (test >>= fun b => if b = true then p else q) R := by
  refine h.bind ?_
  intro b _
  cases b with
  | true => exact hp
  | false => exact hq

/-- What every pass keeps is kept by the whole loop. -/
theorem within_repeatWhile {test : Exec Bool} {pass : Exec Unit}
    (htest : Within I F test fun _ => True) (hpass : Within I F pass fun _ => True)
    (hstop : F .exhausted) (passes : Nat) :
    Within I F (repeatWhile test pass passes) fun _ => True := by
  induction passes with
  | zero => exact htest.ite (within_throw hstop) (within_pure trivial)
  | succ passes ih =>
    refine htest.ite ?_ (within_pure trivial)
    exact hpass.bind fun _ _ => ih

end Within

end TinyScript.Exec

namespace TinyScript

open Exec

/-- Why a loop makes no pass: its bounds cannot be had, its variable is taken, it has no end, or its
bounds cannot be shown. -/
inductive Loop.Refused (env : Env) (room : Nat) (x : String) (args : List Expr) : Fault → Prop where
  | bounds {f : Fault} (h : Loop.bounds env room args = .error f) : Refused env room x args f
  | taken (h : env.exists? x = true) : Refused env room x args (.loop (.variableTaken x))
  | endless {b : Bounds} (h : Loop.bounds env room args = .ok b) (hb : b.stop = none) :
      Refused env room x args (.loop .missingEnd)
  | digits : Refused env room x args (.limit .digits)

/-- A loop that is not refused writes to the trace and binds its variable. -/
theorem Loop.enter_eq {room : Nat} {x : String} {args : List Expr} {b : Bounds} {stop : Int}
    {w : World} (hbounds : Loop.bounds w.env room args = .ok b) (hstop : b.stop = some stop)
    (hfree : w.env.exists? x = false) (hcheck : Loop.checkBounds b.start stop b.step = .ok ()) :
    Loop.enter room x args w =
      (trace 2 (Loop.headline x b.start stop b.step) >>= fun _ =>
        Exec.change (·.set x (.int b.start)) >>= fun _ => pure (b, stop)) w := by
  have hask : Exec.ask (fun env => Loop.bounds env room args) w = .ok b w := ask_of_ok hbounds
  have hget : (get : Exec World) w = .ok w w := rfl
  have hfree' : ¬w.env.exists? x = true := by rw [hfree]; exact Bool.false_ne_true
  obtain ⟨w', htrace, henv⟩ := env_trace 2 (Loop.headline x b.start stop b.step) w
  have hcreate : Exec.tryChange (·.create x b.start) w' =
      Exec.change (·.set x (.int b.start)) w' := by
    simp only [Exec.tryChange, Exec.change, henv, Env.create, if_neg hfree']
  rw [Loop.enter, bind_of_ok hask, bind_of_ok hget, if_neg hfree', hstop]
  simp only [hcheck]
  rw [bind_of_ok (show Exec.ofExcept (.ok ()) w = .ok () w from rfl), bind_of_ok htrace,
    bind_of_ok htrace, bind_of_ok (hcreate.trans rfl)]
  rfl

/-- A loop either is refused and has no effect, or its variable is bound to the start in a cell of
its own. -/
theorem Loop.enter_cases (room : Nat) (x : String) (args : List Expr) (w : World) :
    (∃ f, Loop.Refused w.env room x args f ∧ Loop.enter room x args w = .error (.fault f) w) ∨
    ∃ b stop w₁, Loop.bounds w.env room args = .ok b ∧ b.stop = some stop ∧
      w.env.exists? x = false ∧ w₁.env = w.env.set x (.int b.start) ∧
      Loop.enter room x args w = .ok (b, stop) w₁ := by
  cases hbounds : Loop.bounds w.env room args with
  | error f =>
    exact .inl ⟨f, .bounds hbounds, bind_of_error (ask_of_error hbounds)⟩
  | ok b =>
    have hask : Exec.ask (fun env => Loop.bounds env room args) w = .ok b w := ask_of_ok hbounds
    have hget : (get : Exec World) w = .ok w w := rfl
    cases hexists : w.env.exists? x with
    | true =>
      refine .inl ⟨_, .taken hexists, ?_⟩
      rw [Loop.enter, bind_of_ok hask, bind_of_ok hget, if_pos hexists]
      rfl
    | false =>
      have hfree : ¬w.env.exists? x = true := by rw [hexists]; exact Bool.false_ne_true
      cases hstop : b.stop with
      | none =>
        refine .inl ⟨_, .endless hbounds hstop, ?_⟩
        rw [Loop.enter, bind_of_ok hask, bind_of_ok hget, if_neg hfree, hstop]
        rfl
      | some stop =>
        cases hcheck : Loop.checkBounds b.start stop b.step with
        | error f =>
          have hdigits : f = .limit .digits := by
            unfold Loop.checkBounds at hcheck
            split at hcheck
            · cases hcheck
            · cases hcheck
              rfl
          rw [hdigits] at hcheck
          refine .inl ⟨_, .digits, ?_⟩
          rw [Loop.enter, bind_of_ok hask, bind_of_ok hget, if_neg hfree, hstop]
          simp only [hcheck]
          rfl
        | ok u =>
          obtain ⟨w', htrace, henv⟩ := env_trace 2 (Loop.headline x b.start stop b.step) w
          refine .inr ⟨b, stop, { w' with env := w'.env.set x (.int b.start) }, rfl, hstop, rfl,
            congrArg (·.set x (.int b.start)) henv, ?_⟩
          rw [Loop.enter_eq hbounds hstop hexists hcheck, bind_of_ok htrace]
          rfl

/-- A loop that is not refused writes to the trace and binds its variable before it goes on to its
passes. -/
theorem runLoop_eq {room : Nat} {x : String} {args : List Expr} {b : Bounds} {stop : Int}
    {w : World} (hbounds : Loop.bounds w.env room args = .ok b) (hstop : b.stop = some stop)
    (hfree : w.env.exists? x = false) (hcheck : Loop.checkBounds b.start stop b.step = .ok ())
    (passes : Nat) (pass : Exec Unit) :
    runLoop room passes x args pass w =
      (trace 2 (Loop.headline x b.start stop b.step) >>= fun _ =>
        Exec.change (·.set x (.int b.start)) >>= fun _ => Loop.passes x b stop pass passes) w := by
  obtain ⟨w', htrace, -⟩ := env_trace 2 (Loop.headline x b.start stop b.step) w
  have henter := Loop.enter_eq hbounds hstop hfree hcheck
  rw [bind_of_ok htrace] at henter
  rw [runLoop, bind_of_ok (henter.trans rfl), bind_of_ok htrace]
  rfl

/-- A loop either is refused and has no effect, or goes on to its passes with its variable bound to
the start in a cell of its own. Which of the two does not depend on what a pass does. -/
theorem runLoop_cases (room : Nat) (x : String) (args : List Expr) (w : World) :
    (∃ f, Loop.Refused w.env room x args f ∧
      ∀ passes pass, runLoop room passes x args pass w = .error (.fault f) w) ∨
    ∃ b stop w₁, Loop.bounds w.env room args = .ok b ∧ b.stop = some stop ∧
      w.env.exists? x = false ∧ w₁.env = w.env.set x (.int b.start) ∧
      ∀ passes pass, runLoop room passes x args pass w = Loop.passes x b stop pass passes w₁ := by
  rcases Loop.enter_cases room x args w with
    ⟨f, hf, henter⟩ | ⟨b, stop, w₁, hbounds, hstop, hfree, hw₁, henter⟩
  · exact .inl ⟨f, hf, fun passes pass => bind_of_error henter⟩
  · exact .inr ⟨b, stop, w₁, hbounds, hstop, hfree, hw₁, fun passes pass => bind_of_ok henter⟩

section Within

variable {I : Env → Prop} {F : Stop → Prop} {room passes : Nat} {x : String} {pass : Exec Unit}

/-- The passes of a loop keep what the test, a pass and the count keep. -/
theorem within_run {start stop step : Int}
    (htest : ∀ direction, Within I F (Loop.test x direction stop) fun _ => True)
    (hpass : Within I F pass fun _ => True)
    (hcount : Within I F (tryChange (·.increment x step)) fun _ => True)
    (hrange : F (.fault (.loop (.badRange start stop step)))) (hstop : F .exhausted) :
    Within I F (Loop.run x start stop step pass passes) fun _ => True := by
  unfold Loop.run
  split
  · exact within_throw hrange
  · exact within_pure trivial
  · exact within_repeatWhile (htest _) (hpass.bind fun _ _ => hcount) hstop passes

/-- A loop keeps `I` if its passes keep what holds while its variable is bound. That may speak of
the environment before the loop. -/
theorem within_runLoop {J : Env → Env → Prop} {args : List Expr}
    (hrefused : ∀ env f, I env → Loop.Refused env room x args f → F (.fault f))
    (hbegin : ∀ env n, I env → env.exists? x = false → J env (env.set x (.int n)))
    (hrun : ∀ env start stop step, I env → env.exists? x = false →
      Within (J env) F (Loop.run x start stop step pass passes) fun _ => True)
    (hend : ∀ env cur, I env → env.exists? x = false → J env cur → I (cur.erase x)) :
    Within I F (runLoop room passes x args pass) fun _ => True := by
  intro w hw
  rcases runLoop_cases room x args w with ⟨f, hf, heq⟩ | ⟨b, stop, w₁, -, -, hfree, hw₁, heq⟩
  · rw [heq]
    exact ⟨hw, hrefused w.env f hw hf⟩
  · have hstart : J w.env w₁.env := by
      rw [hw₁]
      exact hbegin w.env b.start hw hfree
    have hpasses := hrun w.env b.start stop b.step hw hfree w₁ hstart
    rw [heq, Loop.passes]
    exact hpasses.ensuring fun cur hcur => hend w.env cur.env hw hfree hcur

end Within

end TinyScript
