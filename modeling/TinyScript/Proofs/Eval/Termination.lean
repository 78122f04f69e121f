import TinyScript.Interpreter
import TinyScript.Proofs.Eval.Frame

/-!
# Runs end

The number of passes that a loop may make is granted from outside, so running is always defined. A
run ends by itself if some grant is enough: with more passes it comes to the same end, and that end
is not a lack of passes (`Settles`). A program in which no loop assigns its own variable ends by
itself (`run_settles`). A pass leaves the variable of its loop alone, so the distance to the end of
the range gets smaller with every pass.
-/

namespace TinyScript

open Exec

mutual

/-- Whether no loop assigns its own variable in its body, outside the bodies of functions. -/
def Stmt.keepsCounters : Stmt → Bool
  | .ifElse _ body arms => Stmt.allKeepCounters body && arms.keepsCounters
  | .headless arms => arms.keepsCounters
  | .forRange x _ body => !Stmt.assignsAny x body && Stmt.allKeepCounters body
  | .block body | .guarded _ body => Stmt.allKeepCounters body
  | .assign .. | .print _ | .define .. | .ret _ | .bare _ | .hole => true

def Arms.keepsCounters : Arms → Bool
  | .done => true
  | .otherwise body => Stmt.allKeepCounters body
  | .elif _ body rest => Stmt.allKeepCounters body && rest.keepsCounters

def Stmt.allKeepCounters : List Stmt → Bool
  | [] => true
  | s :: ss => s.keepsCounters && Stmt.allKeepCounters ss

end

/-- With enough passes the run always comes to the same end, and not for lack of passes. -/
def Settles {α : Type} (p : Nat → Exec α) (w : World) : Prop :=
  ∃ N r, (∀ n, N ≤ n → p n w = r) ∧ ∀ w', r ≠ .error .exhausted w'

section Settles

variable {α β : Type} {p : Nat → Exec α} {f : Nat → α → Exec β} {w : World}

theorem settles_of_eq {r : EStateM.Result Stop World α} (h : ∀ n, p n w = r)
    (hr : ∀ w', r ≠ .error .exhausted w') : Settles p w :=
  ⟨0, r, fun n _ => h n, hr⟩

theorem settles_pure (a : α) (w : World) : Settles (fun _ => pure a) w :=
  settles_of_eq (fun _ => rfl) nofun

theorem settles_throw {s : Stop} (hs : s ≠ .exhausted) (w : World) :
    Settles (fun _ => (throw s : Exec α)) w := by
  refine settles_of_eq (fun _ => rfl) ?_
  intro w' heq
  cases heq
  exact hs rfl

theorem settles_ask (query : Env → Except Fault α) (w : World) :
    Settles (fun _ => ask query) w := by
  refine settles_of_eq (fun _ => rfl) ?_
  unfold ask
  split <;> exact nofun

theorem settles_ofExcept (r : Except Fault α) (w : World) : Settles (fun _ => ofExcept r) w := by
  cases r with
  | ok a => exact settles_pure a w
  | error f => exact settles_throw (s := .fault f) nofun w

theorem Settles.bind (h : Settles p w) (hf : ∀ a w', Settles (fun n => f n a) w') :
    Settles (fun n => p n >>= f n) w := by
  obtain ⟨N, r, hr, hend⟩ := h
  cases r with
  | ok a w' =>
    obtain ⟨M, r', hr', hend'⟩ := hf a w'
    refine ⟨max N M, r', ?_, hend'⟩
    intro n hn
    exact (bind_of_ok (hr n (by omega))).trans (hr' n (by omega))
  | error s w' =>
    refine ⟨N, .error s w', fun n hn => bind_of_error (hr n hn), ?_⟩
    intro w'' heq
    cases heq
    exact hend w' rfl

theorem Settles.ite {test : Nat → Exec Bool} {p q : Nat → Exec β} (h : Settles test w)
    (hp : ∀ w', Settles p w') (hq : ∀ w', Settles q w') :
    Settles (fun n => test n >>= fun b => if b = true then p n else q n) w := by
  refine h.bind (f := fun n b => if b = true then p n else q n) ?_
  intro b w'
  cases b with
  | true => exact hp w'
  | false => exact hq w'

/-- What is done in any case does not keep a run from ending. -/
theorem Settles.ensuring (h : Settles p w) (change : World → World) :
    Settles (fun n => ensuring (p n) change) w := by
  obtain ⟨N, r, hr, hend⟩ := h
  cases r with
  | ok a w' =>
    refine ⟨N, .ok a (change w'), ?_, nofun⟩
    intro n hn
    simp only [Exec.ensuring, hr n hn]
  | error s w' =>
    refine ⟨N, .error s (change w'), ?_, ?_⟩
    · intro n hn
      simp only [Exec.ensuring, hr n hn]
    · intro w'' heq
      cases heq
      exact hend w' rfl

end Settles

namespace Direction

/-- How far it is to the end of the range. -/
def remaining : Direction → (n stop : Int) → Nat
  | up, n, stop => (stop - n).toNat
  | down, n, stop => (n - stop).toNat
  | nowhere, _, _ => 0

/-- A step that leads to the end brings a loop nearer to it. -/
theorem remaining_lt {start stop step n : Int} {d : Direction} (hd : of? start stop step = some d)
    (hn : d.continues n stop = true) : d.remaining (n + step) stop < d.remaining n stop := by
  unfold of? at hd
  split at hd
  · next hdown =>
    cases hd
    have hlt : stop < n := of_decide_eq_true hn
    simp only [remaining]
    omega
  split at hd
  · next hup =>
    cases hd
    have hlt : n < stop := of_decide_eq_true hn
    simp only [remaining]
    omega
  split at hd
  · cases hd
    cases hn
  · cases hd

end Direction

/-- The loop variable `x` stands at `n`, in a cell that belongs to nobody else in future. -/
structure Loop.StandsAt (env : Env) (x : String) (n : Int) (cell : Nat) : Prop where
  bound : env.bindings.find? x = some ⟨.int n, cell⟩
  old : cell < env.freshCell

namespace Loop.StandsAt

variable {env env' : Env} {A : String → Bool} {x : String} {n stop step : Int} {cell : Nat}

theorem set (env : Env) (x : String) (n : Int) :
    StandsAt (env.set x (.int n)) x n env.freshCell where
  bound := by simp [Env.set]
  old := Nat.lt_succ_self _

/-- Steps that do not assign the variable leave it where it stands. -/
theorem frame (h : StandsAt env x n cell) (hx : A x = false) (hframe : Frame A env env') :
    StandsAt env' x n cell where
  bound := by
    rw [hframe.kept x hx, h.bound]
    intro b hb
    rw [h.bound] at hb
    cases hb
    exact h.old
  old := Nat.lt_of_lt_of_le h.old hframe.fresh

theorem test_eq {w : World} (h : StandsAt w.env x n cell) (direction : Direction) (stop : Int) :
    Loop.test x direction stop w = .ok (direction.continues n stop) w := by
  have hvalue : w.env.get x = .ok (.int n) := by simp [Env.get, Env.value?, h.bound]
  have hask : Exec.ask (fun env => do (← env.get x).toInt) w = .ok n w := by
    simp only [Exec.ask, hvalue]
    rfl
  rw [Loop.test, bind_of_ok hask]
  rfl

theorem increment (h : StandsAt env x n cell) (step : Int) :
    ∃ env', env.increment x step = .ok env' ∧ StandsAt env' x (n + step) cell := by
  refine ⟨env.write cell (.int (n + step)), ?_, ?_, h.old⟩
  · simp only [Env.increment, h.bound]
    rfl
  · simp [Env.write, h.bound]

end Loop.StandsAt

/-- A loop ends by itself if its passes do and leave its variable alone. The number of passes of the
loop and the number that inner loops are granted count apart. -/
theorem exists_repeatWhile {x : String} {start stop step : Int} {direction : Direction}
    (hdirection : Direction.of? start stop step = some direction) {A : String → Bool}
    (hx : A x = false) {pass : Nat → Exec Unit} (hframed : ∀ n, Framed A (pass n))
    (hpass : ∀ w, Settles pass w) {w : World} {n : Int} {cell : Nat}
    (hw : Loop.StandsAt w.env x n cell) :
    ∃ N r, (∀ inner passes, N ≤ inner → N ≤ passes →
      repeatWhile (Loop.test x direction stop)
        (pass inner >>= fun _ => tryChange (·.increment x step)) passes w = r) ∧
      ∀ w', r ≠ .error .exhausted w' := by
  induction hm : direction.remaining n stop using Nat.strongRecOn generalizing n w with
  | ind m ih =>
    cases hc : direction.continues n stop with
    | false =>
      refine ⟨0, .ok () w, ?_, nofun⟩
      intro inner passes _ _
      have htest := hw.test_eq direction stop
      rw [hc] at htest
      cases passes with
      | zero => exact bind_of_ok htest
      | succ passes => exact bind_of_ok htest
    | true =>
      have htest := hw.test_eq direction stop
      rw [hc] at htest
      obtain ⟨N, r, hr, hend⟩ := hpass w
      cases r with
      | error s w' =>
        refine ⟨N + 1, .error s w', ?_, ?_⟩
        · intro inner passes hinner hpasses
          obtain ⟨k, rfl⟩ : ∃ k, passes = k + 1 := ⟨passes - 1, by omega⟩
          have hstep := hr inner (by omega)
          exact (bind_of_ok htest).trans (bind_of_error (bind_of_error hstep))
        · intro w'' heq
          cases heq
          exact hend w' rfl
      | ok u w' =>
        have hkept : Frame A w.env w'.env := by
          have hrun := hframed N w.env w (Frame.refl A w.env)
          rw [hr N (Nat.le_refl N)] at hrun
          exact hrun.1
        obtain ⟨env, hcount, hnext⟩ := (hw.frame hx hkept).increment step
        have hnear : direction.remaining (n + step) stop < m := by
          rw [← hm]
          exact Direction.remaining_lt hdirection hc
        obtain ⟨M, r, hr', hend'⟩ := ih _ hnear (w := { w' with env }) hnext rfl
        refine ⟨max N M + 1, r, ?_, hend'⟩
        intro inner passes hinner hpasses
        obtain ⟨k, rfl⟩ : ∃ k, passes = k + 1 := ⟨passes - 1, by omega⟩
        have hchange : tryChange (·.increment x step) w' = .ok () { w' with env } := by
          simp only [tryChange, hcount]
        have hstep : (pass inner >>= fun _ => tryChange (·.increment x step)) w =
            .ok () { w' with env } := (bind_of_ok (hr inner (by omega))).trans hchange
        have hlater := hr' inner k (by omega) (by omega)
        exact (bind_of_ok htest).trans ((bind_of_ok hstep).trans hlater)

theorem settles_run {x : String} {start : Int} (stop step : Int) {A : String → Bool}
    (hx : A x = false) {pass : Nat → Exec Unit} (hframed : ∀ n, Framed A (pass n))
    (hpass : ∀ w, Settles pass w)
    {w : World} {cell : Nat} (hw : Loop.StandsAt w.env x start cell) :
    Settles (fun n => Loop.run x start stop step (pass n) n) w := by
  unfold Loop.run
  cases hd : Direction.of? start stop step with
  | none => exact settles_of_eq (fun _ => rfl) nofun
  | some direction =>
    obtain ⟨N, r, hr, hend⟩ := exists_repeatWhile hd hx hframed hpass hw
    cases direction with
    | nowhere => exact settles_of_eq (fun _ => rfl) nofun
    | up | down => exact ⟨N, r, fun n hn => hr n n hn hn, hend⟩

/-- A loop ends by itself if its passes do and leave its variable alone. -/
theorem settles_runLoop (room : Nat) (x : String) (args : List Expr) {A : String → Bool}
    (hx : A x = false) {pass : Nat → Exec Unit} (hframed : ∀ n, Framed A (pass n))
    (hpass : ∀ w, Settles pass w) (w : World) :
    Settles (fun n => runLoop room n x args (pass n)) w := by
  rcases runLoop_cases room x args w with ⟨f, -, heq⟩ | ⟨b, stop, w₁, -, -, -, hw₁, heq⟩
  · exact settles_of_eq (fun n => heq n (pass n)) nofun
  · have hstands : Loop.StandsAt w₁.env x b.start w.env.freshCell := by
      rw [hw₁]
      exact Loop.StandsAt.set w.env x b.start
    have hpasses := (settles_run stop b.step hx hframed hpass hstands).ensuring
      fun w => { w with env := w.env.erase x }
    obtain ⟨N, r, hr, hend⟩ := hpasses
    exact ⟨N, r, fun n hn => (heq n (pass n)).trans (hr n hn), hend⟩

theorem settles_trace (level : Int) (text : Thunk String) (w : World) :
    Settles (fun _ => trace level text) w :=
  settles_of_eq (fun _ => rfl) nofun

section Statements

variable (room : Nat) (w : World)

theorem settles_eval (e : Expr) : Settles (fun n => Exec.eval ⟨room, n⟩ e) w :=
  settles_ask (fun env => e.eval env room) w

theorem settles_condition (c : Expr) : Settles (fun n => condition ⟨room, n⟩ c) w :=
  settles_ask (fun env => c.evalBool env room) w

theorem settles_change (change : Env → Env) : Settles (fun _ => Exec.change change) w :=
  settles_of_eq (fun _ => rfl) nofun

theorem settles_assign (x : String) (e : Expr) : Settles (fun n => assign ⟨room, n⟩ x e) w := by
  refine (settles_eval room w e).bind (f := fun _ v => _) fun v w₁ => ?_
  refine (settles_change w₁ _).bind (f := fun _ _ => _) fun _ w₂ => ?_
  exact (settles_ofExcept _ w₂).bind (f := fun _ _ => _) fun _ w₃ => settles_trace _ _ w₃

theorem settles_printAll (es : List Expr) : Settles (fun n => printAll ⟨room, n⟩ es) w := by
  have hline := settles_ask (fun env => do Value.printLine (← Expr.evalAll env room es)) w
  exact hline.bind (f := fun _ line => print line) fun line w' => settles_of_eq (fun _ => rfl) nofun

end Statements

mutual

/-- A statement in which no loop assigns its own variable ends by itself. -/
theorem Stmt.settles (room : Nat) (s : Stmt) (h : s.keepsCounters = true) (w : World) :
    Settles (fun n => s.exec ⟨room, n⟩) w := by
  cases s with
  | assign x e => exact settles_assign room w x e
  | print es => exact settles_printAll room w es
  | ifElse c body arms =>
    obtain ⟨hbody, harms⟩ := Bool.and_eq_true_iff.mp h
    refine (settles_condition room w c).ite (fun w' => ?_) (Arms.settles room 1 arms harms)
    exact (Stmt.settles_all room body hbody w').bind (f := fun _ _ => _) fun _ w'' =>
      settles_trace _ _ w''
  | headless arms => exact settles_throw (s := .fault _) nofun w
  | forRange x args body =>
    obtain ⟨hx, hbody⟩ := Bool.and_eq_true_iff.mp h
    exact settles_runLoop room x args (A := fun y => Stmt.assignsAny y body)
      (by simpa using hx) (fun n => Stmt.framed_all _ body) (Stmt.settles_all room body hbody) w
  | define name params body registered =>
    cases registered with
    | true => exact settles_pure () w
    | false =>
      refine Settles.bind (f := fun _ _ => _) (settles_of_eq (fun _ => rfl) nofun) fun _ w' => ?_
      exact settles_trace _ _ w'
  | ret e =>
    exact (settles_eval room w e).bind (f := fun _ v => throw (.returned v)) fun v w' =>
      settles_throw (s := .returned v) nofun w'
  | bare e =>
    exact (settles_eval room w e).bind (f := fun _ _ => pure ()) fun _ w' => settles_pure () w'
  | block body => exact Stmt.settles_all room body h w
  | guarded c body =>
    exact (settles_condition room w c).ite (Stmt.settles_all room body h) (settles_pure ())
  | hole => exact settles_throw (s := .fault _) nofun w

theorem Arms.settles (room index : Nat) (arms : Arms) (h : arms.keepsCounters = true) (w : World) :
    Settles (fun n => arms.exec ⟨room, n⟩ index) w := by
  cases arms with
  | done => exact settles_pure () w
  | otherwise body =>
    exact (settles_trace _ _ w).bind (f := fun n _ => Stmt.execAll ⟨room, n⟩ body) fun _ w' =>
      Stmt.settles_all room body h w'
  | elif c body rest =>
    obtain ⟨hbody, hrest⟩ := Bool.and_eq_true_iff.mp h
    refine (settles_condition room w c).ite (fun w' => ?_)
      (Arms.settles room (index + 1) rest hrest)
    exact (Stmt.settles_all room body hbody w').bind (f := fun _ _ => _) fun _ w'' =>
      settles_trace _ _ w''

theorem Stmt.settles_all (room : Nat) (ss : List Stmt) (h : Stmt.allKeepCounters ss = true)
    (w : World) : Settles (fun n => Stmt.execAll ⟨room, n⟩ ss) w := by
  cases ss with
  | nil => exact settles_pure () w
  | cons s ss =>
    obtain ⟨hfirst, hmore⟩ := Bool.and_eq_true_iff.mp h
    exact (Stmt.settles room s hfirst w).bind (f := fun n _ => Stmt.execAll ⟨room, n⟩ ss)
      fun _ w' =>
      Stmt.settles_all room ss hmore w'

end

/-- While its variable is bound, as it is inside a loop over it, a loop fails without any effect. -/
theorem Stmt.exec_forRange_of_bound (g : Grant) {x : String} (args : List Expr) (body : Block)
    {w : World} (h : w.env.exists? x = true) :
    ∃ f, (Stmt.forRange x args body).exec g w = .error (.fault f) w := by
  rcases runLoop_cases g.room x args w with ⟨f, -, heq⟩ | ⟨b, stop, w₁, -, -, hfree, -⟩
  · exact ⟨f, heq g.passes (Stmt.execAll g body)⟩
  · rw [h] at hfree
    cases hfree

theorem Settles.reportDepth {α : Type} {p : Nat → Exec α} {w : World} (h : Settles p w)
    (scope : String) : Settles (fun n => Interpreter.reportDepth scope (p n)) w := by
  obtain ⟨N, r, hr, hend⟩ := h
  have heq : ∀ n, N ≤ n → Interpreter.reportDepth scope (p n) w =
      Interpreter.reportDepth scope (fun _ => r) w := by
    intro n hn
    simp only [Interpreter.reportDepth, hr n hn]
  refine ⟨N, _, heq, ?_⟩
  intro w' hw'
  unfold Interpreter.reportDepth at hw'
  split at hw'
  · cases hw'
  · exact hend w' hw'

/-- A program in which no loop assigns its own variable ends by itself, in every environment: with
enough passes granted it always comes to the same end, and that is not for lack of passes. A loop
inside a loop over the same variable stops the run at once. -/
theorem run_settles {program : Block} (h : Stmt.allKeepCounters program = true) (room : Nat)
    (w : World) :
    (∃ N r, (∀ passes, N ≤ passes → Interpreter.run ⟨room, passes⟩ program w = r) ∧
      ∀ w', r ≠ .error .exhausted w') ∧
    ∀ g x args body w', w'.env.exists? x = true →
      ∃ f, (Stmt.forRange x args body).exec g w' = .error (.fault f) w' := by
  constructor
  · have hnote : Settles
        (fun _ => note 1 ("run: " ++ program.length.repr ++ " top-level statements")) w :=
      settles_of_eq (fun _ => rfl) nofun
    refine hnote.bind (f := fun n _ => ensuring (Interpreter.reportDepth "Interpreter.run"
      (Stmt.execAll ⟨room, n⟩ program)) _) fun _ w' => ?_
    exact ((Stmt.settles_all room program h w').reportDepth _).ensuring _
  · intro g x args body w' hbound
    exact Stmt.exec_forRange_of_bound g args body hbound

/-- Two nested loops, of which the inner one depends on the outer. -/
def nestedLoops : Block :=
  [.forRange "i" [.int 3]
    [.forRange "j" [.var "i"] [.assign "x" (.arith "+" (.var "j") (.int 1)), .print [.var "x"]]]]

theorem run_nestedLoops :
    Stmt.allKeepCounters nestedLoops = true ∧
      ∃ N r, (∀ passes, N ≤ passes →
        Interpreter.run ⟨100, passes⟩ nestedLoops (Interpreter.start ⟨0, #[]⟩) = r) ∧
        ∀ w', r ≠ .error .exhausted w' :=
  ⟨by decide, (run_settles (by decide) 100 (Interpreter.start ⟨0, #[]⟩)).1⟩

end TinyScript
