import TinyScript.Interpreter
import TinyScript.Proofs.Eval.Concat
import TinyScript.Proofs.Eval.Effects

/-!
# What a run depends on

A run looks at the variables and functions that its tree mentions, and at nothing else
(`evaluation_depends_on_mentioned`). Two environments that agree on those may differ in all other
names, in the numbers of their cells, and in which names share a value. Sharing is the one thing
that could be felt: a loop counts in place. But the variable of a loop is in a cell of its own
(`Env.Alone`), in both runs and as long as the loop lasts, so that counting is seen through no other
name.
-/

namespace TinyScript

open Exec

/-- A name in the role that it has in a program. -/
inductive Mention where
  | var (x : String)
  | function (f : String)
  deriving DecidableEq, Repr

/-- The names that evaluating an expression looks at. The arguments of a call are not evaluated. -/
def Expr.mentions : Expr → List Mention
  | .var x => [.var x]
  | .call f _ => [.function f]
  | .logic _ l r | .compare _ l r | .arith _ l r => l.mentions ++ r.mentions
  | .logicUnary _ e | .arithUnary _ e => e.mentions
  | .int _ | .float _ | .str _ | .hole => []

mutual

/-- The names that running a statement looks at: variables that are read, assigned or counted with,
and functions that are called. The bodies of functions are not run. -/
def Stmt.mentions : Stmt → List Mention
  | .assign x e => .var x :: e.mentions
  | .print es => es.flatMap Expr.mentions
  | .ifElse c body arms => c.mentions ++ (Stmt.allMentions body ++ arms.mentions)
  | .forRange x args body => .var x :: (args.flatMap Expr.mentions ++ Stmt.allMentions body)
  | .ret e | .bare e => e.mentions
  | .block body => Stmt.allMentions body
  | .guarded c body => c.mentions ++ Stmt.allMentions body
  | .headless _ | .define .. | .hole => []

def Arms.mentions : Arms → List Mention
  | .done => []
  | .otherwise body => Stmt.allMentions body
  | .elif c body rest => c.mentions ++ (Stmt.allMentions body ++ rest.mentions)

def Stmt.allMentions : List Stmt → List Mention
  | [] => []
  | s :: ss => s.mentions ++ Stmt.allMentions ss

end

namespace Env

/-- A name means the same in both environments: a variable has the same value or is unbound in both,
and a function has the same definition or is undefined in both. -/
def SameAt (env env' : Env) : Mention → Prop
  | .var x => env'.value? x = env.value? x
  | .function f => env'.functions.find? f = env.functions.find? f

theorem SameAt.symm {env env' : Env} {m : Mention} (h : env.SameAt env' m) : env'.SameAt env m := by
  cases m with
  | var x => exact Eq.symm h
  | function f => exact Eq.symm h

theorem SameAt.trans {env env' env'' : Env} {m : Mention} (h : env.SameAt env' m)
    (h' : env'.SameAt env'' m) : env.SameAt env'' m := by
  cases m with
  | var x => exact Eq.trans h' h
  | function f => exact Eq.trans h' h

/-- The environments agree on the names in `N`. -/
def AgreeOn (N : Mention → Prop) (env env' : Env) : Prop := ∀ m, N m → env.SameAt env' m

/-- The variable shares its value with no other name. -/
def Alone (env : Env) (x : String) : Prop :=
  ∀ b y c, env.bindings.find? x = some b → env.bindings.find? y = some c → c.cell = b.cell → y = x

theorem exists?_eq (env : Env) (x : String) : env.exists? x = (env.value? x).isSome := by
  simp [exists?, Table.contains, value?]

namespace Alone

variable {env : Env} {x : String}

/-- A cell that has just been made belongs to nobody else. -/
theorem set_self (env : Env) (x : String) (v : Value) : (env.set x v).Alone x := by
  intro b y c hb hc hcell
  simp only [Env.set, Table.find?_insert, if_true] at hb hc
  cases hb
  split at hc
  · next heq => exact heq.symm
  · have hold := env.cell_lt y c hc
    simp only at hcell
    omega

theorem set (h : env.Alone x) (y : String) (v : Value) : (env.set y v).Alone x := by
  by_cases hxy : y = x
  · subst hxy
    exact set_self env y v
  · intro b z c hb hc hcell
    simp only [Env.set, Table.find?_insert, if_neg hxy] at hb hc
    split at hc
    · cases hc
      have hold := env.cell_lt x b hb
      simp only at hcell
      omega
    · exact h b z c hb hc hcell

theorem erase (h : env.Alone x) (y : String) : (env.erase y).Alone x := by
  intro b z c hb hc hcell
  simp only [Env.erase, Table.find?_erase] at hb hc
  split at hb
  · cases hb
  · split at hc
    · cases hc
    · exact h b z c hb hc hcell

/-- Writing changes no cell numbers. -/
theorem write (h : env.Alone x) (cell : Nat) (v : Value) : (env.write cell v).Alone x := by
  intro b z c hb hc hcell
  simp only [Env.write, Table.find?_map, Option.map_eq_some_iff] at hb hc
  obtain ⟨b₀, hb₀, rfl⟩ := hb
  obtain ⟨c₀, hc₀, rfl⟩ := hc
  apply h b₀ z c₀ hb₀ hc₀
  have hkept : ∀ d : Binding,
      (if d.cell = cell then { d with value := v } else d).cell = d.cell := by
    intro d
    split <;> rfl
  rwa [hkept, hkept] at hcell

/-- What is written to the cell of the variable is seen through no other name. -/
theorem value?_write (h : env.Alone x) {b : Binding} (hb : env.bindings.find? x = some b)
    (v : Value) (y : String) :
    (env.write b.cell v).value? y = if x = y then some v else env.value? y := by
  simp only [value?, Env.write, Table.find?_map]
  cases hc : env.bindings.find? y with
  | none =>
    have hne : ¬x = y := by
      intro heq
      rw [← heq, hb] at hc
      cases hc
    simp [hne]
  | some c =>
    by_cases hxy : x = y
    · subst hxy
      rw [hb] at hc
      cases hc
      simp
    · have hcell : ¬c.cell = b.cell := fun heq => hxy (h b y c hb hc heq).symm
      simp [hxy, hcell]

end Alone

/-- Counting a variable that has a value. -/
theorem increment_eq {env : Env} {x : String} {b : Binding} (hb : env.bindings.find? x = some b)
    (amount : Int) :
    env.increment x amount = (b.value.increment amount).map (env.write b.cell) := by
  simp only [increment, hb]

/-- The environments agree on the names in `N`, and in both of them the variables that are being
counted share their values with nobody. -/
structure InStep (N : Mention → Prop) (counters : List String) (env env' : Env) : Prop where
  agree : env.AgreeOn N env'
  alone : ∀ x ∈ counters, env.Alone x
  alone' : ∀ x ∈ counters, env'.Alone x

namespace AgreeOn

variable {N : Mention → Prop} {env env' : Env} {x : String}

theorem get (h : env.AgreeOn N env') (hx : N (.var x)) : env'.get x = env.get x := by
  have hvalue : env'.value? x = env.value? x := h _ hx
  simp only [Env.get, hvalue]

theorem lookup {f : String} (h : env.AgreeOn N env') (hf : N (.function f)) :
    env'.lookup f = env.lookup f := by
  have hentry : env'.functions.find? f = env.functions.find? f := h _ hf
  simp only [Env.lookup, hentry]

theorem exists? (h : env.AgreeOn N env') (hx : N (.var x)) : env'.exists? x = env.exists? x := by
  have hvalue : env'.value? x = env.value? x := h _ hx
  rw [exists?_eq, exists?_eq, hvalue]

end AgreeOn

namespace InStep

variable {N : Mention → Prop} {counters : List String} {env env' : Env} {x : String}

theorem set (h : InStep N counters env env') (x : String) (v : Value) :
    InStep N counters (env.set x v) (env'.set x v) where
  agree := by
    intro m hm
    have hold := h.agree m hm
    cases m with
    | var y =>
      have hvalue : env'.value? y = env.value? y := hold
      simp only [SameAt, value?_set, hvalue]
    | function f => exact hold
  alone y hy := (h.alone y hy).set x v
  alone' y hy := (h.alone' y hy).set x v

theorem erase (h : InStep N counters env env') (x : String) :
    InStep N counters (env.erase x) (env'.erase x) where
  agree := by
    intro m hm
    have hold := h.agree m hm
    cases m with
    | var y =>
      have hvalue : env'.value? y = env.value? y := hold
      simp only [SameAt, value?_erase, hvalue]
    | function f => exact hold
  alone y hy := (h.alone y hy).erase x
  alone' y hy := (h.alone' y hy).erase x

theorem register (h : InStep N counters env env') (f : Function) :
    InStep N counters (env.register f) (env'.register f) where
  agree := by
    intro m hm
    have hold := h.agree m hm
    cases m with
    | var y => exact hold
    | function name =>
      have hentry : env'.functions.find? name = env.functions.find? name := hold
      simp only [SameAt, Env.register, Table.find?_insert, hentry]
  alone := h.alone
  alone' := h.alone'

/-- A loop begins: its variable is new, so it shares its value with nobody. -/
theorem push (h : InStep N counters env env') (x : String) (v : Value) :
    InStep N (x :: counters) (env.set x v) (env'.set x v) where
  agree := (h.set x v).agree
  alone := List.forall_mem_cons.mpr ⟨Alone.set_self env x v, (h.set x v).alone⟩
  alone' := List.forall_mem_cons.mpr ⟨Alone.set_self env' x v, (h.set x v).alone'⟩

theorem pop (h : InStep N (x :: counters) env env') : InStep N counters env env' where
  agree := h.agree
  alone y hy := h.alone y (List.mem_cons_of_mem _ hy)
  alone' y hy := h.alone' y (List.mem_cons_of_mem _ hy)

/-- Counting goes the same way in both environments. -/
theorem increment (h : InStep N counters env env') (hN : N (.var x)) (hx : x ∈ counters)
    (amount : Int) :
    (∃ f, env.increment x amount = .error f ∧ env'.increment x amount = .error f) ∨
    ∃ e e', env.increment x amount = .ok e ∧ env'.increment x amount = .ok e' ∧
      InStep N counters e e' := by
  have hvalue : env'.value? x = env.value? x := h.agree _ hN
  cases hb : env.bindings.find? x with
  | none =>
    have hb' : env'.bindings.find? x = none := by
      simpa [value?, hb] using hvalue
    exact .inl ⟨.script (.unbound x), by simp only [Env.increment, hb],
      by simp only [Env.increment, hb']⟩
  | some b =>
    obtain ⟨b', hb', hsame⟩ : ∃ b', env'.bindings.find? x = some b' ∧ b'.value = b.value := by
      simpa [value?, hb] using hvalue
    rw [increment_eq hb, increment_eq hb', hsame]
    cases b.value.increment amount with
    | error f => exact .inl ⟨f, rfl, rfl⟩
    | ok v =>
      refine .inr ⟨env.write b.cell v, env'.write b'.cell v, rfl, rfl, ?_, ?_, ?_⟩
      · intro m hm
        have hold := h.agree m hm
        cases m with
        | var y =>
          have hother : env'.value? y = env.value? y := hold
          simp only [SameAt, (h.alone x hx).value?_write hb, (h.alone' x hx).value?_write hb',
            hother]
        | function f => exact hold
      · exact fun y hy => (h.alone y hy).write b.cell v
      · exact fun y hy => (h.alone' y hy).write b'.cell v

end InStep

end Env

/-- Queries one after the other, each of which goes the same way in both environments. -/
theorem Expr.mapM_congr {α : Type} {N : Mention → Prop} {query query' : Expr → Except Fault α}
    (hquery : ∀ e : Expr, (∀ m ∈ e.mentions, N m) → query' e = query e) (es : List Expr)
    (hes : ∀ m ∈ es.flatMap Expr.mentions, N m) :
    es.mapM query' = es.mapM query := by
  induction es with
  | nil => rfl
  | cons e es ih =>
    rw [List.flatMap_cons] at hes
    obtain ⟨he, hrest⟩ := List.forall_mem_append.mp hes
    rw [List.mapM_cons, List.mapM_cons, hquery e he, ih hrest]

section Expressions

variable {N : Mention → Prop} {env env' : Env} (h : env.AgreeOn N env')
include h

theorem Expr.eval_of_agree (room : Nat) (e : Expr) (he : ∀ m ∈ e.mentions, N m) :
    e.eval env' room = e.eval env room := by
  induction room generalizing e with
  | zero => rfl
  | succ room ih =>
    cases e with
    | int | float | str | hole => rfl
    | var x => simp only [Expr.eval, h.get (he _ List.mem_cons_self)]
    | call f args => simp only [Expr.eval, h.lookup (he _ List.mem_cons_self)]
    | logic op l r | compare op l r | arith op l r =>
      obtain ⟨hl, hr⟩ := List.forall_mem_append.mp he
      simp only [Expr.eval, ih l hl, ih r hr]
    | logicUnary op e | arithUnary op e => simp only [Expr.eval, ih e he]

theorem Expr.evalBool_of_agree (room : Nat) (e : Expr) (he : ∀ m ∈ e.mentions, N m) :
    e.evalBool env' room = e.evalBool env room := by
  simp only [Expr.evalBool, e.eval_of_agree h room he]

theorem Expr.evalAll_of_agree (room : Nat) (es : List Expr)
    (hes : ∀ m ∈ es.flatMap Expr.mentions, N m) :
    Expr.evalAll env' room es = Expr.evalAll env room es :=
  Expr.mapM_congr (Expr.eval_of_agree h room) es hes

theorem Loop.bounds_of_agree (room : Nat) (args : List Expr)
    (hargs : ∀ m ∈ args.flatMap Expr.mentions, N m) :
    Loop.bounds env' room args = Loop.bounds env room args := by
  have hints : args.mapM (Expr.evalInt env' room) = args.mapM (Expr.evalInt env room) := by
    apply Expr.mapM_congr _ args hargs
    intro e he
    simp only [Expr.evalInt, e.eval_of_agree h room he]
  simp only [Loop.bounds, hints]

end Expressions

/-- The worlds differ in their environments only, and those are related by `P`. -/
structure World.Beside (P : Env → Env → Prop) (w w' : World) : Prop where
  env : P w.env w'.env
  output : w'.output = w.output
  log : w'.log = w.log
  traced : w'.traced = w.traced

namespace World.Beside

variable {P P' : Env → Env → Prop} {w w' : World}

theorem imp (h : w.Beside P w') (hP : ∀ env env', P env env' → P' env env') : w.Beside P' w' :=
  ⟨hP _ _ h.env, h.output, h.log, h.traced⟩

theorem withEnv (h : w.Beside P w') {env env' : Env} (henv : P' env env') :
    World.Beside P' { w with env } { w' with env := env' } :=
  ⟨henv, h.output, h.log, h.traced⟩

end World.Beside

namespace World

variable {P : Env → Env → Prop}

theorem beside_change {change : Env → Env}
    (h : ∀ env env', P env env' → P (change env) (change env')) :
    Parallel (World.Beside P) (Exec.change change) :=
  fun _ _ hw => .ok (hw.withEnv (h _ _ hw.env))

theorem beside_print (text : String) : Parallel (World.Beside P) (Exec.print text) :=
  fun _ _ hw => .ok ⟨hw.env, congrArg (· ++ text) hw.output, hw.log, hw.traced⟩

theorem Beside.note {w w' : World} (h : w.Beside P w') (level : Int) (text : Thunk String) :
    World.Beside P { w with log := w.log.note level text }
      { w' with log := w'.log.note level text } :=
  ⟨h.env, h.output, congrArg (·.note level text) h.log, h.traced⟩

theorem beside_trace (level : Int) (text : Thunk String) :
    Parallel (World.Beside P) (trace level text) := by
  intro w w' hw
  unfold trace
  by_cases htraced : w.traced = true
  · rw [if_pos htraced, if_pos (hw.traced.trans htraced)]
    exact .ok (hw.note level text)
  · have htraced' : ¬w'.traced = true := by rwa [hw.traced]
    rw [if_neg htraced, if_neg htraced']
    exact .ok hw

end World

open World (beside_change beside_print beside_trace)

section Queries

variable {N : Mention → Prop} {counters : List String} (g : Grant) (e : Expr)
  (he : ∀ m ∈ e.mentions, N m)
include he

theorem parallel_eval_inStep :
    Parallel (World.Beside (Env.InStep N counters)) (Exec.eval g e) :=
  parallel_ask_of_eq fun _ _ hw => e.eval_of_agree hw.env.agree g.room he

theorem parallel_condition_inStep :
    Parallel (World.Beside (Env.InStep N counters)) (condition g e) :=
  parallel_ask_of_eq fun _ _ hw => e.evalBool_of_agree hw.env.agree g.room he

end Queries

section Loops

variable {N : Mention → Prop} {counters : List String} {x : String} {pass : Exec Unit}

/-- The passes of a loop over a variable that is alone. -/
theorem Loop.parallel_run_inStep (hx : N (.var x)) (start stop step : Int) (passes : Nat)
    (hpass : Parallel (World.Beside (Env.InStep N (x :: counters))) pass) :
    Parallel (World.Beside (Env.InStep N (x :: counters)))
      (Loop.run x start stop step pass passes) := by
  unfold Loop.run
  split
  · exact parallel_throw _
  · exact parallel_pure ()
  · apply Parallel.repeatWhile
    · apply Parallel.bind _ fun n => parallel_pure _
      apply parallel_ask_of_eq
      intro w w' hw
      simp only [hw.env.agree.get hx]
    · apply hpass.bind
      intro _ w w' hw
      unfold tryChange
      obtain ⟨f, hf, hf'⟩ | ⟨e, e', he, he', hnext⟩ :=
        hw.env.increment hx List.mem_cons_self step
      · simp only [hf, hf']
        exact .error hw
      · simp only [he, he']
        exact .ok (hw.withEnv hnext)

/-- A loop from the moment that it binds its variable. -/
theorem parallel_count (hx : N (.var x)) (b : Bounds) (stop : Int) (passes : Nat)
    (hpass : Parallel (World.Beside (Env.InStep N (x :: counters))) pass) :
    Parallel (World.Beside (Env.InStep N counters))
      (tryChange (·.create x b.start) >>= fun _ => Loop.passes x b stop pass passes) := by
  intro w w' hw
  have hsame := hw.env.agree.exists? hx
  cases hexists : w.env.exists? x with
  | true =>
    have hrefused : ∀ v : World, v.env.exists? x = true → tryChange (·.create x b.start) v =
        .error (.fault (.script (.alreadyBound x))) v := by
      intro v hv
      simp only [tryChange, Env.create, hv, if_true]
    rw [bind_of_error (hrefused w hexists), bind_of_error (hrefused w' (hsame.trans hexists))]
    exact .error hw
  | false =>
    have hcreated : ∀ v : World, v.env.exists? x = false → tryChange (·.create x b.start) v =
        .ok () { v with env := v.env.set x (.int b.start) } := by
      intro v hv
      simp only [tryChange, Env.create, hv, Bool.false_eq_true, if_false]
    rw [bind_of_ok (hcreated w hexists), bind_of_ok (hcreated w' (hsame.trans hexists))]
    have hbegin := hw.withEnv (hw.env.push x (.int b.start))
    apply (Loop.parallel_run_inStep hx b.start stop b.step passes hpass _ _ hbegin).finally
    exact fun v v' hv => hv.withEnv (hv.env.erase x).pop

/-- All that a loop does, one step after the other. -/
theorem runLoop_steps (room passes : Nat) (x : String) (args : List Expr) (pass : Exec Unit) :
    runLoop room passes x args pass = (do
      let b ← ask fun env => Loop.bounds env room args
      if (← get).env.exists? x then throw (.fault (.loop (.variableTaken x)))
      match b.stop with
      | none => throw (.fault (.loop .missingEnd))
      | some stop =>
        ofExcept (Loop.checkBounds b.start stop b.step)
        trace 2 (Loop.headline x b.start stop b.step)
        tryChange (·.create x b.start)
        Loop.passes x b stop pass passes) := by
  unfold runLoop Loop.enter
  simp only [bind_assoc]
  congr
  funext b
  congr
  funext w
  split
  · rfl
  · cases b.stop with
    | none => rfl
    | some stop => simp only [bind_assoc, pure_bind]

theorem parallel_runLoop_inStep (hx : N (.var x)) {args : List Expr}
    (hargs : ∀ m ∈ args.flatMap Expr.mentions, N m) (room passes : Nat)
    (hpass : Parallel (World.Beside (Env.InStep N (x :: counters))) pass) :
    Parallel (World.Beside (Env.InStep N counters)) (runLoop room passes x args pass) := by
  have hbounds : Parallel (World.Beside (Env.InStep N counters))
      (ask fun env => Loop.bounds env room args) :=
    parallel_ask_of_eq fun w w' hw => Loop.bounds_of_agree hw.env.agree room args hargs
  -- Binding the variable changes the relation, so the loop cannot be cut after `Loop.enter`.
  rw [runLoop_steps]
  refine hbounds.bind fun bounds => Parallel.get_bind fun w w' hw => ?_
  rw [hw.env.agree.exists? hx]
  split
  · exact .error hw
  · dsimp only
    cases bounds.stop with
    | none => exact .error hw
    | some stop =>
      refine Parallel.bind (parallel_ofExcept _) (fun _ => ?_) w w' hw
      refine (beside_trace _ _).bind fun _ => ?_
      exact parallel_count hx bounds stop passes hpass

end Loops

mutual

/-- From environments that agree on what a statement mentions, it goes the same way. -/
theorem Stmt.parallel_inStep (g : Grant) {N : Mention → Prop} (counters : List String) (s : Stmt)
    (h : ∀ m ∈ s.mentions, N m) :
    Parallel (World.Beside (Env.InStep N counters)) (s.exec g) := by
  cases s with
  | assign x e =>
    obtain ⟨-, he⟩ := List.forall_mem_cons.mp h
    refine Parallel.bind (parallel_eval_inStep g e he) fun v => ?_
    refine (beside_change fun _ _ henv => henv.set x v).bind fun _ => ?_
    exact (parallel_ofExcept _).bind fun _ => beside_trace _ _
  | print es =>
    refine Parallel.bind (parallel_ask_of_eq fun w w' hw => ?_) fun line => beside_print line
    rw [Expr.evalAll_of_agree hw.env.agree g.room es h]
  | ifElse c body arms =>
    obtain ⟨hc, hrest⟩ := List.forall_mem_append.mp h
    obtain ⟨hbody, harms⟩ := List.forall_mem_append.mp hrest
    have htaken : Parallel (World.Beside (Env.InStep N counters)) (Stmt.execAll g body) :=
      Stmt.parallel_inStep_all g counters body hbody
    have hother : Parallel (World.Beside (Env.InStep N counters)) (arms.exec g 1) :=
      Arms.parallel_inStep g counters 1 arms harms
    exact (parallel_condition_inStep g c hc).ite (htaken.bind fun _ => beside_trace _ _) hother
  | headless arms => exact parallel_throw _
  | forRange x args body =>
    obtain ⟨hx, hrest⟩ := List.forall_mem_cons.mp h
    obtain ⟨hargs, hbody⟩ := List.forall_mem_append.mp hrest
    apply parallel_runLoop_inStep hx hargs
    exact Stmt.parallel_inStep_all g (x :: counters) body hbody
  | define name params body registered =>
    cases registered with
    | true => exact parallel_pure ()
    | false =>
      refine (beside_change fun _ _ henv => henv.register _).bind fun _ => ?_
      exact beside_trace _ _
  | ret e => exact (parallel_eval_inStep g e h).bind fun v => parallel_throw _
  | bare e => exact (parallel_eval_inStep g e h).bind fun v => parallel_pure ()
  | block body => exact Stmt.parallel_inStep_all g counters body h
  | guarded c body =>
    obtain ⟨hc, hbody⟩ := List.forall_mem_append.mp h
    have htaken : Parallel (World.Beside (Env.InStep N counters)) (Stmt.execAll g body) :=
      Stmt.parallel_inStep_all g counters body hbody
    exact (parallel_condition_inStep g c hc).ite htaken (parallel_pure ())
  | hole => exact parallel_throw _

theorem Arms.parallel_inStep (g : Grant) {N : Mention → Prop} (counters : List String) (index : Nat)
    (arms : Arms) (h : ∀ m ∈ arms.mentions, N m) :
    Parallel (World.Beside (Env.InStep N counters)) (arms.exec g index) := by
  cases arms with
  | done => exact parallel_pure ()
  | otherwise body =>
    exact (beside_trace _ _).bind fun _ => Stmt.parallel_inStep_all g counters body h
  | elif c body rest =>
    obtain ⟨hc, hmore⟩ := List.forall_mem_append.mp h
    obtain ⟨hbody, hrest⟩ := List.forall_mem_append.mp hmore
    have htaken : Parallel (World.Beside (Env.InStep N counters)) (Stmt.execAll g body) :=
      Stmt.parallel_inStep_all g counters body hbody
    have hother : Parallel (World.Beside (Env.InStep N counters)) (rest.exec g (index + 1)) :=
      Arms.parallel_inStep g counters (index + 1) rest hrest
    exact (parallel_condition_inStep g c hc).ite (htaken.bind fun _ => beside_trace _ _) hother

theorem Stmt.parallel_inStep_all (g : Grant) {N : Mention → Prop} (counters : List String)
    (ss : List Stmt) (h : ∀ m ∈ Stmt.allMentions ss, N m) :
    Parallel (World.Beside (Env.InStep N counters)) (Stmt.execAll g ss) := by
  cases ss with
  | nil => exact parallel_pure ()
  | cons s ss =>
    obtain ⟨hs, hss⟩ := List.forall_mem_append.mp h
    have hfirst := Stmt.parallel_inStep g counters s hs
    exact hfirst.bind fun _ => Stmt.parallel_inStep_all g counters ss hss

end

theorem World.Beside.start {N : Mention → Prop} {w : World} {env : Env} (h : w.env.AgreeOn N env) :
    w.Beside (Env.InStep N []) { w with env } := by
  refine ⟨⟨h, ?_, ?_⟩, rfl, rfl, rfl⟩
  · exact fun _ hx => absurd hx List.not_mem_nil
  · exact fun _ hx => absurd hx List.not_mem_nil

/-- What a step does from environments that agree, once it is known to go the same way. -/
theorem Exec.Parallel.together {α : Type} {N : Mention → Prop} {p : Exec α}
    (hp : Parallel (World.Beside (Env.InStep N [])) p) {w : World} {env : Env}
    (h : w.env.AgreeOn N env) :
    Together (World.Beside (Env.AgreeOn N)) (p w) (p { w with env }) := by
  apply (hp _ _ (World.Beside.start h)).imp
  exact fun _ _ hv => hv.imp fun _ _ henv => henv.agree

/-- What evaluating a tree does depends on the names that it mentions only. From two environments
that agree on a set of names with all of those in it, an expression has the same value or the same
fault; a statement, a branch and a whole program end in the same way, with the same value returned
or the same fault, with the same output and the same trace; and the environments in which they end
agree on the same names again. Names that occur in the bodies of functions or in arguments of calls
only may be in the set, but need not. -/
theorem evaluation_depends_on_mentioned (g : Grant) {N : Mention → Prop} {w : World} {env : Env}
    (h : w.env.AgreeOn N env) :
    (∀ e : Expr, (∀ m ∈ e.mentions, N m) → e.eval env g.room = e.eval w.env g.room) ∧
    (∀ s : Stmt, (∀ m ∈ s.mentions, N m) →
      Together (World.Beside (Env.AgreeOn N)) (s.exec g w) (s.exec g { w with env })) ∧
    (∀ c body, (∀ m ∈ (Stmt.guarded c body).mentions, N m) →
      Together (World.Beside (Env.AgreeOn N))
        (Exec.branch g c body w) (Exec.branch g c body { w with env })) ∧
    ∀ program : Block, (∀ m ∈ Stmt.allMentions program, N m) →
      Together (World.Beside (Env.AgreeOn N))
        (Interpreter.run g program w) (Interpreter.run g program { w with env }) := by
  refine ⟨fun e he => e.eval_of_agree h g.room he, fun s hs => ?_, fun c body hm => ?_,
    fun program hm => ?_⟩
  · exact (Stmt.parallel_inStep g [] s hs).together h
  · obtain ⟨hc, hbody⟩ := List.forall_mem_append.mp hm
    have htaken := (Stmt.parallel_inStep_all g [] body hbody).bind fun _ => parallel_pure true
    have hbranch := (parallel_condition_inStep g c hc).ite htaken (parallel_pure false)
    exact hbranch.together h
  · have hbody := (Stmt.parallel_inStep_all g [] program hm).reportDepth "Interpreter.run"
    have hnote : Parallel (World.Beside (Env.InStep N []))
        (note 1 ("run: " ++ program.length.repr ++ " top-level statements")) :=
      fun _ _ hv => .ok (hv.note _ _)
    have hrun : Parallel (World.Beside (Env.InStep N [])) (Interpreter.run g program) :=
      hnote.bind fun _ => hbody.ensuring fun _ _ hv => hv.note _ _
    exact hrun.together h

/-- The names `a` and `b` have equal values in cells of their own, and there is one name more. -/
def notSharing : Env :=
  ((Env.empty.set "z" (.str "z")).set "b" (.int 1)).set "a" (.int 1)

/-- A loop that assigns `b` while it counts, and stops at a call. -/
def callingLoop : Stmt :=
  .forRange "i" [.int 3] [.assign "b" (.arith "+" (.var "a") (.var "i")), .print [.var "b"],
    .guarded (.compare "<" (.int 2) (.var "b")) [.bare (.call "f" [.var "z"])]]

theorem callingLoop_depends_on_mentioned :
    sharedValue.AgreeOn (· ∈ callingLoop.mentions) notSharing ∧
      ¬sharedValue.SameAt notSharing (.var "z") ∧
      Together (World.Beside (Env.AgreeOn (· ∈ callingLoop.mentions)))
        (callingLoop.exec ⟨10, 5⟩ ⟨sharedValue, "", ⟨3, #[]⟩, true⟩)
        (callingLoop.exec ⟨10, 5⟩ ⟨notSharing, "", ⟨3, #[]⟩, true⟩) := by
  have hagree : sharedValue.AgreeOn (· ∈ callingLoop.mentions) notSharing := by
    intro m hm
    simp only [callingLoop, Stmt.mentions, Stmt.allMentions, Expr.mentions, List.flatMap_cons,
      List.flatMap_nil, List.append_nil, List.nil_append, List.cons_append, List.mem_cons,
      List.not_mem_nil, or_false] at hm
    rcases hm with rfl | rfl | rfl | rfl | rfl | rfl | rfl
    all_goals rfl
  refine ⟨hagree, ?_, ?_⟩
  · show ¬notSharing.value? "z" = sharedValue.value? "z"
    decide
  · exact (evaluation_depends_on_mentioned ⟨10, 5⟩ (w := ⟨sharedValue, "", ⟨3, #[]⟩, true⟩)
      hagree).2.1 callingLoop fun _ hm => hm

end TinyScript
