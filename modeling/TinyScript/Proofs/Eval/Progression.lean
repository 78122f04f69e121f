import Mathlib.Algebra.Order.Floor.Ring
import Mathlib.Data.Rat.Floor
import TinyScript.Proofs.Eval.Agreement
import TinyScript.Proofs.Eval.Termination

/-!
# Loops as folds

A loop counts in a cell that its passes can reach. If they do not assign its variable, nothing of
that can be seen: the loop does what a fold over an arithmetic progression does, which binds the
variable anew before each pass and unbinds it in the end (`forRange_folds`). While a pass runs, its
variable stays where it is (`Stmt.Visits.standsAt`), also between the statements of inner blocks and
of inner loops.
-/

namespace TinyScript

open Exec

namespace Loop

/-- How many steps lead from `start` to the first number that is not before `stop`. -/
def count (start stop step : Int) : Nat := ⌈((stop - start : Int) : ℚ) / step⌉.toNat

/-- The first `length` numbers from `start` on by `step`. -/
def progression (start step : Int) (length : Nat) : List Int :=
  (List.range length).map fun k : Nat => start + k * step

theorem progression_succ (start step : Int) (length : Nat) :
    progression start step (length + 1) = start :: progression (start + step) step length := by
  have hshift : ∀ k : Nat, start + (k + 1 : Nat) * step = start + step + k * step := by
    intro k
    push_cast
    ring
  rw [progression, List.range_succ_eq_map, List.map_cons, List.map_map, Nat.cast_zero, zero_mul,
    add_zero]
  congr 1
  apply List.map_congr_left
  exact fun k _ => hshift k

/-- The loop makes a pass as long as it has not made `count` of them. -/
theorem lt_count_iff {start stop step : Int} {d : Direction}
    (hd : Direction.of? start stop step = some d) (k : Nat) :
    k < count start stop step ↔ d.continues (start + k * step) stop = true := by
  have hceil : k < count start stop step ↔ (k : ℚ) < ((stop - start : Int) : ℚ) / step := by
    rw [count, Int.lt_toNat, Int.lt_ceil]
    norm_cast
  rw [hceil]
  unfold Direction.of? at hd
  split at hd
  · next hdown =>
    cases hd
    have hneg : (step : ℚ) < 0 := by exact_mod_cast hdown.2
    rw [lt_div_iff_of_neg hneg]
    simp only [Direction.continues, decide_eq_true_eq]
    norm_cast
    omega
  split at hd
  · next hup =>
    cases hd
    have hpos : (0 : ℚ) < step := by exact_mod_cast hup.2
    rw [lt_div_iff₀ hpos]
    simp only [Direction.continues, decide_eq_true_eq]
    norm_cast
    omega
  split at hd
  · next heq =>
    cases hd
    simp [heq, Direction.continues]
  · cases hd

end Loop

namespace Loop

/-- Binds the variable to each of the numbers in turn and runs the pass, but makes at most `passes`
passes. -/
def each (x : String) (pass : Exec Unit) (passes : Nat) (ns : List Int) : Exec Unit := do
  (ns.take passes).forM fun n => do
    Exec.change (·.set x (.int n))
    pass
  if passes < ns.length then throw .exhausted

variable (x : String) (pass : Exec Unit) (passes : Nat) (n : Int) (ns : List Int)

theorem each_nil : each x pass passes [] = pure () := by
  simp [each]

theorem each_zero : each x pass 0 (n :: ns) = throw .exhausted := by
  simp [each]

theorem each_cons : each x pass (passes + 1) (n :: ns) =
    (Exec.change (·.set x (.int n)) >>= fun _ => pass) >>= fun _ => each x pass passes ns := by
  simp [each, bind_assoc]

end Loop

/-- The environments agree on all names but the variable `x`. -/
def Env.AgreeBut (x : String) : Env → Env → Prop := Env.AgreeOn (· ≠ .var x)

/-- The environments agree on all names. -/
def Env.Same : Env → Env → Prop := Env.AgreeOn fun _ => True

/-- Binding a variable for a while. -/
theorem Env.same_erase_set {env : Env} {x : String} (h : env.value? x = none) (v : Value) :
    Env.Same ((env.set x v).erase x) env := by
  intro m _
  cases m with
  | var y =>
    simp only [SameAt, value?_erase, value?_set]
    split
    · next heq => rw [← heq, h]
    · rfl
  | function f => rfl

namespace Env.AgreeBut

variable {x : String} {env env' env'' : Env}

/-- Once the variable is unbound, there is no difference left. -/
theorem erase (h : AgreeBut x env env') : Same (env.erase x) (env'.erase x) := by
  intro m _
  cases m with
  | var y =>
    simp only [SameAt, value?_erase]
    split
    · rfl
    · next hne => exact h (.var y) fun heq => hne (Mention.var.inj heq).symm
  | function f => exact h (.function f) Mention.noConfusion

/-- Once the variable is bound to the value that it has, there is no difference left. -/
theorem set (h : AgreeBut x env env') {v : Value} (hv : env.value? x = some v) :
    Same env (env'.set x v) := by
  intro m _
  cases m with
  | var y =>
    simp only [SameAt, value?_set]
    split
    · next heq => rw [← heq, hv]
    · next hne => exact h (.var y) fun heq => hne (Mention.var.inj heq).symm
  | function f => exact h (.function f) Mention.noConfusion

end Env.AgreeBut

namespace Loop

variable {x : String} {n : Int} {cell : Nat}

theorem StandsAt.value? {env : Env} (h : StandsAt env x n cell) : env.value? x = some (.int n) := by
  simp only [Env.value?, h.bound, Option.map_some]

theorem exists_standsAt {env : Env} (h : env.value? x = some (.int n)) :
    ∃ cell, StandsAt env x n cell := by
  obtain ⟨b, hb, hvalue⟩ := Option.map_eq_some_iff.mp h
  refine ⟨b.cell, ?_, env.cell_lt x b hb⟩
  rw [hb, ← hvalue]

/-- Counting a variable that is alone. -/
theorem StandsAt.counted {env : Env} (h : StandsAt env x n cell) (halone : env.Alone x)
    (step : Int) :
    ∃ next, env.increment x step = .ok next ∧ StandsAt next x (n + step) cell ∧ next.Alone x ∧
      Env.AgreeBut x env next := by
  obtain ⟨next, hnext, hstands⟩ := h.increment step
  refine ⟨next, hnext, hstands, ?_⟩
  have hwrite : next = env.write cell (.int (n + step)) := by
    rw [Env.increment_eq h.bound] at hnext
    exact (Except.ok.inj hnext).symm
  rw [hwrite]
  refine ⟨halone.write _ _, fun m hm => ?_⟩
  cases m with
  | var y =>
    have hne : ¬x = y := fun heq => hm (congrArg Mention.var heq.symm)
    simp only [Env.SameAt, halone.value?_write h.bound, if_neg hne]
  | function f => rfl

/-- One pass of a loop beside one of the fold: before it the environments agree but for the
variable, which the fold binds only then. Both stop for the same reason, or both go on, and the loop
has counted. -/
theorem pass_cases (g : Grant) {body : Block} (hx : Stmt.assignsAny x body = false) {w w' : World}
    (hstands : StandsAt w.env x n cell) (halone : w.env.Alone x)
    (hw : w.Beside (Env.AgreeBut x) w') (step : Int) :
    (∃ e v v',
      (Stmt.execAll g body >>= fun _ => tryChange (·.increment x step)) w = .error e v ∧
      (Exec.change (·.set x (.int n)) >>= fun _ => Stmt.execAll g body) w' = .error e v' ∧
      v.Beside (Env.AgreeBut x) v') ∨
    ∃ v v',
      (Stmt.execAll g body >>= fun _ => tryChange (·.increment x step)) w = .ok () v ∧
      (Exec.change (·.set x (.int n)) >>= fun _ => Stmt.execAll g body) w' = .ok () v' ∧
      StandsAt v.env x (n + step) cell ∧ v.env.Alone x ∧ v.Beside (Env.AgreeBut x) v' := by
  have hbound : Env.InStep (fun _ => True) [x] w.env (w'.env.set x (.int n)) := by
    refine ⟨hw.env.set hstands.value?, ?_, ?_⟩
    · exact List.forall_mem_singleton.mpr halone
    · exact List.forall_mem_singleton.mpr (Env.Alone.set_self _ _ _)
  have hset : Exec.change (·.set x (.int n)) w' =
      .ok () { w' with env := w'.env.set x (.int n) } := rfl
  rw [bind_of_ok hset]
  have hpass := Stmt.parallel_inStep_all g [x] body (fun _ _ => trivial) _ _ (hw.withEnv hbound)
  have hframe := Stmt.framed_all g body w.env w (Frame.refl _ _)
  generalize hr : Stmt.execAll g body w = r at hpass hframe
  generalize hr' : Stmt.execAll g body { w' with env := w'.env.set x (.int n) } = r' at hpass
  cases hpass with
  | @error e v v' hv =>
    refine .inl ⟨e, v, v', bind_of_error hr, rfl, ?_⟩
    exact hv.imp fun _ _ henv m _ => henv.agree m trivial
  | @ok _ v v' hv =>
    obtain ⟨next, hnext, hstands', halone', hagree⟩ :=
      (hstands.frame hx hframe.1).counted (hv.env.alone x List.mem_cons_self) step
    have hcount : tryChange (·.increment x step) v = .ok () { v with env := next } := by
      simp only [tryChange, hnext]
    refine .inr ⟨{ v with env := next }, v', (bind_of_ok hr).trans hcount, rfl, hstands', halone',
      ?_⟩
    apply hv.withEnv
    intro m hm
    exact (hagree m hm).symm.trans (hv.env.agree m trivial)

/-- The passes of a loop beside those of the fold. The induction is on the number of passes left. -/
theorem together_each (g : Grant) {stop step : Int} {d : Direction} {body : Block}
    (hx : Stmt.assignsAny x body = false) (left : Nat)
    (hleft : ∀ k : Nat, k < left ↔ d.continues (n + k * step) stop = true) (passes : Nat)
    {w w' : World} (hstands : StandsAt w.env x n cell) (halone : w.env.Alone x)
    (hw : w.Beside (Env.AgreeBut x) w') :
    Together (World.Beside (Env.AgreeBut x))
      (repeatWhile (Loop.test x d stop)
        (Stmt.execAll g body >>= fun _ => tryChange (·.increment x step)) passes w)
      (each x (Stmt.execAll g body) passes (progression n step left) w') := by
  induction left generalizing n passes w w' with
  | zero =>
    have hc : d.continues n stop = false := by
      simpa using hleft 0
    have htest := hstands.test_eq d stop
    rw [hc] at htest
    have hover : repeatWhile (Loop.test x d stop)
        (Stmt.execAll g body >>= fun _ => tryChange (·.increment x step)) passes w = .ok () w := by
      cases passes with
      | zero => exact bind_of_ok htest
      | succ passes => exact bind_of_ok htest
    rw [hover, show progression n step 0 = [] from rfl, each_nil]
    exact .ok hw
  | succ left ih =>
    have hc : d.continues n stop = true := by
      simpa using (hleft 0).mp (Nat.succ_pos left)
    have htest := hstands.test_eq d stop
    rw [hc] at htest
    rw [progression_succ]
    cases passes with
    | zero =>
      rw [each_zero, repeatWhile, bind_of_ok htest]
      exact .error hw
    | succ passes =>
      rw [each_cons, repeatWhile, bind_of_ok htest, if_pos rfl]
      obtain ⟨e, v, v', hrun, hrun', hv⟩ | ⟨v, v', hrun, hrun', hstands', halone', hv⟩ :=
        pass_cases g hx hstands halone hw step
      · rw [bind_of_error hrun, bind_of_error hrun']
        exact .error hv
      · rw [bind_of_ok hrun, bind_of_ok hrun']
        apply ih _ passes hstands' halone' hv
        intro k
        have hlater := hleft (k + 1)
        rw [Nat.succ_lt_succ_iff] at hlater
        rw [hlater]
        push_cast
        ring_nf

end Loop

/-- The block that the arms of a conditional run, if they run one. -/
def Arms.selected? (env : Env) (room : Nat) : Arms → Option Block
  | .done => none
  | .otherwise body => some body
  | .elif c body rest =>
    match c.evalBool env room with
    | .ok true => some body
    | .ok false => rest.selected? env room
    | .error _ => none

/-- The worlds in which the passes of a loop begin, from the world `w` with its variable bound. -/
inductive Loop.Begins (g : Grant) (x : String) (step : Int) (body : Block) (w : World) :
    World → Prop where
  | first : Begins g x step body w w
  | next {v u : World} {env : Env} (hv : Begins g x step body w v)
      (hu : Stmt.execAll g body v = .ok () u) (henv : u.env.increment x step = .ok env) :
      Begins g x step body w { u with env }

/-- The worlds before, between and after the statements of a block that is run from `w`, those of
blocks inside it among them. -/
inductive Stmt.Visits (g : Grant) : List Stmt → World → World → Prop where
  | here {ss : List Stmt} {w : World} : Visits g ss w w
  | later {s : Stmt} {ss : List Stmt} {w w' v : World} (h : s.exec g w = .ok () w')
      (hv : Visits g ss w' v) : Visits g (s :: ss) w v
  | stopped {s : Stmt} {ss : List Stmt} {e : Stop} {w v : World} (h : s.exec g w = .error e v) :
      Visits g (s :: ss) w v
  | branch {c : Expr} {body b : Block} {arms : Arms} {ss : List Stmt} {w w' v : World}
      (h : (Arms.elif c body arms).selected? w.env g.room = some b) (hw : w'.env = w.env)
      (hv : Visits g b w' v) : Visits g (.ifElse c body arms :: ss) w v
  | guarded {c : Expr} {body : Block} {ss : List Stmt} {w v : World}
      (h : c.evalBool w.env g.room = .ok true) (hv : Visits g body w v) :
      Visits g (.guarded c body :: ss) w v
  | block {body : Block} {ss : List Stmt} {w v : World} (hv : Visits g body w v) :
      Visits g (.block body :: ss) w v
  | pass {x : String} {args : List Expr} {body : Block} {ss : List Stmt} {b : Bounds}
      {w w' v u : World} (hb : Loop.bounds w.env g.room args = .ok b)
      (hfree : w.env.exists? x = false) (hw : w'.env = w.env.set x (.int b.start))
      (hv : Loop.Begins g x b.step body w' v) (hu : Visits g body v u) :
      Visits g (.forRange x args body :: ss) w u

theorem Arms.assigns_selected {x : String} {env : Env} {room : Nat} (arms : Arms)
    (h : arms.assigns x = false) {b : Block} (hb : arms.selected? env room = some b) :
    Stmt.assignsAny x b = false := by
  cases arms with
  | done => cases hb
  | otherwise body =>
    cases hb
    exact h
  | elif c body rest =>
    obtain ⟨hbody, hrest⟩ := Bool.or_eq_false_iff.mp h
    simp only [Arms.selected?] at hb
    split at hb
    · cases hb
      exact hbody
    · exact Arms.assigns_selected rest hrest hb
    · cases hb

/-- The passes before left alone what they do not assign, but for the variable of the loop. -/
theorem Loop.Begins.frame {g : Grant} {x : String} {step : Int} {body : Block} {w v : World}
    (h : Loop.Begins g x step body w v) {env : Env} (hfree : env.bindings.find? x = none)
    (hw : Frame (fun y => Stmt.assignsAny y body || decide (y = x)) env w.env) :
    Frame (fun y => Stmt.assignsAny y body || decide (y = x)) env v.env := by
  induction h with
  | first => exact hw
  | @next v u env' hv hu henv ih =>
    have hbody : Framed (fun y => Stmt.assignsAny y body || decide (y = x)) (Stmt.execAll g body) :=
      (Stmt.framed_all g body).inl
    have hrun := hbody env v ih
    rw [hu] at hrun
    exact hrun.1.increment hfree henv

/-- A variable that is not assigned stays where it stands. -/
theorem Stmt.Visits.standsAt {g : Grant} {ss : List Stmt} {w v : World} (h : Stmt.Visits g ss w v)
    {x : String} {n : Int} {cell : Nat} (hx : Stmt.assignsAny x ss = false)
    (hw : Loop.StandsAt w.env x n cell) : Loop.StandsAt v.env x n cell := by
  induction h with
  | here => exact hw
  | @later s ss w w' v hrun hv ih =>
    obtain ⟨hs, hss⟩ := Bool.or_eq_false_iff.mp hx
    have hframe := Stmt.framed g s w.env w (Frame.refl _ _)
    rw [hrun] at hframe
    exact ih hss (hw.frame hs hframe.1)
  | @stopped s ss e w v hrun =>
    obtain ⟨hs, -⟩ := Bool.or_eq_false_iff.mp hx
    have hframe := Stmt.framed g s w.env w (Frame.refl _ _)
    rw [hrun] at hframe
    exact hw.frame hs hframe.1
  | @branch c body b arms ss w w' v hselected henv hv ih =>
    obtain ⟨hs, -⟩ := Bool.or_eq_false_iff.mp hx
    apply ih (Arms.assigns_selected (.elif c body arms) hs hselected)
    rwa [henv]
  | guarded hc hv ih | block hv ih =>
    obtain ⟨hs, -⟩ := Bool.or_eq_false_iff.mp hx
    exact ih hs hw
  | @pass y args body ss b w w' v u hb hfree henv hv hu ih =>
    obtain ⟨hs, -⟩ := Bool.or_eq_false_iff.mp hx
    -- The inner loop has another variable, because this one is bound.
    have hne : ¬x = y := by
      intro heq
      rw [← heq, Env.exists?, Table.contains, hw.bound] at hfree
      cases hfree
    have hnone : w.env.bindings.find? y = none := by
      simpa [Env.exists?, Table.contains] using hfree
    have hbegin : Frame (fun z => Stmt.assignsAny z body || decide (z = y)) w.env w'.env := by
      rw [henv]
      exact Frame.set (by simp) _
    apply ih hs
    apply hw.frame _ (hv.frame hnone hbegin)
    exact Bool.or_eq_false_iff.mpr ⟨hs, decide_eq_false hne⟩

/-- What can be known of a loop whose bounds are known, whatever its direction. -/
theorem runLoop_of_fits {room : Nat} {x : String} {args : List Expr} {start stop step : Int}
    {w : World} (hbounds : Loop.bounds w.env room args = .ok ⟨start, some stop, step⟩)
    (hfree : w.env.value? x = none) (hfits : [start, stop, step].all Number.fits = true)
    (passes : Nat) (pass : Exec Unit) :
    runLoop room passes x args pass w =
      (trace 2 (Loop.headline x start stop step) >>= fun _ =>
        Exec.change (·.set x (.int start)) >>= fun _ =>
          Loop.passes x ⟨start, some stop, step⟩ stop pass passes) w := by
  have hexists : w.env.exists? x = false := by rw [Env.exists?_eq, hfree]; rfl
  have hcheck : Loop.checkBounds start stop step = .ok () := if_pos hfits
  exact runLoop_eq hbounds rfl hexists hcheck passes pass

/-- The loop from the moment that its variable is bound, beside the fold. -/
theorem Loop.together_passes (g : Grant) {x : String} {start stop step : Int} {d : Direction}
    (hd : Direction.of? start stop step = some d) {body : Block}
    (hx : Stmt.assignsAny x body = false) (w : World) :
    Together (World.Beside Env.Same)
      (Loop.passes x ⟨start, some stop, step⟩ stop (Stmt.execAll g body) g.passes
        { w with env := w.env.set x (.int start) })
      (ensuring (Loop.each x (Stmt.execAll g body) g.passes
          (Loop.progression start step (Loop.count start stop step)))
        (fun v => { v with env := v.env.erase x }) w) := by
  have hbegin : World.Beside (Env.AgreeBut x) { w with env := w.env.set x (.int start) } w := by
    refine ⟨fun m hm => ?_, rfl, rfl, rfl⟩
    cases m with
    | var y =>
      have hne : ¬x = y := fun heq => hm (congrArg Mention.var heq.symm)
      simp only [Env.SameAt, Env.value?_set, if_neg hne]
    | function f => rfl
  have heach := Loop.together_each g hx (Loop.count start stop step) (Loop.lt_count_iff hd) g.passes
    (Loop.StandsAt.set w.env x start) (Env.Alone.set_self w.env x _) hbegin
  apply Together.finally (R := World.Beside (Env.AgreeBut x)) _
    fun v v' hv => hv.withEnv hv.env.erase
  unfold Loop.run
  simp only [hd]
  cases d with
  | up | down => exact heach
  | nowhere =>
    have hnone : Loop.count start stop step = 0 := by
      by_contra hpos
      have hgoes := (Loop.lt_count_iff hd 0).mp (Nat.pos_of_ne_zero hpos)
      cases hgoes
    rw [hnone, show Loop.progression start step 0 = [] from rfl, Loop.each_nil]
    exact .ok hbegin

theorem Exec.envAfter_congr {α : Type} {p q : Exec α} {w w' : World}
    (h : p w = q w') : p.envAfter w = q.envAfter w' := by
  unfold Exec.envAfter
  rw [h]

theorem Loop.bounds_of_values {env : Env} {room : Nat} {args : List Expr} {ns : List Int}
    (h : args.mapM (Expr.evalInt env room) = .ok ns) (hlength : ns.length ≤ maxArguments) :
    Loop.bounds env room args = .ok (Bounds.ofList ns) := by
  have hanswers : Answers (fun _ => True) (fun ms => ms.length = args.length ∧ ∀ m ∈ ms, True)
      (args.mapM (Expr.evalInt env room)) := answers_mapM fun _ _ => answers_of_true _
  rw [h] at hanswers
  have hfew : ¬maxArguments < args.length := by
    have hsame := hanswers.1
    omega
  simp only [Loop.bounds, if_neg hfew, h, Except.map]

theorem Direction.of?_eq_none_iff {start stop step : Int} :
    Direction.of? start stop step = none ↔
      ¬(start = stop ∨ start < stop ∧ 1 ≤ step ∨ stop < start ∧ step < 0) := by
  unfold Direction.of?
  grind

/-- What the loop has before it while it stands at `n`, said without its direction. -/
theorem Direction.continues_iff {start stop step : Int} {d : Direction}
    (hd : of? start stop step = some d) (n : Int) :
    d.continues n stop = true ↔ start < stop ∧ n < stop ∨ stop < start ∧ stop < n := by
  unfold of? at hd
  split at hd
  · cases hd
    simp only [continues, decide_eq_true_eq]
    omega
  split at hd
  · cases hd
    simp only [continues, decide_eq_true_eq]
    omega
  split at hd
  · cases hd
    simp only [continues, Bool.false_eq_true, false_iff]
    omega
  · cases hd

/-- A loop is a fold over an arithmetic progression. Let its arguments have the values `start`,
`stop` and `step`, where `start` is zero and `step` is one if they are missing, let its variable be
unbound, and let its body not assign the variable.

If the step leads from `start` to `stop`, the loop does what binding the variable to `start`,
`start + step`, ... in turn, running the body each time and unbinding the variable in the end does.
The progression has as many numbers as the distance divided by the step, rounded up; they are those
that lie before `stop`. In all other cases the loop fails without a pass. Nothing but the values of
the arguments in the beginning is used of them. However the loop ends, its variable is unbound then,
and while a pass runs, the variable keeps its value. A grant of fewer passes than there are numbers
cuts the fold short. -/
theorem forRange_folds (g : Grant) (w : World) {x : String} {args : List Expr} {body : Block}
    {ns : List Int} {start stop step : Int}
    (hvalues : args.mapM (Expr.evalInt w.env g.room) = .ok ns)
    (hns : ns = [stop] ∧ start = 0 ∧ step = 1 ∨ ns = [start, stop] ∧ step = 1 ∨
      ns = [start, stop, step])
    (hfits : [start, stop, step].all Number.fits = true) (hfree : w.env.value? x = none)
    (hbody : Stmt.assignsAny x body = false) :
    ((start = stop ∨ start < stop ∧ 1 ≤ step ∨ stop < start ∧ step < 0) →
      (∀ k : Nat, k < Loop.count start stop step ↔
        start < stop ∧ start + k * step < stop ∨ stop < start ∧ stop < start + k * step) ∧
      Together (World.Beside Env.Same) ((Stmt.forRange x args body).exec g w)
        ((do
          trace 2 (Loop.headline x start stop step)
          ensuring
            (Loop.each x (Stmt.execAll g body) g.passes
              (Loop.progression start step (Loop.count start stop step)))
            fun v => { v with env := v.env.erase x }) w)) ∧
    (¬(start = stop ∨ start < stop ∧ 1 ≤ step ∨ stop < start ∧ step < 0) →
      Together (World.Beside Env.Same) ((Stmt.forRange x args body).exec g w)
        ((do
          trace 2 (Loop.headline x start stop step)
          throw (Stop.fault (.loop (.badRange start stop step)))) w)) ∧
    (((Stmt.forRange x args body).exec g).envAfter w).value? x = none ∧
    ∀ v n u, v.env.value? x = some (.int n) → Stmt.Visits g body v u →
      u.env.value? x = some (.int n) := by
  have hbounds : Loop.bounds w.env g.room args = .ok ⟨start, some stop, step⟩ := by
    obtain ⟨rfl, rfl, rfl⟩ | ⟨rfl, rfl⟩ | rfl := hns
    · exact Loop.bounds_of_values hvalues (show 1 ≤ 3 by omega)
    · exact Loop.bounds_of_values hvalues (show 2 ≤ 3 by omega)
    · exact Loop.bounds_of_values hvalues (show 3 ≤ 3 by omega)
  obtain ⟨w', htrace, henv⟩ := env_trace 2 (Loop.headline x start stop step) w
  have hexec : (Stmt.forRange x args body).exec g w =
      Loop.passes x ⟨start, some stop, step⟩ stop (Stmt.execAll g body) g.passes
        { w' with env := w'.env.set x (.int start) } := by
    have hrun := runLoop_of_fits hbounds hfree hfits g.passes (Stmt.execAll g body)
    rw [bind_of_ok htrace] at hrun
    exact hrun
  rw [← henv] at hfree
  refine ⟨fun hleads => ?_, fun hbad => ?_, ?_, ?_⟩
  · obtain ⟨d, hd⟩ : ∃ d, Direction.of? start stop step = some d := by
      apply Option.ne_none_iff_exists'.mp
      exact fun hnone => Direction.of?_eq_none_iff.mp hnone hleads
    refine ⟨fun k => ?_, ?_⟩
    · rw [Loop.lt_count_iff hd, Direction.continues_iff hd]
    · rw [hexec, bind_of_ok htrace]
      exact Loop.together_passes g hd hbody w'
  · have hrun : Loop.run x start stop step (Stmt.execAll g body) g.passes =
        throw (.fault (.loop (.badRange start stop step))) := by
      simp only [Loop.run, Direction.of?_eq_none_iff.mpr hbad]
    rw [hexec, bind_of_ok htrace, Loop.passes, hrun]
    exact .error ⟨Env.same_erase_set hfree _, rfl, rfl, rfl⟩
  · rw [Exec.envAfter_congr hexec, Env.value?, Loop.find?_passes, Option.map_none]
  · intro v n u hv hu
    obtain ⟨cell, hstands⟩ := Loop.exists_standsAt hv
    exact (hu.standsAt hbody hstands).value?

/-- A body that changes the variable `n`. -/
def countdownBody : Block :=
  [.assign "n" (.arith "*" (.var "n") (.var "i")), .print [.var "i", .var "n"]]

/-- Counts down from `n` by three. -/
def countdown : Stmt := .forRange "i" [.var "n", .int 0, .arithUnary "-" (.int 3)] countdownBody

/-- The world in which `n` is seven. -/
def countdownStart : World := ⟨Env.empty.set "n" (.int 7), "", ⟨2, #[]⟩, true⟩

theorem countdown_folds :
    [7, 0, -3].all Number.fits = true ∧ Stmt.assignsAny "i" countdownBody = false ∧
      Loop.count 7 0 (-3) = 3 ∧
      Together (World.Beside Env.Same) (countdown.exec ⟨10, 5⟩ countdownStart)
        ((do
          trace 2 (Loop.headline "i" 7 0 (-3))
          ensuring (Loop.each "i" (Stmt.execAll ⟨10, 5⟩ countdownBody) 5 [7, 4, 1])
            fun v => { v with env := v.env.erase "i" }) countdownStart) := by
  have hvalues : [Expr.var "n", .int 0, .arithUnary "-" (.int 3)].mapM
      (Expr.evalInt countdownStart.env 10) = .ok [7, 0, -3] := rfl
  have hfits : [7, 0, -3].all Number.fits = true := by decide +kernel
  have hbody : Stmt.assignsAny "i" countdownBody = false := by decide
  have hceil : ⌈((0 - 7 : Int) : ℚ) / (-3 : Int)⌉ = 3 := by norm_num
  have hcount : Loop.count 7 0 (-3) = 3 := by
    rw [Loop.count, hceil]
    rfl
  have hloop := forRange_folds ⟨10, 5⟩ countdownStart hvalues (.inr (.inr rfl)) hfits
    (x := "i") rfl hbody
  have hfold := (hloop.1 (by omega)).2
  rw [hcount] at hfold
  exact ⟨hfits, hbody, hcount, hfold⟩

end TinyScript
