import TinyScript.Proofs.Eval.Safety

/-!
# Simple statements that fail

A simple statement does one thing: it binds a variable, prints a line, returns a value or enters a
function. It computes all values that it needs before it does that, so if it stops, the world is as
it was (`Exec.Atomic`). An assignment has one more step. It shows the value for the trace after the
variable is bound, and an integer with too many digits cannot be shown: then the assignment fails
although its value could be computed, and the variable stays bound.
-/

namespace TinyScript

open Exec

/-- The statements that do one thing. -/
def Stmt.isSimple : Stmt → Bool
  | .assign _ _ | .print _ | .ret _ | .define _ _ _ _ => true
  | .ifElse _ _ _ | .headless _ | .forRange _ _ _ | .bare _ | .block _ | .guarded _ _ | .hole =>
    false

section Values

variable {α : Type}

/-- Of an answer that is used for its truth only. -/
theorem Exec.answers_truth {Q : α → Prop} (r : Except Fault Value) {f : Bool → Except Fault α}
    (h : ∀ b, Answers (fun _ => True) Q (f b)) :
    Answers (fun _ => True) Q (r >>= fun v => v.toBool >>= f) :=
  (answers_of_true r).bind fun v _ => (answers_of_true v.toBool).bind fun b _ => h b

theorem Value.answers_copy_proper (v : Value) :
    Answers (fun _ => True) (fun v' => v'.isProper = true) v.copy := by
  cases v with
  | foreign n => trivial
  | int | float | bool | str => exact rfl

theorem Value.answers_negate_proper (v : Value) :
    Answers (fun _ => True) (fun v' => v'.isProper = true) v.negate := by
  unfold Value.negate
  split
  · exact rfl
  · exact rfl
  · exact (answers_of_true v.typeName).bind fun _ _ => trivial

theorem Value.answers_arith_proper (op : String) (l r : Value) :
    Answers (fun _ => True) (fun v => v.isProper = true) (l.arith op r) := by
  unfold Value.arith
  split
  · split
    · exact (answers_of_true _).map fun a _ => a.isProper_toValue
    · trivial
  · split
    · exact rfl
    · split
      · exact (answers_of_true _).map fun _ _ => rfl
      · trivial
    · split
      · exact (answers_of_true _).map fun _ _ => rfl
      · trivial
    · trivial

/-- In every environment the value of an expression is a value of the language: a variable that
holds none cannot be read. -/
theorem Expr.answers_eval_proper (env : Env) (room : Nat) (e : Expr) :
    Answers (fun _ => True) (fun v => v.isProper = true) (e.eval env room) := by
  cases room with
  | zero => trivial
  | succ room =>
    cases e with
    | var x => exact (answers_of_true (env.get x)).bind fun v _ => v.answers_copy_proper
    | int | float | str => exact rfl
    | call f args => exact (answers_of_true (env.lookup f)).bind fun _ _ => trivial
    | logic op l r =>
      rw [Expr.eval]
      split
      · exact answers_truth _ fun _ => rfl
      · refine answers_truth _ fun b => ?_
        cases b with
        | true => exact answers_truth _ fun _ => rfl
        | false => exact rfl
      · refine answers_truth _ fun b => ?_
        cases b with
        | true => exact rfl
        | false => exact answers_truth _ fun _ => rfl
      · exact answers_truth _ fun _ => trivial
    | logicUnary op e =>
      rw [Expr.eval]
      split
      · exact answers_truth _ fun _ => rfl
      · trivial
    | compare op l r =>
      refine (answers_of_true (l.eval env room)).bind fun a _ => ?_
      refine (answers_of_true (r.eval env room)).bind fun b _ => ?_
      exact (answers_of_true (a.compare op b)).bind fun _ _ => rfl
    | arith op l r =>
      refine (answers_of_true (l.eval env room)).bind fun a _ => ?_
      exact (answers_of_true (r.eval env room)).bind fun b _ => a.answers_arith_proper op b
    | arithUnary op e =>
      rw [Expr.eval]
      split
      · exact (answers_of_true (e.eval env room)).bind fun v _ => v.answers_negate_proper
      · trivial
    | hole => trivial

/-- Of the values of expressions only the integers with too many digits cannot be shown. -/
theorem Value.checkText_cases {v : Value} (h : v.isProper = true) :
    v.checkText = .ok () ∨ ∃ n, v = .int n ∧ Number.fits n = false := by
  cases v with
  | foreign n => cases h
  | float | bool | str => exact .inl rfl
  | int n =>
    cases hfits : Number.fits n with
    | true =>
      left
      simp only [Value.checkText, Value.textFault?, hfits, if_true]
    | false => exact .inr ⟨n, rfl, hfits⟩

end Values

/-- A step that stops leaves the world as it was. -/
def Exec.Atomic {α : Type} (p : Exec α) : Prop := ∀ w s w', p w = .error s w' → w' = w

section Atomic

variable {α β : Type}

theorem Exec.atomic_throw (s : Stop) : Atomic (throw s : Exec α) := by
  intro w s' w' h
  cases h
  rfl

theorem Exec.atomic_of_ok {p : Exec α} (h : ∀ w, ∃ a w', p w = .ok a w') : Atomic p := by
  intro w s w' hstop
  obtain ⟨a, v, hok⟩ := h w
  rw [hok] at hstop
  cases hstop

/-- Queries may come before a step that has an effect, and not after it. -/
theorem Exec.Atomic.ask_bind {query : Env → Except Fault α} {f : α → Exec β}
    (h : ∀ a, Atomic (f a)) : Atomic (ask query >>= f) := by
  intro w s w' hstop
  cases hquery : query w.env with
  | ok a =>
    rw [bind_of_ok (ask_of_ok hquery)] at hstop
    exact h a w s w' hstop
  | error e =>
    rw [bind_of_error (ask_of_error hquery)] at hstop
    cases hstop
    rfl

end Atomic

/-- An integer with too many digits is bound before the assignment fails. -/
theorem Exec.assign_of_large {g : Grant} {x : String} {value : Expr} {w : World} {n : Int}
    (heval : value.eval w.env g.room = .ok (.int n)) (hfits : Number.fits n = false) :
    assign g x value w =
      .error (.fault (.limit .digits)) { w with env := w.env.set x (.int n) } := by
  have hask : Exec.eval g value w = .ok (.int n) w := ask_of_ok heval
  have hset : Exec.change (·.set x (.int n)) w =
      .ok () { w with env := w.env.set x (.int n) } := rfl
  have hshown : (Value.int n).checkText = .error (.limit .digits) := by
    simp only [Value.checkText, Value.textFault?, hfits, if_neg Bool.false_ne_true]
  rw [assign, bind_of_ok hask, bind_of_ok hset, hshown]
  rfl

/-- All that an assignment can do. -/
theorem Exec.assign_cases (g : Grant) (x : String) (value : Expr) (w : World) :
    (∃ f, value.eval w.env g.room = .error f ∧ assign g x value w = .error (.fault f) w) ∨
    (∃ n, value.eval w.env g.room = .ok (.int n) ∧ Number.fits n = false ∧
      assign g x value w =
        .error (.fault (.limit .digits)) { w with env := w.env.set x (.int n) }) ∨
    ∃ v w', value.eval w.env g.room = .ok v ∧ assign g x value w = .ok () w' ∧
      w'.env = w.env.set x v := by
  have hproper := value.answers_eval_proper w.env g.room
  cases heval : value.eval w.env g.room with
  | error f =>
    have hask : Exec.eval g value w = .error (.fault f) w := ask_of_error heval
    exact .inl ⟨f, rfl, bind_of_error hask⟩
  | ok v =>
    rw [heval] at hproper
    obtain hshown | ⟨n, rfl, hfits⟩ := Value.checkText_cases hproper
    · have hask : Exec.eval g value w = .ok v w := ask_of_ok heval
      have hset : Exec.change (·.set x v) w = .ok () { w with env := w.env.set x v } := rfl
      obtain ⟨w', htrace, henv⟩ := env_trace 2 ("assign " ++ x ++ " = " ++ v.text)
        { w with env := w.env.set x v }
      refine .inr (.inr ⟨v, w', rfl, ?_, henv⟩)
      rw [assign, bind_of_ok hask, bind_of_ok hset, hshown]
      exact htrace
    · exact .inr (.inl ⟨n, rfl, hfits, assign_of_large heval hfits⟩)

/-- A simple statement is atomic, unless it is an assignment. -/
theorem Stmt.atomic_of_isSimple (g : Grant) {s : Stmt} (hs : s.isSimple = true)
    (hassign : ∀ x value, s ≠ .assign x value) : Atomic (s.exec g) := by
  cases s with
  | assign x value => exact absurd rfl (hassign x value)
  | print es => exact Atomic.ask_bind fun line => atomic_of_ok fun w => ⟨(), _, rfl⟩
  | ret e => exact Atomic.ask_bind fun v => atomic_throw _
  | define name params body registered =>
    cases registered with
    | true => exact atomic_of_ok fun w => ⟨(), w, rfl⟩
    | false => exact atomic_of_ok fun w => ⟨(), _, rfl⟩
  | ifElse | headless | forRange | bare | block | guarded | hole => cases hs

/-- A simple statement that stops leaves the world as it was, with one exception: an assignment
whose value is an integer with too many digits stops although the value could be computed, and its
variable is bound then. An assignment stops only for one of these two reasons. -/
theorem simple_stops_unchanged (g : Grant) (w : World) :
    (∀ s stop w', Stmt.isSimple s = true → s.exec g w = .error stop w' →
      w' = w ∨
      ∃ x value n, s = .assign x value ∧ value.eval w.env g.room = .ok (.int n) ∧
        Number.fits n = false ∧ stop = .fault (.limit .digits) ∧
        w' = { w with env := w.env.set x (.int n) }) ∧
    ∀ x value,
      (∃ stop w', (Stmt.assign x value).exec g w = .error stop w') ↔
        (∃ f, value.eval w.env g.room = .error f) ∨
        ∃ n, value.eval w.env g.room = .ok (.int n) ∧ Number.fits n = false := by
  refine ⟨fun s stop w' hs hstop => ?_, fun x value => ⟨?_, ?_⟩⟩
  · by_cases hassign : ∃ x value, s = .assign x value
    · obtain ⟨x, value, rfl⟩ := hassign
      rw [Stmt.exec] at hstop
      obtain ⟨f, -, hrun⟩ | ⟨n, heval, hfits, hrun⟩ | ⟨v, w₁, -, hrun, -⟩ :=
        assign_cases g x value w
      · rw [hrun] at hstop
        cases hstop
        exact .inl rfl
      · rw [hrun] at hstop
        cases hstop
        exact .inr ⟨x, value, n, rfl, heval, hfits, rfl, rfl⟩
      · rw [hrun] at hstop
        cases hstop
    · refine .inl (Stmt.atomic_of_isSimple g hs (fun x value h => ?_) w stop w' hstop)
      exact hassign ⟨x, value, h⟩
  · rintro ⟨stop, w', hstop⟩
    rw [Stmt.exec] at hstop
    obtain ⟨f, heval, -⟩ | ⟨n, heval, hfits, -⟩ | ⟨v, w₁, -, hrun, -⟩ :=
      assign_cases g x value w
    · exact .inl ⟨f, heval⟩
    · exact .inr ⟨n, heval, hfits⟩
    · rw [hrun] at hstop
      cases hstop
  · rw [Stmt.exec]
    rintro (⟨f, heval⟩ | ⟨n, heval, hfits⟩)
    · have hask : Exec.eval g value w = .error (.fault f) w := ask_of_error heval
      exact ⟨_, _, bind_of_error hask⟩
    · exact ⟨_, _, assign_of_large heval hfits⟩

/-- A line whose second value cannot be computed. -/
def halfLine : Stmt := .print [.str "quotient", .arith "/" (.int 1) (.int 0)]

theorem halfLine_stops_unchanged :
    halfLine.isSimple = true ∧
    ∃ stop w', halfLine.exec ⟨10, 10⟩ ⟨Env.empty, "before", ⟨0, #[]⟩, true⟩ = .error stop w' ∧
      (w' = ⟨Env.empty, "before", ⟨0, #[]⟩, true⟩ ∨
      ∃ x value n, halfLine = .assign x value ∧ value.eval Env.empty 10 = .ok (.int n) ∧
        Number.fits n = false ∧ stop = .fault (.limit .digits) ∧
        w' = ⟨Env.empty.set x (.int n), "before", ⟨0, #[]⟩, true⟩) := by
  refine ⟨rfl, .fault (.script .divisionByZero), ⟨Env.empty, "before", ⟨0, #[]⟩, true⟩, rfl, ?_⟩
  exact (simple_stops_unchanged ⟨10, 10⟩ _).1 halfLine _ _ rfl rfl

theorem Number.tenTo_lt {m n : Nat} (h : m < n) : tenTo m < tenTo n :=
  Nat.pow_lt_pow_right (by omega) h

theorem Number.tenTo_mul_tenTo (m n : Nat) : tenTo m * tenTo n = tenTo (m + n) :=
  (Nat.pow_add 10 m n).symm

/-- The square of the variable `x`. -/
def square : Expr := .arith "*" (.var "x") (.var "x")

/-- An environment in which the variable `x` is large, but can be shown. -/
def largeX : Env := Env.empty.set "x" (.int (Number.tenTo 4096))

/-- The square of a large integer can be computed, and still its assignment fails and changes the
variable. -/
theorem square_assignment_stops_changed :
    ∃ n stop w', square.eval largeX 10 = .ok (.int n) ∧
      (Stmt.assign "x" square).exec ⟨10, 10⟩ ⟨largeX, "", ⟨0, #[]⟩, true⟩ = .error stop w' ∧
      largeX.value? "x" ≠ some (.int n) ∧ w'.env.value? "x" = some (.int n) := by
  have heval : square.eval largeX 10 =
      .ok (.int ((Number.tenTo 4096 : Int) * (Number.tenTo 4096 : Int))) := rfl
  have hshort : Number.tenTo 4096 < Number.tenTo 4300 := Number.tenTo_lt (by omega)
  have hlarge : Number.tenTo 4300 < Number.tenTo 4096 * Number.tenTo 4096 := by
    rw [Number.tenTo_mul_tenTo]
    exact Number.tenTo_lt (by omega)
  have hfits : Number.fits ((Number.tenTo 4096 : Int) * (Number.tenTo 4096 : Int)) = false := by
    rw [Number.fits, Number.digitBound, Number.maxDigits, Int.natAbs_mul, Int.natAbs_natCast]
    exact decide_eq_false (Nat.not_lt.mpr (Nat.le_of_lt hlarge))
  refine ⟨_, _, _, heval, assign_of_large heval hfits, fun hsame => ?_, ?_⟩
  · rw [largeX, Env.value?_set, if_pos rfl, Option.some.injEq, Value.int.injEq] at hsame
    rw [← Int.natCast_mul, Int.natCast_inj] at hsame
    rw [← hsame] at hlarge
    exact Nat.lt_asymm hshort hlarge
  · exact (Env.value?_set _ _ _ _).trans (if_pos rfl)

end TinyScript
