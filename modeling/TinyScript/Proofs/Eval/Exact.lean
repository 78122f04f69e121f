import TinyScript.Interpreter
import TinyScript.Proofs.Tree.Lossless

/-!
# Integer expressions are evaluated exactly

An integer expression is made of integers, variables that hold integers or truth values, unary minus
and `+ - * / %`. `Expr.Denotes` gives it the integer it stands for, with division told by quotient
and remainder; an expression with a division by zero stands for none. Evaluation gives the integer,
or reports the first division by zero in the order of evaluation, operands first and from left to
right. Nothing else can happen, unless the expression is higher than the room for its evaluation.
-/

namespace TinyScript

/-- The integer of an integer or of a truth value. -/
inductive Value.Counts : Value → Int → Prop where
  | int (n : Int) : Counts (.int n) n
  | bool (b : Bool) : Counts (.bool b) (if b then 1 else 0)

/-- A remainder lies between zero and the divisor, and is not the divisor. -/
def IsRemainder (r y : Int) : Prop := (0 ≤ r ∧ r < y) ∨ (y < r ∧ r ≤ 0)

namespace ArithOp

/-- What the operator makes of two integers. -/
def Computes : ArithOp → (x y z : Int) → Prop
  | add, x, y, z => z = x + y
  | sub, x, y, z => z = x - y
  | mul, x, y, z => z = x * y
  | div, x, y, q => ∃ r, x = q * y + r ∧ IsRemainder r y
  | mod, x, y, r => ∃ q, x = q * y + r ∧ IsRemainder r y

/-- What is said when the operator divides by zero. -/
def zeroMessage? : ArithOp → Option String
  | div => some "division by zero"
  | mod => some "modulo by zero"
  | add | sub | mul => none

theorem text_injective {o o' : ArithOp} (h : o.text = o'.text) : o = o' := by
  have hsome := ofText?_text o
  rw [h, ofText?_text] at hsome
  exact (Option.some.inj hsome).symm

end ArithOp

namespace Expr

variable {env : Env} {e l r : Expr}

/-- The expression is made of integers, variables that hold integers or truth values, and arithmetic
operators. -/
inductive Integral (env : Env) : Expr → Prop where
  | int (n : Int) : Integral env (.int n)
  | var {x : String} {v : Value} {n : Int} (hx : env.value? x = some v) (hv : v.Counts n) :
      Integral env (.var x)
  | minus {op : String} {e : Expr} (hop : op = "-") (he : Integral env e) :
      Integral env (.arithUnary op e)
  | arith {op : String} {l r : Expr} (o : ArithOp) (hop : op = o.text) (hl : Integral env l)
      (hr : Integral env r) : Integral env (.arith op l r)

/-- The integer that the expression stands for. -/
inductive Denotes (env : Env) : Expr → Int → Prop where
  | int (n : Int) : Denotes env (.int n) n
  | var {x : String} {v : Value} {n : Int} (hx : env.value? x = some v) (hv : v.Counts n) :
      Denotes env (.var x) n
  | minus {op : String} {e : Expr} {n : Int} (hop : op = "-") (he : Denotes env e n) :
      Denotes env (.arithUnary op e) (-n)
  | arith {op : String} {l r : Expr} {x y z : Int} (o : ArithOp) (hop : op = o.text)
      (hl : Denotes env l x) (hr : Denotes env r y) (hz : o.Computes x y z) :
      Denotes env (.arith op l r) z

/-- The expression divides by something that stands for zero, and this is what is said. -/
inductive DividesByZero (env : Env) : Expr → String → Prop where
  | intro {op message : String} {l r : Expr} (o : ArithOp) (hop : op = o.text)
      (ho : o.zeroMessage? = some message) (hr : Denotes env r 0) :
      DividesByZero env (.arith op l r) message

/-- An arithmetic expression and all parts of it, in the order of evaluation: operands first, from
left to right. -/
def parts : Expr → List Expr
  | .arith op l r => l.parts ++ (r.parts ++ [.arith op l r])
  | .arithUnary op e => e.parts ++ [.arithUnary op e]
  | e => [e]

/-- None of the expressions divides by zero. -/
def NoZero (env : Env) (ds : List Expr) : Prop := ∀ d ∈ ds, ∀ message, ¬ d.DividesByZero env message

/-- The first of the expressions that divides by zero is one of which this is said. -/
inductive FirstZero (env : Env) : List Expr → String → Prop where
  | here {d : Expr} {ds : List Expr} {message : String} (hd : d.DividesByZero env message) :
      FirstZero env (d :: ds) message
  | later {d : Expr} {ds : List Expr} {message : String}
      (hd : ∀ message, ¬ d.DividesByZero env message) (h : FirstZero env ds message) :
      FirstZero env (d :: ds) message

/-- How an integer expression is evaluated. -/
inductive Evaluated (env : Env) (e : Expr) (room : Nat) : Except Fault Value → Prop where
  /-- The value is the integer. Only a variable gives the truth value that it holds. -/
  | value {v : Value} {n : Int} (hn : e.Denotes env n) (hv : v.Counts n)
      (hint : v = .int n ∨ ∃ x, e = .var x ∧ env.value? x = some v) (hzero : NoZero env e.parts)
      (hroom : e.height ≤ room) : Evaluated env e room (.ok v)
  | zero {f : ScriptFault} (hzero : FirstZero env e.parts f.message) :
      Evaluated env e room (.error (.script f))
  | deep (hroom : room < e.height) : Evaluated env e room (.error (.limit .nesting))

end Expr

theorem fdiv_fmod_of_remainder {x y q r : Int} (h : x = q * y + r) (hr : IsRemainder r y) :
    x.fdiv y = q ∧ x.fmod y = r := by
  have hsum : r + y * q = x := by rw [h, Int.mul_comm, Int.add_comm]
  rcases hr with ⟨hlow, hhigh⟩ | ⟨hlow, hhigh⟩
  · exact (Int.fdiv_fmod_unique (by omega)).mpr ⟨hsum, hlow, hhigh⟩
  · exact (Int.fdiv_fmod_unique' (by omega)).mpr ⟨hsum, hlow, hhigh⟩

theorem isRemainder_fmod {x y : Int} (hy : y ≠ 0) :
    x = x.fdiv y * y + x.fmod y ∧ IsRemainder (x.fmod y) y := by
  have hsum : x = x.fdiv y * y + x.fmod y := by rw [Int.mul_comm, Int.mul_fdiv_add_fmod]
  refine ⟨hsum, ?_⟩
  rcases Int.lt_or_gt_of_ne hy with hneg | hpos
  · exact .inr ((Int.fdiv_fmod_unique' hneg).mp ⟨rfl, rfl⟩).2
  · exact .inl ((Int.fdiv_fmod_unique hpos).mp ⟨rfl, rfl⟩).2

theorem not_isRemainder_zero (r : Int) : ¬ IsRemainder r 0 := by
  unfold IsRemainder
  omega

namespace ArithOp

variable {o : ArithOp} {x y z z' : Int}

theorem Computes.unique (h : o.Computes x y z) (h' : o.Computes x y z') : z = z' := by
  cases o with
  | add | sub | mul => exact h.trans h'.symm
  | div =>
    obtain ⟨r, hx, hr⟩ := h
    obtain ⟨r', hx', hr'⟩ := h'
    exact (fdiv_fmod_of_remainder hx hr).1.symm.trans (fdiv_fmod_of_remainder hx' hr').1
  | mod =>
    obtain ⟨q, hx, hr⟩ := h
    obtain ⟨q', hx', hr'⟩ := h'
    exact (fdiv_fmod_of_remainder hx hr).2.symm.trans (fdiv_fmod_of_remainder hx' hr').2

/-- An operator that can divide by zero makes nothing of a divisor that is zero. -/
theorem Computes.zeroMessage? (h : o.Computes x 0 z) : o.zeroMessage? = none := by
  cases o with
  | add | sub | mul => rfl
  | div | mod =>
    obtain ⟨_, -, hr⟩ := h
    exact absurd hr (not_isRemainder_zero _)

/-- An operator is applied to integers as it should be, or divides by zero. -/
theorem apply_cases (o : ArithOp) (x y : Int) :
    (∃ z, o.apply (.int x) (.int y) = .ok (.int z) ∧ o.Computes x y z) ∨
      ∃ f, o.apply (.int x) (.int y) = .error (.script f) ∧ y = 0 ∧
        o.zeroMessage? = some f.message := by
  cases o with
  | add | sub | mul => exact .inl ⟨_, rfl, rfl⟩
  | div =>
    by_cases hy : y = 0
    · subst hy
      exact .inr ⟨.divisionByZero, rfl, rfl, rfl⟩
    · refine .inl ⟨x.fdiv y, ?_, _, isRemainder_fmod hy⟩
      simp [apply, Num.isZero, hy, Num.combine]
  | mod =>
    by_cases hy : y = 0
    · subst hy
      exact .inr ⟨.moduloByZero, rfl, rfl, rfl⟩
    · refine .inl ⟨x.fmod y, ?_, _, isRemainder_fmod hy⟩
      simp [apply, Num.isZero, hy, Num.combine]

end ArithOp

namespace Value

variable {v w : Value} {x y : Int}

theorem Counts.num? (h : v.Counts x) : v.num? = some (.int x) := by
  cases h with
  | int => rfl
  | bool b => rfl

theorem Counts.unique (h : v.Counts x) (h' : v.Counts y) : x = y := by
  have hnum := h.num?
  rw [h'.num?] at hnum
  cases hnum
  rfl

theorem Counts.copy (h : v.Counts x) : v.copy = .ok v := by
  cases h <;> rfl

theorem Counts.arith (hv : v.Counts x) (hw : w.Counts y) (o : ArithOp) :
    v.arith o.text w = (o.apply (.int x) (.int y)).map Num.toValue := by
  simp only [Value.arith, hv.num?, hw.num?, ArithOp.ofText?_text]

theorem Counts.negate (h : v.Counts x) : v.negate = .ok (.int (-x)) := by
  simp only [Value.negate, h.num?]

end Value

namespace Expr

variable {env : Env} {e l r : Expr} {ds ds' : List Expr} {message : String}

theorem Denotes.unique {m n : Int} (h : e.Denotes env m) (h' : e.Denotes env n) : m = n := by
  induction h generalizing n with
  | int =>
    cases h'
    rfl
  | var hx hv =>
    cases h' with
    | var hx' hv' =>
      cases hx.symm.trans hx'
      exact hv.unique hv'
  | minus hop _ ih =>
    cases h' with
    | minus _ h' => rw [ih h']
  | arith o hop _ _ hz ihl ihr =>
    cases h' with
    | arith o' hop' hl' hr' hz' =>
      cases ArithOp.text_injective (hop.symm.trans hop')
      cases ihl hl'
      cases ihr hr'
      exact hz.unique hz'

theorem one_le_height (e : Expr) : 1 ≤ e.height := by
  cases e <;> simp [height]

/-- Without room there is no evaluation. -/
theorem evaluated_zero (e : Expr) : Evaluated env e 0 (e.eval env 0) := by
  rw [eval]
  exact .deep (one_le_height e)

theorem NoZero.append (h : NoZero env ds) (h' : NoZero env ds') : NoZero env (ds ++ ds') :=
  fun d hd => (List.mem_append.mp hd).elim (h d) (h' d)

theorem FirstZero.append (h : FirstZero env ds message) (ds' : List Expr) :
    FirstZero env (ds ++ ds') message := by
  induction h with
  | here hd => exact .here hd
  | later hd _ ih => exact .later hd ih

theorem NoZero.append_first (h : NoZero env ds) (h' : FirstZero env ds' message) :
    FirstZero env (ds ++ ds') message := by
  induction ds with
  | nil => exact h'
  | cons d ds ih =>
    obtain ⟨hd, hds⟩ := List.forall_mem_cons.mp h
    exact .later hd (ih hds)

/-- Only an operator that divides can divide by zero. -/
theorem noZero_singleton (h : ∀ op l r, e ≠ .arith op l r) : NoZero env [e] := by
  intro d hd message hzero
  cases List.mem_singleton.mp hd
  cases hzero
  exact h _ _ _ rfl

theorem evaluated_int (n : Int) (room : Nat) :
    Evaluated env (.int n) room ((int n).eval env room) := by
  cases room with
  | zero => exact evaluated_zero _
  | succ room =>
    exact .value (.int n) (.int n) (.inl rfl) (noZero_singleton (by simp)) (Nat.le_add_left 1 room)

theorem evaluated_var {x : String} {v : Value} {n : Int} (hx : env.value? x = some v)
    (hv : v.Counts n) (room : Nat) : Evaluated env (.var x) room ((var x).eval env room) := by
  cases room with
  | zero => exact evaluated_zero _
  | succ room =>
    have heval : (var x).eval env (room + 1) = .ok v := by
      simp only [eval, Env.get, hx]
      exact hv.copy
    rw [heval]
    exact .value (.var hx hv) hv (.inr ⟨x, rfl, hx⟩) (noZero_singleton (by simp))
      (Nat.le_add_left 1 room)

theorem evaluated_minus {room : Nat} {a : Except Fault Value} (h : Evaluated env e room a) :
    Evaluated env (.arithUnary "-" e) (room + 1) (a >>= Value.negate) := by
  cases h with
  | @value v n hn hv _ hzero hroom =>
    have hnegate : (.ok v >>= Value.negate) = .ok (.int (-n)) := hv.negate
    rw [hnegate]
    exact .value (.minus rfl hn) (.int _) (.inl rfl) (hzero.append (noZero_singleton (by simp)))
      (Nat.succ_le_succ hroom)
  | zero hzero => exact .zero (hzero.append _)
  | deep hroom => exact .deep (Nat.succ_lt_succ hroom)

/-- The operands come first, and the operator is applied when both have their values. -/
theorem evaluated_arith {room : Nat} {a b : Except Fault Value} (o : ArithOp)
    (hl : Evaluated env l room a) (hr : Evaluated env r room b) :
    Evaluated env (.arith o.text l r) (room + 1)
      (do let v ← a; let w ← b; v.arith o.text w) := by
  have hleft : l.height < (arith o.text l r).height := by
    simp only [height]
    omega
  have hright : r.height < (arith o.text l r).height := by
    simp only [height]
    omega
  cases hl with
  | zero hzero => exact .zero (hzero.append _)
  | deep hroom => exact .deep (by omega)
  | @value v x hx hv _ hzerol hrooml =>
    cases hr with
    | zero hzero => exact .zero (hzerol.append_first (hzero.append _))
    | deep hroom => exact .deep (by omega)
    | @value w y hy hw _ hzeror hroomr =>
      show Evaluated env _ _ (v.arith o.text w)
      rw [hv.arith hw]
      rcases o.apply_cases x y with ⟨z, happly, hz⟩ | ⟨f, happly, rfl, hmessage⟩
      · rw [happly]
        refine .value (.arith o rfl hx hy hz) (.int z) (.inl rfl) ?_ ?_
        · refine hzerol.append (hzeror.append fun d hd message hzero => ?_)
          cases List.mem_singleton.mp hd
          obtain ⟨o', hop, ho', hr⟩ := hzero
          cases ArithOp.text_injective hop
          cases hy.unique hr
          rw [hz.zeroMessage?] at ho'
          cases ho'
        · simp only [height]
          omega
      · rw [happly]
        exact .zero (hzerol.append_first (hzeror.append_first (.here ⟨o, rfl, hmessage, hy⟩)))

/-- An integer expression stands for at most one integer. Its evaluation gives that integer if no
part of the expression divides by zero, and else reports the first part that does. It can fail in
no other way when the expression is no higher than the room. -/
theorem eval_evaluated (h : e.Integral env) (room : Nat) :
    (∀ m n, e.Denotes env m → e.Denotes env n → m = n) ∧
      Evaluated env e room (e.eval env room) := by
  refine ⟨fun m n hm hn => hm.unique hn, ?_⟩
  induction h generalizing room with
  | int n => exact evaluated_int n room
  | var hx hv => exact evaluated_var hx hv room
  | minus hop _ ih =>
    subst hop
    cases room with
    | zero => exact evaluated_zero _
    | succ room => exact evaluated_minus (ih room)
  | arith o hop _ _ ihl ihr =>
    subst hop
    cases room with
    | zero => exact evaluated_zero _
    | succ room => exact evaluated_arith o (ihl room) (ihr room)

/-- The variables `t`, which is true, and `x`, which is `-7`. -/
def sampleEnv : Env := (Env.empty.set "t" (.bool true)).set "x" (.int (-7))

/-- The expression `-x / 2 + t * (x % 3)`. -/
def flooredExpr : Expr :=
  .arith "+" (.arith "/" (.arithUnary "-" (.var "x")) (.int 2))
    (.arith "*" (.var "t") (.arith "%" (.var "x") (.int 3)))

/-- The expression `x % (t - 1) + x / 0`. -/
def zeroedExpr : Expr :=
  .arith "+" (.arith "%" (.var "x") (.arith "-" (.var "t") (.int 1)))
    (.arith "/" (.var "x") (.int 0))

theorem eval_evaluated_sampleEnv :
    (flooredExpr.Integral sampleEnv ∧ zeroedExpr.Integral sampleEnv) ∧
      flooredExpr.eval sampleEnv 1000 = .ok (.int 5) ∧ flooredExpr.Denotes sampleEnv 5 ∧
      zeroedExpr.eval sampleEnv 1000 = .error (.script .moduloByZero) ∧
      FirstZero sampleEnv zeroedExpr.parts "modulo by zero" := by
  have ht : (Expr.var "t").Integral sampleEnv := .var (v := .bool true) rfl (.bool true)
  have hx : (Expr.var "x").Integral sampleEnv := .var (v := .int (-7)) rfl (.int (-7))
  have hfloored : flooredExpr.Integral sampleEnv :=
    .arith .add rfl (.arith .div rfl (.minus rfl hx) (.int 2))
      (.arith .mul rfl ht (.arith .mod rfl hx (.int 3)))
  have hzeroed : zeroedExpr.Integral sampleEnv :=
    .arith .add rfl (.arith .mod rfl hx (.arith .sub rfl ht (.int 1))) (.arith .div rfl hx (.int 0))
  have hvalue : flooredExpr.eval sampleEnv 1000 = .ok (.int 5) := by rfl
  have hfault : zeroedExpr.eval sampleEnv 1000 = .error (.script .moduloByZero) := by rfl
  refine ⟨⟨hfloored, hzeroed⟩, hvalue, ?_, hfault, ?_⟩
  · have hout := (eval_evaluated hfloored 1000).2
    rw [hvalue] at hout
    cases hout with
    | value hn hv => cases hv; exact hn
  · have hout := (eval_evaluated hzeroed 1000).2
    rw [hfault] at hout
    cases hout with
    | zero hzero => exact hzero

theorem integral_sumOfOnes (n : Nat) : (sumOfOnes n).Integral env := by
  induction n with
  | zero => exact .int 1
  | succ n ih => exact .arith .add rfl ih (.int 1)

theorem denotes_sumOfOnes (n : Nat) : (sumOfOnes n).Denotes env (n + 1) := by
  induction n with
  | zero => exact .int 1
  | succ n ih => exact .arith .add rfl ih (.int 1) (by simp [ArithOp.Computes])

theorem noZero_sumOfOnes (n : Nat) : NoZero env (sumOfOnes n).parts := by
  have hone : NoZero env (Expr.int 1).parts := noZero_singleton (by simp)
  induction n with
  | zero => exact hone
  | succ n ih =>
    refine ih.append (hone.append fun d hd message hzero => ?_)
    cases List.mem_singleton.mp hd
    obtain ⟨o, hop, ho, -⟩ := hzero
    cases ArithOp.text_injective (o := .add) hop
    cases ho

theorem eval_sumOfOnes_of_le {n room : Nat} (h : room ≤ n) :
    (sumOfOnes n).eval env room = .error (.limit .nesting) := by
  induction n generalizing room with
  | zero =>
    cases Nat.le_zero.mp h
    rfl
  | succ n ih =>
    cases room with
    | zero => rfl
    | succ room =>
      rw [sumOfOnes, eval, ih (Nat.le_of_succ_le_succ h)]
      rfl

/-- A sum of 3000 ones divides nowhere, and still has no value in the room of a whole program. -/
theorem sumOfOnes_not_evaluated :
    (sumOfOnes 2999).Integral Env.empty ∧ (sumOfOnes 2999).Denotes Env.empty 3000 ∧
      NoZero Env.empty (sumOfOnes 2999).parts ∧
      (sumOfOnes 2999).eval Env.empty Interpreter.maxDepth = .error (.limit .nesting) :=
  ⟨integral_sumOfOnes _, denotes_sumOfOnes _, noZero_sumOfOnes _, eval_sumOfOnes_of_le (by decide)⟩

end Expr

end TinyScript
