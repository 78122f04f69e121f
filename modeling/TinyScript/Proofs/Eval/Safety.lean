import TinyScript.Interpreter
import TinyScript.Proofs.Eval.Rules
import TinyScript.Proofs.Tree.WellFormed

/-!
# Parsed programs stop for ordinary reasons only

Evaluation has answers also for trees that no text spells, and for values from outside the language.
A program that has been parsed, run where all variables hold values of the language, never gets
there (`run_parsed_ordinary`). The argument has two halves. Operations on values of the language
give such values or fail for an ordinary reason, if their operators exist; and the trees of parsed
programs are well formed, so the operators exist and nothing is missing.
-/

namespace TinyScript

open Exec

/-- Whether the fault is one that a parsed program can have: not an operator that does not exist,
and not a variable bound twice. -/
def ScriptFault.isOrdinary : ScriptFault → Bool
  | alreadyBound _ | unknownOperator _ | unknownComparison _ => false
  | _ => true

/-- Whether the fault is one that a parsed program can have: its variable is taken, or its range
leads nowhere. -/
def LoopFault.isOrdinary : LoopFault → Bool
  | variableTaken _ | badRange .. => true
  | missingEnd | tooManyArguments _ => false

/-- Whether the fault is one that a parsed program can have. Limits of the machine are. -/
def Fault.isOrdinary : Fault → Bool
  | script f => f.isOrdinary
  | loop f => f.isOrdinary
  | limit _ => true
  | tree _ | notValue _ | noPayload | unfinished => false

/-- A reason for which a parsed statement may stop: an ordinary fault, or a lack of passes. Inside a
function body it may also return. -/
def Stop.Ordinary (inside : Bool) : Stop → Prop
  | .fault f => f.isOrdinary = true
  | .returned _ => inside = true
  | .exhausted => True

section Values

variable {inside : Bool} {l r v : Value}

theorem Value.typeName_of_proper (h : v.isProper = true) : ∃ t, v.typeName = .ok t := by
  cases v with
  | foreign n => cases h
  | _ => exact ⟨_, rfl⟩

theorem Value.answers_copy (h : v.isProper = true) :
    Answers (Stop.Ordinary inside) (fun v' => v'.isProper = true) v.copy := by
  cases v with
  | foreign n => cases h
  | _ => exact h

theorem Value.answers_toBool (h : v.isProper = true) :
    Answers (Stop.Ordinary inside) (fun _ => True) v.toBool := by
  cases v with
  | foreign n => cases h
  | _ => trivial

theorem Value.answers_toInt (h : v.isProper = true) :
    Answers (Stop.Ordinary inside) (fun _ => True) v.toInt := by
  cases v with
  | foreign n => cases h
  | int | bool => trivial
  | float | str => exact rfl

theorem Value.answers_increment (h : v.isProper = true) (amount : Int) :
    Answers (Stop.Ordinary inside) (fun v' => v'.isProper = true) (v.increment amount) := by
  cases v with
  | foreign n => cases h
  | int | float | bool | str => exact rfl

/-- Only its digits can keep a value from being shown. -/
theorem Value.eq_digits_of_textFault? (h : v.isProper = true) {f : Fault}
    (hf : v.textFault? = some f) : f = .limit .digits := by
  cases v with
  | foreign n => cases h
  | float | bool | str => cases hf
  | int n =>
    rw [Value.textFault?] at hf
    split at hf
    · cases hf
    · exact (Option.some.inj hf).symm

theorem Value.answers_checkText (h : v.isProper = true) :
    Answers (Stop.Ordinary inside) (fun _ => True) v.checkText := by
  unfold Value.checkText
  split
  · next f hf =>
    rw [Value.eq_digits_of_textFault? h hf]
    exact rfl
  · trivial

theorem Value.answers_printLine {vs : List Value} (h : ∀ v ∈ vs, v.isProper = true) :
    Answers (Stop.Ordinary inside) (fun _ => True) (Value.printLine vs) := by
  refine (answers_mapM (R := fun _ => True) fun v hv => ?_).map fun _ _ => trivial
  exact (Value.answers_checkText (h v hv)).map fun _ _ => trivial

theorem Value.answers_negate (h : v.isProper = true) :
    Answers (Stop.Ordinary inside) (fun v' => v'.isProper = true) v.negate := by
  cases v with
  | foreign n => cases h
  | int | float | bool | str => exact rfl

theorem Num.isProper_toValue (a : Num) : a.toValue.isProper = true := by
  cases a <;> rfl

theorem Num.answers_toFloat (a : Num) :
    Answers (Stop.Ordinary inside) (fun _ => True) a.toFloat := by
  cases a with
  | float x => trivial
  | int n =>
    rw [Num.toFloat]
    split
    · trivial
    · exact rfl

theorem Num.answers_combine (onInts : Int → Int → Int) (onFloats : Float → Float → Float)
    (a b : Num) :
    Answers (Stop.Ordinary inside) (fun _ => True) (Num.combine onInts onFloats a b) := by
  unfold Num.combine
  split
  · trivial
  · exact a.answers_toFloat.bind fun _ _ => b.answers_toFloat.bind fun _ _ => trivial

theorem ArithOp.answers_apply (op : ArithOp) (a b : Num) :
    Answers (Stop.Ordinary inside) (fun _ => True) (op.apply a b) := by
  cases op with
  | add | sub | mul => exact Num.answers_combine _ _ a b
  | div | mod =>
    rw [ArithOp.apply]
    split
    · exact rfl
    · exact Num.answers_combine _ _ a b

theorem Value.answers_repeatText (s : String) (count : Int) :
    Answers (Stop.Ordinary inside) (fun _ => True) (Value.repeatText s count) := by
  unfold Value.repeatText
  split
  · exact rfl
  split
  · trivial
  split
  · exact rfl
  split
  · exact rfl
  · trivial

theorem Value.isOrdinary_operandFault (hl : l.isProper = true) (hr : r.isProper = true)
    (op : String) : (Value.operandFault op l r).isOrdinary = true := by
  obtain ⟨tl, htl⟩ := Value.typeName_of_proper hl
  obtain ⟨tr, htr⟩ := Value.typeName_of_proper hr
  simp only [Value.operandFault, htl, htr]
  rfl

theorem Value.isOrdinary_orderFault (hl : l.isProper = true) (hr : r.isProper = true)
    (op : String) : (Value.orderFault op l r).isOrdinary = true := by
  obtain ⟨tl, htl⟩ := Value.typeName_of_proper hl
  obtain ⟨tr, htr⟩ := Value.typeName_of_proper hr
  simp only [Value.orderFault, htl, htr]
  rfl

theorem Value.answers_arith {op : String} {o : ArithOp} (hop : ArithOp.ofText? op = some o)
    (hl : l.isProper = true) (hr : r.isProper = true) :
    Answers (Stop.Ordinary inside) (fun v => v.isProper = true) (l.arith op r) := by
  have hfault := Value.isOrdinary_operandFault hl hr op
  unfold Value.arith
  split
  · simp only [hop]
    exact (o.answers_apply _ _).map fun a _ => a.isProper_toValue
  · split
    · exact rfl
    -- The text to repeat may stand on either side.
    · split
      · exact (Value.answers_repeatText _ _).map fun _ _ => rfl
      · exact hfault
    · split
      · exact (Value.answers_repeatText _ _).map fun _ _ => rfl
      · exact hfault
    · exact hfault

theorem Value.answers_compare {op : String} {o : CompareOp} (hop : CompareOp.ofText? op = some o)
    (hl : l.isProper = true) (hr : r.isProper = true) :
    Answers (Stop.Ordinary inside) (fun _ => True) (l.compare op r) := by
  unfold Value.compare
  rw [hop]
  split
  · trivial
  · next h => cases h
  · trivial
  · trivial
  · exact Value.isOrdinary_orderFault hl hr op

end Values

section Operators

variable {op : String}

theorem exists_logicOp (h : Grammar.Level.or.IsOperator op ∨ Grammar.Level.and.IsOperator op) :
    ∃ o, LogicOp.ofText? op = some o := by
  apply Option.isSome_iff_exists.mp
  rcases h with h | h
  · exact h.forall_spelling (P := fun s => (LogicOp.ofText? s).isSome) (by decide)
  · exact h.forall_spelling (P := fun s => (LogicOp.ofText? s).isSome) (by decide)

theorem exists_arithOp (h : Grammar.Level.arith.IsOperator op ∨ Grammar.Level.term.IsOperator op) :
    ∃ o, ArithOp.ofText? op = some o := by
  apply Option.isSome_iff_exists.mp
  rcases h with h | h
  · exact h.forall_spelling (P := fun s => (ArithOp.ofText? s).isSome) (by decide)
  · exact h.forall_spelling (P := fun s => (ArithOp.ofText? s).isSome) (by decide)

theorem exists_compareOp (h : Grammar.Level.comparison.IsOperator op) :
    ∃ o, CompareOp.ofText? op = some o := by
  apply Option.isSome_iff_exists.mp
  exact h.forall_spelling (P := fun s => (CompareOp.ofText? s).isSome) (by decide)

end Operators

/-- All variables hold values of the language. -/
def Env.HoldsValues (env : Env) : Prop := ∀ x v, env.value? x = some v → v.isProper = true

section Expressions

variable {inside : Bool} {env : Env}

theorem Env.HoldsValues.get (henv : env.HoldsValues) (x : String) :
    Answers (Stop.Ordinary inside) (fun v => v.isProper = true) (env.get x) := by
  unfold Env.get
  split
  · next v hv => exact henv x v hv
  · exact rfl

/-- The value of a spelled expression is one of the language. -/
theorem Expr.answers_eval (henv : env.HoldsValues) (e : Expr) (he : e.Spelled) (room : Nat) :
    Answers (Stop.Ordinary inside) (fun v => v.isProper = true) (e.eval env room) := by
  cases room with
  | zero =>
    rw [Expr.eval]
    exact rfl
  | succ room =>
    cases e with
    | var x => exact (henv.get x).bind fun v hv => Value.answers_copy hv
    | int | float | str => exact rfl
    | call f args =>
      rw [Expr.eval, Env.lookup]
      split
      · exact rfl
      · exact rfl
    | logic op l r =>
      obtain ⟨o, ho⟩ := exists_logicOp he.1
      have hl := Expr.answers_eval henv l he.2.1 room
      have hr := Expr.answers_eval henv r he.2.2 room
      have hright : Answers (Stop.Ordinary inside) (fun v => v.isProper = true)
          (do return Value.bool (← (← r.eval env room).toBool)) :=
        hr.bind fun v hv => (Value.answers_toBool hv).bind fun _ _ => rfl
      simp only [Expr.eval, ho]
      cases o with
      | not => exact hl.bind fun v hv => (Value.answers_toBool hv).bind fun _ _ => rfl
      | and =>
        refine hl.bind fun v hv => (Value.answers_toBool hv).bind fun b _ => ?_
        cases b with
        | true => exact hright
        | false => exact rfl
      | or =>
        refine hl.bind fun v hv => (Value.answers_toBool hv).bind fun b _ => ?_
        cases b with
        | true => exact rfl
        | false => exact hright
    | logicUnary op e =>
      obtain ⟨rfl, he⟩ := he
      have hval := Expr.answers_eval henv e he room
      exact hval.bind fun v hv => (Value.answers_toBool hv).bind fun _ _ => rfl
    | compare op l r =>
      obtain ⟨o, ho⟩ := exists_compareOp he.1
      have hl := Expr.answers_eval henv l he.2.1 room
      have hr := Expr.answers_eval henv r he.2.2 room
      exact hl.bind fun a ha => hr.bind fun b hb =>
        (Value.answers_compare ho ha hb).bind fun _ _ => rfl
    | arith op l r =>
      obtain ⟨o, ho⟩ := exists_arithOp he.1
      have hl := Expr.answers_eval henv l he.2.1 room
      have hr := Expr.answers_eval henv r he.2.2 room
      exact hl.bind fun a ha => hr.bind fun b hb => Value.answers_arith ho ha hb
    | arithUnary op e =>
      obtain ⟨rfl, he⟩ := he
      have hval := Expr.answers_eval henv e he room
      exact hval.bind fun v hv => Value.answers_negate hv
    | hole => exact he.elim

theorem Expr.answers_evalBool (henv : env.HoldsValues) {e : Expr} (he : e.Spelled) (room : Nat) :
    Answers (Stop.Ordinary inside) (fun _ => True) (e.evalBool env room) :=
  (e.answers_eval henv he room).bind fun _ hv => Value.answers_toBool hv

/-- A loop with one to three arguments has an end. -/
theorem Loop.answers_bounds (henv : env.HoldsValues) {args : List Expr}
    (hlen : 1 ≤ args.length ∧ args.length ≤ Loop.maxArguments) (hargs : Expr.AllSpelled args)
    (room : Nat) :
    Answers (Stop.Ordinary inside) (fun b => b.stop ≠ none) (Loop.bounds env room args) := by
  rw [Loop.bounds, if_neg (Nat.not_lt.mpr hlen.2)]
  have hints : ∀ e ∈ args, Answers (Stop.Ordinary inside) (fun _ => True) (e.evalInt env room) := by
    intro e he
    have hspelled := Expr.spelled_of_mem hargs he
    exact (e.answers_eval henv hspelled room).bind fun _ hv => Value.answers_toInt hv
  refine (answers_mapM hints).map fun ns hns => ?_
  match ns with
  | [] =>
    have hzero : (0 : Nat) = args.length := hns.1
    omega
  | [_] | [_, _] | _ :: _ :: _ :: _ => exact nofun

end Expressions

section Environments

variable {inside : Bool} {env : Env} {x : String}

theorem Env.HoldsValues.set (henv : env.HoldsValues) {v : Value} (hv : v.isProper = true) :
    (env.set x v).HoldsValues := by
  intro y u hu
  rw [Env.value?_set] at hu
  split at hu
  · exact Option.some.inj hu ▸ hv
  · exact henv y u hu

theorem Env.HoldsValues.erase (henv : env.HoldsValues) : (env.erase x).HoldsValues := by
  intro y u hu
  rw [Env.value?_erase] at hu
  split at hu
  · cases hu
  · exact henv y u hu

theorem Env.HoldsValues.write (henv : env.HoldsValues) {v : Value} (hv : v.isProper = true)
    (cell : Nat) : (env.write cell v).HoldsValues := by
  intro y u hu
  obtain ⟨b', hb', rfl⟩ := Option.map_eq_some_iff.mp hu
  simp only [Env.write, Table.find?_map, Option.map_eq_some_iff] at hb'
  obtain ⟨b, hb, rfl⟩ := hb'
  split
  · exact hv
  · exact henv y b.value (Option.map_eq_some_iff.mpr ⟨b, hb, rfl⟩)

/-- The environment holds values of the language, and functions that were there before or are among
`fs`. -/
structure Env.Reached (before : Env) (fs : List Function) (env : Env) : Prop where
  values : env.HoldsValues
  functions : ∀ name f, env.functions.find? name = some f →
    before.functions.find? name = some f ∨ f ∈ fs

variable {before : Env} {fs : List Function}

theorem Env.Reached.refl (henv : env.HoldsValues) : env.Reached fs env :=
  ⟨henv, fun _ _ hf => .inl hf⟩

theorem Env.Reached.set (h : before.Reached fs env) {v : Value} (hv : v.isProper = true) :
    before.Reached fs (env.set x v) :=
  ⟨h.values.set hv, h.functions⟩

theorem Env.Reached.erase (h : before.Reached fs env) : before.Reached fs (env.erase x) :=
  ⟨h.values.erase, h.functions⟩

theorem Env.Reached.register (h : before.Reached fs env) {f : Function} (hf : f ∈ fs) :
    before.Reached fs (env.register f) where
  values := h.values
  functions := by
    intro name f' hf'
    simp only [Env.register, Table.find?_insert] at hf'
    split at hf'
    · exact .inr (Option.some.inj hf' ▸ hf)
    · exact h.functions name f' hf'

theorem Env.Reached.increment (h : before.Reached fs env) (amount : Int) :
    Answers (Stop.Ordinary inside) (before.Reached fs) (env.increment x amount) := by
  unfold Env.increment
  split
  · exact rfl
  · next b hb =>
    have hproper := h.values x b.value (Option.map_eq_some_iff.mpr ⟨b, hb, rfl⟩)
    exact (Value.answers_increment hproper amount).map fun v hv =>
      ⟨h.values.write hv b.cell, h.functions⟩

end Environments

section Statements

variable {inside : Bool} {before : Env} {fs : List Function}

/-- Every run stops for an ordinary reason if at all, and leaves the environment in order. -/
def Safe (inside : Bool) (before : Env) (fs : List Function) (p : Exec Unit) : Prop :=
  Within (before.Reached fs) (Stop.Ordinary inside) p fun _ => True

theorem safe_assign (g : Grant) (x : String) {e : Expr} (he : e.Spelled) :
    Safe inside before fs (assign g x e) := by
  refine (within_ask fun env henv => e.answers_eval henv.values he g.room).bind fun v hv => ?_
  refine (within_change fun env henv => henv.set hv).bind fun _ _ => ?_
  exact (within_ofExcept (Value.answers_checkText hv)).bind fun _ _ => within_trace _ _

theorem safe_printAll (g : Grant) {es : List Expr} (hes : Expr.AllSpelled es) :
    Safe inside before fs (printAll g es) := by
  refine Within.bind (Q := fun _ => True) (within_ask fun env henv => ?_)
    fun line _ => within_print line
  have hvalues : ∀ e ∈ es, Answers (Stop.Ordinary inside) (fun v => v.isProper = true)
      (e.eval env g.room) :=
    fun e he => e.answers_eval henv.values (Expr.spelled_of_mem hes he) g.room
  exact (answers_mapM hvalues).bind fun vs hvs => Value.answers_printLine hvs.2

theorem safe_define (name : String) (params : List String) (body : Block)
    (hf : ⟨name, params, body, true⟩ ∈ fs) : Safe inside before fs (define name params body) :=
  (within_change fun _ henv => henv.register hf).bind fun _ _ => within_trace _ _

theorem within_condition (g : Grant) {c : Expr} (hc : c.Spelled) :
    Within (before.Reached fs) (Stop.Ordinary inside) (condition g c) fun _ => True :=
  within_ask fun _ henv => Expr.answers_evalBool henv.values hc g.room

/-- A loop with one to three arguments is safe. Its body may bind the variable of the loop anew:
then counting fails, for an ordinary reason. -/
theorem safe_runLoop (room passes : Nat) (x : String) {args : List Expr}
    (hlen : 1 ≤ args.length ∧ args.length ≤ Loop.maxArguments) (hargs : Expr.AllSpelled args)
    {pass : Exec Unit} (hpass : Safe inside before fs pass) :
    Safe inside before fs (runLoop room passes x args pass) := by
  apply within_runLoop (J := fun _ => before.Reached fs)
  · intro env f henv hrefused
    have hbounds : Answers (Stop.Ordinary inside) (fun b => b.stop ≠ none)
        (Loop.bounds env room args) := Loop.answers_bounds henv.values hlen hargs room
    cases hrefused with
    | bounds h =>
      rw [h] at hbounds
      exact hbounds
    | taken | digits => exact rfl
    | endless h hb =>
      rw [h] at hbounds
      exact absurd hb hbounds
  · exact fun env n henv _ => henv.set rfl
  · intro env start stop step _ _
    apply within_run
    · intro direction
      refine Within.bind (Q := fun _ => True) (within_ask fun cur hcur => ?_)
        fun _ _ => within_pure trivial
      exact (hcur.values.get x).bind fun v hv => Value.answers_toInt hv
    · exact hpass
    · exact within_tryChange fun cur hcur => hcur.increment step
    · exact rfl
    · trivial
  · exact fun env cur _ _ hcur => hcur.erase

end Statements

mutual

/-- A well-formed statement is safe. -/
theorem Stmt.safe (g : Grant) {inside : Bool} {before : Env} {fs : List Function} (s : Stmt)
    (hs : s.WellFormed inside) (hfs : ∀ f ∈ s.functions, f ∈ fs) :
    Safe inside before fs (s.exec g) := by
  cases s with
  | assign x e => exact safe_assign g x hs
  | print es => exact safe_printAll g hs
  | ifElse c body arms =>
    have hbody : Safe inside before fs (Stmt.execAll g body) :=
      Stmt.safe_all g body hs.2.1 fun f hf => hfs f (List.mem_append_left _ hf)
    have harms : Safe inside before fs (arms.exec g 1) :=
      Arms.safe g 1 arms hs.2.2 fun f hf => hfs f (List.mem_append_right _ hf)
    exact (within_condition g hs.1).ite (hbody.bind fun _ _ => within_trace _ _) harms
  | forRange x args body =>
    exact safe_runLoop g.room g.passes x hs.1 hs.2.1 (Stmt.safe_all g body hs.2.2 hfs)
  | define name params body registered =>
    obtain ⟨rfl, -, -⟩ := hs
    exact safe_define name params body (hfs _ List.mem_cons_self)
  | ret e =>
    refine Within.bind (within_ask fun env henv => e.answers_eval henv.values hs.2 g.room) ?_
    exact fun v _ => within_throw hs.1
  | headless | bare | block | guarded | hole => exact hs.elim

theorem Arms.safe (g : Grant) {inside : Bool} {before : Env} {fs : List Function} (index : Nat)
    (arms : Arms) (harms : arms.WellFormed inside) (hfs : ∀ f ∈ arms.functions, f ∈ fs) :
    Safe inside before fs (arms.exec g index) := by
  cases arms with
  | done => exact within_pure trivial
  | otherwise body =>
    exact (within_trace _ _).bind fun _ _ => Stmt.safe_all g body harms hfs
  | elif c body rest =>
    have hbody : Safe inside before fs (Stmt.execAll g body) :=
      Stmt.safe_all g body harms.2.1 fun f hf => hfs f (List.mem_append_left _ hf)
    have hrest : Safe inside before fs (rest.exec g (index + 1)) :=
      Arms.safe g (index + 1) rest harms.2.2 fun f hf => hfs f (List.mem_append_right _ hf)
    exact (within_condition g harms.1).ite (hbody.bind fun _ _ => within_trace _ _) hrest

theorem Stmt.safe_all (g : Grant) {inside : Bool} {before : Env} {fs : List Function}
    (ss : List Stmt) (hss : Stmt.AllWellFormed inside ss)
    (hfs : ∀ f ∈ Stmt.allFunctions ss, f ∈ fs) : Safe inside before fs (Stmt.execAll g ss) := by
  cases ss with
  | nil => exact within_pure trivial
  | cons s ss =>
    have hfirst : Safe inside before fs (s.exec g) :=
      Stmt.safe g s hss.1 fun f hf => hfs f (List.mem_append_left _ hf)
    have hmore : Safe inside before fs (Stmt.execAll g ss) :=
      Stmt.safe_all g ss hss.2 fun f hf => hfs f (List.mem_append_right _ hf)
    exact hfirst.bind fun _ _ => hmore

end

section Programs

variable {α : Type} {I : Env → Prop} {Q : α → Prop} {p : Exec α}

/-- Nesting beyond the limit is reported as a fault of the script. -/
theorem Exec.Within.reportDepth {inside : Bool} (h : Within I (Stop.Ordinary inside) p Q)
    (scope : String) :
    Within I (fun s => s.Ordinary inside ∧ s ≠ .fault (.limit .nesting))
      (Interpreter.reportDepth scope p) Q := by
  intro w hw
  have hp := h w hw
  unfold Interpreter.reportDepth
  split
  · next w' hr =>
    rw [hr] at hp
    exact ⟨hp.1, rfl, nofun⟩
  · next hne =>
    cases hr : p w with
    | ok a w' =>
      rw [hr] at hp
      exact hp
    | error s w' =>
      rw [hr] at hp
      refine ⟨hp.1, hp.2, ?_⟩
      rintro rfl
      exact hne w' hr

theorem Safe.run {inside : Bool} {before : Env} {fs : List Function} {g : Grant} {program : Block}
    (h : Safe inside before fs (Stmt.execAll g program)) :
    Within (before.Reached fs) (fun s => s.Ordinary inside ∧ s ≠ .fault (.limit .nesting))
      (Interpreter.run g program) fun _ => True := by
  refine (within_note _ _).bind fun _ _ => ?_
  exact fun w hw => (h.reportDepth _ w hw).ensuring fun _ henv => henv

end Programs

/-- A program that has been parsed, run where all variables hold values of the language, stops for
an ordinary reason if at all. It does not return, and nesting beyond the limit is reported as a
fault of the script. However the run ends, all variables hold values of the language again, and the
functions are those that were there before and those that the program defines. Their bodies are as
safe as the program, except that they may return. -/
theorem run_parsed_ordinary {room : Nat} {source : String} {log : Log} {program : Block}
    (hparse : (parseProgram room source log).1 = .ok program) :
    (∀ g w, w.env.HoldsValues →
      Ended (w.env.Reached (Stmt.allFunctions program))
        (fun s => s.Ordinary false ∧ s ≠ .fault (.limit .nesting)) (fun _ => True)
        (Interpreter.run g program w)) ∧
    ∀ f ∈ Stmt.allFunctions program, ∀ g w, w.env.HoldsValues →
      Ended (w.env.Reached (Stmt.allFunctions f.body)) (Stop.Ordinary true) (fun _ => True)
        (Stmt.execAll g f.body w) := by
  have hprogram := wellFormed_of_parseProgram hparse
  constructor
  · intro g w hw
    have hsafe : Safe false w.env (Stmt.allFunctions program) (Stmt.execAll g program) :=
      Stmt.safe_all g program hprogram fun _ hf => hf
    exact hsafe.run w (Env.Reached.refl hw)
  · intro f hf g w hw
    have hbody := Stmt.allWellFormed_body hprogram hf
    exact Stmt.safe_all g f.body hbody (fun _ hf' => hf') w (Env.Reached.refl hw)

/-- A function, and a loop that binds its variable to a text. -/
def reboundLoop : String := "def f(a):\n    return -a\nfor i in range(3):\n    i = \"x\"\n"

theorem run_reboundLoop :
    ∃ program, (parseProgram 200 reboundLoop ⟨0, #[]⟩).1 = .ok program ∧ Env.empty.HoldsValues ∧
      Stmt.allFunctions program ≠ [] ∧
      Ended (Env.empty.Reached (Stmt.allFunctions program))
        (fun s => s.Ordinary false ∧ s ≠ .fault (.limit .nesting)) (fun _ => True)
        (Interpreter.run ⟨100, 10⟩ program (Interpreter.start ⟨0, #[]⟩)) ∧
      ∀ f ∈ Stmt.allFunctions program,
        Ended (Env.empty.Reached (Stmt.allFunctions f.body)) (Stop.Ordinary true) (fun _ => True)
          (Stmt.execAll ⟨100, 10⟩ f.body (Interpreter.start ⟨0, #[]⟩)) := by
  have hread : (match (parseProgram 200 reboundLoop ⟨0, #[]⟩).1 with
      | .ok program => !(Stmt.allFunctions program).isEmpty
      | .error _ => false) = true := by decide +kernel
  cases hparse : (parseProgram 200 reboundLoop ⟨0, #[]⟩).1 with
  | error e =>
    rw [hparse] at hread
    cases hread
  | ok program =>
    rw [hparse] at hread
    have hvalues : (Interpreter.start ⟨0, #[]⟩).env.HoldsValues := nofun
    obtain ⟨hrun, hbodies⟩ := run_parsed_ordinary hparse
    exact ⟨program, rfl, hvalues, by simpa using hread, hrun _ _ hvalues,
      fun f hf => hbodies f hf _ _ hvalues⟩

end TinyScript
