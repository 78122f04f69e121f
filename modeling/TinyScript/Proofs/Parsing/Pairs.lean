import TinyScript.Parser

/-!
# Laws of parsing steps in pairs

Two parsers that read related tokens run side by side. `PairLaw T P` says that `P` holds of pairs of
elementary parsing steps and is kept when steps are put together, where `T` relates the tokens that
the two read: such tokens are of one kind, and have one text if their texts mean anything. The
productions are made of such steps and of nothing else, so a law holds of each of them beside itself
(`PairLaw.program`). The induction over the grammar is done here once; a particular law is proved by
looking at the elementary steps.
-/

namespace TinyScript.Parser

/-- What pairs of elementary steps obey and composition keeps. A number is read from a token of its
kind, and nothing else can be unreadable. -/
structure PairLaw (T : Token → Token → Prop) (P : ∀ {α : Type}, Parse α → Parse α → Prop) :
    Prop where
  kind {t t' : Token} : T t t' → t'.kind = t.kind
  text {t t' : Token} : T t t' → t.kind ∉ [.newline, .indent, .dedent] → t'.text = t.text
  pure {α : Type} (a : α) : P (pure a) (pure a)
  bind {α β : Type} {p p' : Parse α} {f f' : α → Parse β} :
    P p p' → (∀ a, P (f a) (f' a)) → P (p >>= f) (p' >>= f')
  peek_bind {β : Type} {f f' : Token → Parse β} :
    (∀ t t', T t t' → P (f t) (f' t')) → P (peek >>= f) (peek >>= f')
  next_bind {β : Type} {f f' : Token → Parse β} :
    (∀ t t', T t t' → P (f t) (f' t')) → P (next >>= f) (next >>= f')
  /-- Where a token of some kinds is looked at, one of these kinds is taken. -/
  take_bind {β : Type} {kinds : List Kind} {f f' : Token → Parse β} {q q' : Parse β} :
    (∀ t t', T t t' → t.kind ∈ kinds → P (f t) (f' t')) → P q q' →
    P (looksAt kinds >>= fun b => if b = true then next >>= f else q)
      (looksAt kinds >>= fun b => if b = true then next >>= f' else q')
  looksAt (kinds : List Kind) : P (looksAt kinds) (looksAt kinds)
  enter (p : Production) : P (enter p) (enter p)
  patience : P patience patience
  depth {β : Type} {p p' q q' : Parse β} : P p p' → P q q' →
    P (get >>= fun s => if s.functionDepth = 0 then p else q)
      (get >>= fun s => if s.functionDepth = 0 then p' else q')
  inFunction {α : Type} {p p' : Parse α} : P p p' → P (inFunction p) (inFunction p')
  reject {α : Type} {t t' : Token} (scope : Production) (cause : SyntaxCause) : T t t' →
    P (reject scope cause t : Parse α) (reject scope cause t')
  tooDeep {α : Type} : P (throw .tooDeep : Parse α) (throw .tooDeep)
  number {α : Type} {t t' : Token} {e : Number.ReadError} : T t t' → t.kind = .number →
    Number.readInt t.text = .error e → P (throw (.unreadable e) : Parse α) (throw (.unreadable e))
  float {α : Type} {t t' : Token} {e : Number.ReadError} : T t t' → t.kind = .float →
    Number.readFloat t.text = .error e → P (throw (.unreadable e) : Parse α) (throw (.unreadable e))

theorem reject_bind {α β : Type} (scope : Production) (cause : SyntaxCause) (t : Token)
    (f : α → Parse β) : (reject scope cause t : Parse α) >>= f = reject scope cause t := rfl

namespace PairLaw

variable {T : Token → Token → Prop} {P : ∀ {α : Type}, Parse α → Parse α → Prop} {α β : Type}
variable {p p' q q' : Parse α} {f f' : Token → Parse β} {ks : List Kind}

section Steps

variable (h : PairLaw T P)
include h

theorem ite (hp : P p p') (hq : P q q') :
    P (Parser.looksAt ks >>= fun b => if b = true then p else q)
      (Parser.looksAt ks >>= fun b => if b = true then p' else q') := by
  refine h.bind (h.looksAt ks) fun b => ?_
  cases b with
  | true => exact hp
  | false => exact hq

theorem expect_bind {scope : Production} {k : Kind}
    (hf : ∀ t t', T t t' → t.kind = k → P (f t) (f' t')) :
    P (expect scope k >>= f) (expect scope k >>= f') := by
  have hassoc : ∀ g : Token → Parse β, expect scope k >>= g = next >>= fun t =>
      (if t.kind = k then Pure.pure t else Parser.reject scope (.expected k) t) >>= g :=
    fun g => bind_assoc _ _ _
  rw [hassoc, hassoc]
  refine h.next_bind fun t t' ht => ?_
  by_cases hk : t.kind = k
  · rw [if_pos hk, if_pos ((h.kind ht).trans hk), pure_bind, pure_bind]
    exact hf t t' ht hk
  · rw [if_neg hk, if_neg fun hk' => hk ((h.kind ht).symm.trans hk')]
    rw [reject_bind, reject_bind]
    exact h.reject scope _ ht

theorem enter_bind {scope : Production} (hq : P q q') :
    P (Parser.enter scope >>= fun _ => q) (Parser.enter scope >>= fun _ => q') :=
  h.bind (h.enter scope) fun _ => hq

theorem iterate {step : α → Parse (Option α)} (hstep : ∀ a, P (step a) (step a)) (a : α) :
    P (iterate step a) (iterate step a) := by
  refine h.bind h.patience fun fuel => ?_
  induction fuel generalizing a with
  | zero => exact h.pure a
  | succ fuel ih =>
    refine h.bind (hstep a) fun o => ?_
    cases o with
    | none => exact h.pure a
    | some b => exact ih b

theorem collect {item : Parse (Option α)} (hitem : P item item) :
    P (collect item) (collect item) := by
  refine h.bind h.patience fun fuel => ?_
  induction fuel with
  | zero => exact h.pure []
  | succ fuel ih =>
    refine h.bind hitem fun o => ?_
    cases o with
    | none => exact h.pure []
    | some a => exact h.bind ih fun as => h.pure _

end Steps

section Expr

variable (h : PairLaw T P) {nested operand : Parse Expr}
include h

theorem leftChain {ops : List Kind} (hops : ∀ k ∈ ops, k ∉ [.newline, .indent, .dedent])
    (join : String → Expr → Expr → Expr) (ho : P operand operand) :
    P (leftChain ops join operand) (leftChain ops join operand) := by
  refine h.bind ho (h.iterate fun left => h.take_bind (fun op op' hop hk => ?_) (h.pure none))
  rw [h.text hop (hops _ hk)]
  exact h.bind ho fun right => h.pure _

theorem testList (hn : P nested nested) : P (testList nested) (testList nested) := by
  refine h.enter_bind (h.bind hn fun first => h.bind (h.collect ?_) fun others => h.pure _)
  exact h.take_bind (fun _ _ _ _ => h.bind hn fun e => h.pure _) (h.pure none)

theorem atom (hn : P nested nested) : P (atom nested) (atom nested) := by
  refine h.enter_bind (h.next_bind fun t t' ht => ?_)
  have htext : ∀ {k}, t.kind = k → k ∉ [.newline, .indent, .dedent] → t'.text = t.text := by
    rintro _ rfl hk
    exact h.text ht hk
  rw [h.kind ht]
  split
  · next hk =>
    rw [htext hk (by decide)]
    exact h.pure _
  · next hk =>
    unfold Parser.number
    rw [htext hk (by decide)]
    split
    · exact h.pure _
    · next he => exact h.number ht hk he
  · next hk =>
    unfold Parser.float
    rw [htext hk (by decide)]
    split
    · exact h.pure _
    · next he => exact h.float ht hk he
  · next hk =>
    unfold string
    rw [htext hk (by decide)]
    split
    · exact h.pure _
    · exact h.reject _ _ ht
  · exact h.bind hn fun e => h.expect_bind fun _ _ _ _ => h.pure e
  · exact h.reject _ _ ht

theorem call (hn : P nested nested) (name : String) : P (call nested name) (call nested name) := by
  have hclose : ∀ args,
      P (expect .call (.symbol .rpar) >>= fun _ => Pure.pure (Expr.call name args))
        (expect .call (.symbol .rpar) >>= fun _ => Pure.pure (Expr.call name args)) :=
    fun args => h.expect_bind fun _ _ _ _ => h.pure _
  refine h.enter_bind (h.expect_bind fun _ _ _ _ => ?_)
  exact h.ite (h.bind (h.pure []) hclose) (h.bind (h.testList hn) hclose)

theorem atomOrCall (hn : P nested nested) : P (atomOrCall nested) (atomOrCall nested) := by
  refine h.enter_bind (h.peek_bind fun first first' ht => h.bind (h.atom hn) fun e => ?_)
  by_cases hk : first.kind = .name
  · rw [if_pos hk, if_pos ((h.kind ht).trans hk), h.text ht (by rw [hk]; decide)]
    exact h.ite (h.call hn _) (h.pure e)
  · rw [if_neg hk, if_neg fun hk' => hk ((h.kind ht).symm.trans hk')]
    exact h.pure e

theorem factor (hn : P nested nested) (room : Nat) :
    P (factor nested room) (factor nested room) := by
  induction room with
  | zero => exact h.tooDeep
  | succ room ih =>
    refine h.enter_bind (h.take_bind (fun op op' hop hk => ?_) (h.atomOrCall hn))
    rw [h.text hop (by rw [List.mem_singleton.mp hk]; decide)]
    exact h.bind ih fun e => h.pure _

theorem comparison (hn : P nested nested) (room : Nat) :
    P (comparison nested room) (comparison nested room) :=
  h.enter_bind (h.leftChain (by decide) _ (h.enter_bind (h.leftChain (by decide) _
    (h.enter_bind (h.leftChain (by decide) _ (h.factor hn room))))))

theorem notTest (hn : P nested nested) (room : Nat) :
    P (notTest nested room) (notTest nested room) := by
  induction room with
  | zero => exact h.tooDeep
  | succ room ih =>
    refine h.enter_bind (h.take_bind (fun op op' hop hk => ?_) (h.comparison hn room))
    rw [h.text hop (by rw [List.mem_singleton.mp hk]; decide)]
    exact h.bind ih fun e => h.pure _

theorem test (room : Nat) : P (test room) (test room) := by
  induction room with
  | zero => exact h.tooDeep
  | succ room ih =>
    refine h.enter_bind (h.enter_bind (h.leftChain (by decide) _ ?_))
    exact h.enter_bind (h.leftChain (by decide) _ (h.notTest ih room))

end Expr

section Stmt

variable (h : PairLaw T P) {expr : Parse Expr} {stmt : Parse Stmt}
include h

theorem simpleBody (he : P expr expr) : P (simpleBody expr) (simpleBody expr) := by
  refine h.peek_bind fun t t' ht => ?_
  rw [h.kind ht]
  split
  · refine h.enter_bind (h.expect_bind fun _ _ _ _ => ?_)
    exact h.bind (h.testList he) fun es => h.pure _
  · refine h.depth (h.next_bind fun _ _ _ => h.reject _ _ ht) ?_
    exact h.enter_bind (h.expect_bind fun _ _ _ _ => h.bind he fun e => h.pure _)
  · next hk =>
    refine h.next_bind fun _ _ _ => h.peek_bind fun following following' hfollowing => ?_
    rw [h.text ht (by rw [hk]; decide), h.kind hfollowing]
    split
    · exact h.enter_bind (h.expect_bind fun _ _ _ _ => h.bind he fun e => h.pure _)
    · exact h.reject _ _ hfollowing
    · exact h.next_bind fun _ _ _ => h.reject _ _ hfollowing
  · exact h.next_bind fun _ _ _ => h.reject _ _ ht

theorem simpleStmt (he : P expr expr) : P (simpleStmt expr) (simpleStmt expr) :=
  h.enter_bind (h.bind (h.simpleBody he) fun _ => h.expect_bind fun _ _ _ _ => h.pure _)

theorem blockRest (hs : P stmt stmt) : P (blockRest stmt) (blockRest stmt) :=
  h.collect (h.ite (h.pure none) (h.bind hs fun _ => h.pure _))

theorem suite (hs : P stmt stmt) : P (suite stmt) (suite stmt) := by
  refine h.enter_bind (h.expect_bind fun _ _ _ _ => h.expect_bind fun _ _ _ _ => ?_)
  refine h.bind hs fun first => h.bind (h.blockRest hs) fun others => ?_
  exact h.expect_bind fun _ _ _ _ => h.pure _

theorem branch (he : P expr expr) (hs : P stmt stmt) : P (branch expr stmt) (branch expr stmt) :=
  h.bind he fun _ => h.expect_bind fun _ _ _ _ => h.bind (h.suite hs) fun _ => h.pure _

theorem ifStmt (he : P expr expr) (hs : P stmt stmt) : P (ifStmt expr stmt) (ifStmt expr stmt) := by
  refine h.enter_bind (h.expect_bind fun _ _ _ _ => h.bind (h.branch he hs) fun first => ?_)
  refine h.bind (h.collect (h.ite ?_ (h.pure none))) fun elifs => h.ite ?_ (h.pure _)
  · exact h.next_bind fun _ _ _ => h.bind (h.branch he hs) fun _ => h.pure _
  · refine h.next_bind fun _ _ _ => h.expect_bind fun _ _ _ _ => ?_
    exact h.bind (h.suite hs) fun _ => h.pure _

theorem forStmt (he : P expr expr) (hs : P stmt stmt) :
    P (forStmt expr stmt) (forStmt expr stmt) := by
  refine h.enter_bind (h.expect_bind fun _ _ _ _ => h.expect_bind fun x x' hx hk => ?_)
  rw [h.text hx (by rw [hk]; decide)]
  refine h.expect_bind fun _ _ _ _ => h.expect_bind fun _ _ _ _ => h.expect_bind fun _ _ _ _ => ?_
  refine h.bind (h.testList he) fun args => h.expect_bind fun close close' hclose _ => ?_
  by_cases hmany : Loop.maxArguments < args.length
  · rw [if_pos hmany, if_pos hmany]
    exact h.reject _ _ hclose
  · rw [if_neg hmany, if_neg hmany]
    exact h.expect_bind fun _ _ _ _ => h.bind (h.suite hs) fun _ => h.pure _

theorem param (earlier : List String) : P (param earlier) (param earlier) := by
  refine h.expect_bind fun t t' ht hk => ?_
  rw [h.text ht (by rw [hk]; decide)]
  cases earlier.contains t.text with
  | true => exact h.reject _ _ ht
  | false => exact h.pure _

theorem params : P params params := by
  refine h.bind (h.param []) (h.iterate fun earlier => h.ite ?_ (h.pure none))
  exact h.next_bind fun _ _ _ => h.bind (h.param earlier) fun _ => h.pure _

theorem funcSuite (hs : P stmt stmt) : P (funcSuite stmt) (funcSuite stmt) := by
  refine h.enter_bind (h.expect_bind fun _ _ _ _ => h.expect_bind fun _ _ _ _ => ?_)
  exact h.bind (h.inFunction (h.blockRest hs)) fun _ => h.expect_bind fun _ _ _ _ => h.pure _

theorem funcDef (hs : P stmt stmt) : P (funcDef stmt) (funcDef stmt) := by
  refine h.enter_bind (h.expect_bind fun _ _ _ _ => h.expect_bind fun name name' hname hk => ?_)
  rw [h.text hname (by rw [hk]; decide)]
  refine h.expect_bind fun _ _ _ _ => ?_
  have hrest : ∀ ps, P
      (expect .funcDef (.symbol .rpar) >>= fun _ => expect .funcDef (.symbol .colon) >>= fun _ =>
        Parser.funcSuite stmt >>= fun body => Pure.pure (Stmt.define name.text ps body false))
      (expect .funcDef (.symbol .rpar) >>= fun _ => expect .funcDef (.symbol .colon) >>= fun _ =>
        Parser.funcSuite stmt >>= fun body => Pure.pure (Stmt.define name.text ps body false)) :=
    fun ps => h.expect_bind fun _ _ _ _ => h.expect_bind fun _ _ _ _ =>
      h.bind (h.funcSuite hs) fun _ => h.pure _
  exact h.ite (h.bind (h.pure []) hrest) (h.bind h.params hrest)

theorem compoundStmt (he : P expr expr) (hs : P stmt stmt) :
    P (compoundStmt expr stmt) (compoundStmt expr stmt) := by
  refine h.enter_bind (h.peek_bind fun t t' ht => ?_)
  rw [h.kind ht]
  split
  · exact h.forStmt he hs
  · exact h.ifStmt he hs
  · exact h.funcDef hs
  · exact h.next_bind fun _ _ _ => h.reject _ _ ht

theorem statement (room : Nat) : P (statement room) (statement room) := by
  induction room with
  | zero => exact h.tooDeep
  | succ room ih =>
    exact h.enter_bind (h.ite (h.compoundStmt (h.test room) ih) (h.simpleStmt (h.test room)))

/-- A law of pairs of steps is a law of programs. -/
theorem program (room : Nat) : P (program room) (program room) := by
  refine h.enter_bind (h.bind (h.collect (h.ite (h.pure none) (h.ite ?_ ?_))) fun _ => h.pure _)
  · exact h.next_bind fun _ _ _ => h.pure _
  · exact h.bind (h.statement room) fun _ => h.pure _

end Stmt

end PairLaw

end TinyScript.Parser
