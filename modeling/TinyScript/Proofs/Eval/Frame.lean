import TinyScript.Proofs.Eval.Rules

/-!
# What statements leave alone

Loop variables are counted in place, and several names may share one value, so it is not plain from
the text of a statement which variables it changes. `Stmt.framed` says that a statement leaves every
variable as it was that it does not assign: a loop counts in a cell that is younger than the
environment before the loop, and such cells belong to nobody else.
-/

namespace TinyScript

mutual

/-- Whether a statement assigns a variable, outside the bodies of functions. -/
def Stmt.assigns (x : String) : Stmt → Bool
  | .assign y _ => y = x
  | .ifElse _ body arms => Stmt.assignsAny x body || arms.assigns x
  | .headless arms => arms.assigns x
  | .forRange _ _ body | .block body | .guarded _ body => Stmt.assignsAny x body
  | .print _ | .define .. | .ret _ | .bare _ | .hole => false

def Arms.assigns (x : String) : Arms → Bool
  | .done => false
  | .otherwise body => Stmt.assignsAny x body
  | .elif _ body rest => Stmt.assignsAny x body || rest.assigns x

def Stmt.assignsAny (x : String) : List Stmt → Bool
  | [] => false
  | s :: ss => s.assigns x || Stmt.assignsAny x ss

end

/-- The later environment has the variables outside `A` as the earlier one had them, as far as their
cells are older than the earlier environment. What is new is in young cells. -/
structure Frame (A : String → Bool) (e e' : Env) : Prop where
  fresh : e.freshCell ≤ e'.freshCell
  kept : ∀ x, A x = false → (∀ b, e.bindings.find? x = some b → b.cell < e.freshCell) →
    e'.bindings.find? x = e.bindings.find? x
  young : ∀ x b', e'.bindings.find? x = some b' →
    e.freshCell ≤ b'.cell ∨ ∃ b, e.bindings.find? x = some b ∧ b.cell = b'.cell

namespace Frame

variable {A B : String → Bool} {e e' e'' : Env} {x : String}

theorem refl (A : String → Bool) (e : Env) : Frame A e e :=
  ⟨Nat.le_refl _, fun _ _ _ => rfl, fun _ b' h => .inr ⟨b', h, rfl⟩⟩

theorem trans (h : Frame A e e') (h' : Frame A e' e'') : Frame A e e'' where
  fresh := Nat.le_trans h.fresh h'.fresh
  kept := by
    intro x hx hcells
    have hfirst := h.kept x hx hcells
    rw [← hfirst]
    apply h'.kept x hx
    intro b hb
    rw [hfirst] at hb
    exact Nat.lt_of_lt_of_le (hcells b hb) h.fresh
  young := by
    intro x b'' hb''
    rcases h'.young x b'' hb'' with hyoung | ⟨b', hb', hcell⟩
    · exact .inl (Nat.le_trans h.fresh hyoung)
    · rw [← hcell]
      exact h.young x b' hb'

theorem mono (h : Frame A e e') (hAB : ∀ x, B x = false → A x = false) : Frame B e e' :=
  ⟨h.fresh, fun x hx => h.kept x (hAB x hx), h.young⟩

theorem set (hx : A x = true) (v : Value) : Frame A e (e.set x v) where
  fresh := Nat.le_succ _
  kept := by
    intro y hy _
    have hne : ¬x = y := by
      intro heq
      rw [← heq, hx] at hy
      cases hy
    simp only [Env.set, Table.find?_insert, if_neg hne]
  young := by
    intro y b' hb'
    simp only [Env.set, Table.find?_insert] at hb'
    split at hb'
    · cases hb'
      exact .inl (Nat.le_refl _)
    · exact .inr ⟨b', hb', rfl⟩

theorem register (f : Function) : Frame A e (e.register f) :=
  ⟨Nat.le_refl _, fun _ _ _ => rfl, fun _ b' h => .inr ⟨b', h, rfl⟩⟩

/-- Writing to a young cell. -/
theorem write (h : Frame A e e') {cell : Nat} (hcell : e.freshCell ≤ cell) (v : Value) :
    Frame A e (e'.write cell v) where
  fresh := h.fresh
  kept := by
    intro y hy hcells
    have hkept := h.kept y hy hcells
    simp only [Env.write, Table.find?_map, hkept]
    cases hb : e.bindings.find? y with
    | none => rfl
    | some b =>
      have hold := hcells b hb
      have hne : ¬b.cell = cell := by omega
      simp only [Option.map_some, if_neg hne]
  young := by
    intro y b' hb'
    simp only [Env.write, Table.find?_map, Option.map_eq_some_iff] at hb'
    obtain ⟨b, hb, hb'⟩ := hb'
    have hsame : b'.cell = b.cell := by
      rw [← hb']
      split <;> rfl
    rw [hsame]
    exact h.young y b hb

/-- Counting a variable that is new. -/
theorem increment (h : Frame A e e') (hfree : e.bindings.find? x = none) {step : Int}
    (heq : e'.increment x step = .ok e'') : Frame A e e'' := by
  unfold Env.increment at heq
  cases hb : e'.bindings.find? x with
  | none =>
    rw [hb] at heq
    cases heq
  | some b =>
    have hyoung : e.freshCell ≤ b.cell := by
      rcases h.young x b hb with hyoung | ⟨b₀, hb₀, -⟩
      · exact hyoung
      · rw [hfree] at hb₀
        cases hb₀
    rw [hb] at heq
    cases hv : b.value.increment step with
    | error f => simp [hv, Except.map] at heq
    | ok v =>
      simp only [hv, Except.map, Except.ok.injEq] at heq
      rw [← heq]
      exact h.write hyoung v

/-- Taking a variable out again that is new. -/
theorem erase (h : Frame (fun y => A y || decide (y = x)) e e')
    (hfree : e.bindings.find? x = none) :
    Frame A e (e'.erase x) where
  fresh := h.fresh
  kept := by
    intro y hy hcells
    simp only [Env.erase, Table.find?_erase]
    split
    · next heq =>
      rw [← heq, hfree]
    · next hne =>
      apply h.kept y _ hcells
      simp [hy, Ne.symm hne]
  young := by
    intro y b' hb'
    simp only [Env.erase, Table.find?_erase] at hb'
    split at hb'
    · cases hb'
    · exact h.young y b' hb'

end Frame

open Exec

/-- Every run leaves the variables outside `A` alone, however it ends. -/
def Framed {α : Type} (A : String → Bool) (p : Exec α) : Prop :=
  ∀ e, Within (Frame A e) (fun _ => True) p fun _ => True

section Framed

variable {α β : Type} {A B : String → Bool} {p : Exec α} {f : α → Exec β}

theorem Framed.mono (h : Framed A p) (hAB : ∀ x, B x = false → A x = false) : Framed B p := by
  intro e w hw
  have hp := h w.env w (Frame.refl A w.env)
  cases hr : p w with
  | ok a w' =>
    rw [hr] at hp
    exact ⟨hw.trans (hp.1.mono hAB), trivial⟩
  | error s w' =>
    rw [hr] at hp
    exact ⟨hw.trans (hp.1.mono hAB), trivial⟩

theorem Framed.inl (h : Framed A p) : Framed (fun x => A x || B x) p :=
  h.mono fun _ hx => (Bool.or_eq_false_iff.mp hx).1

theorem Framed.inr (h : Framed B p) : Framed (fun x => A x || B x) p :=
  h.mono fun _ hx => (Bool.or_eq_false_iff.mp hx).2

theorem Framed.bind (h : Framed A p) (hf : ∀ a, Framed A (f a)) : Framed A (p >>= f) :=
  fun e => (h e).bind fun a _ => hf a e

theorem framed_pure (a : α) : Framed A (pure a) := fun _ => within_pure trivial

theorem framed_throw (s : Stop) : Framed A (throw s : Exec α) := fun _ => within_throw trivial

theorem framed_ask (query : Env → Except Fault α) : Framed A (ask query) :=
  fun _ => within_ask fun _ _ => answers_of_true _

theorem framed_trace (level : Int) (text : Thunk String) : Framed A (trace level text) :=
  fun _ => within_trace level text

theorem Framed.ite {p q : Exec β} {test : Exec Bool} (h : Framed A test) (hp : Framed A p)
    (hq : Framed A q) : Framed A (test >>= fun b => if b = true then p else q) :=
  fun e => (h e).ite (hp e) (hq e)

theorem framed_assign {x : String} (hx : A x = true) (g : Grant) (value : Expr) :
    Framed A (assign g x value) := by
  refine (framed_ask _).bind fun v => Framed.bind ?_ fun _ => Framed.bind ?_ fun _ =>
    framed_trace _ _
  · exact fun e => within_change fun env henv => henv.trans (Frame.set hx v)
  · exact fun e => within_ofExcept (answers_of_true _)

/-- The variable of a loop is new while the loop runs and gone after it. -/
theorem framed_runLoop (room passes : Nat) (x : String) (args : List Expr) {pass : Exec Unit}
    (h : Framed A pass) : Framed A (runLoop room passes x args pass) := by
  intro e
  have hfree : ∀ env : Env, env.exists? x = false → env.bindings.find? x = none := by
    intro env henv
    exact Option.isNone_iff_eq_none.mp (Option.isSome_eq_false_iff.mp henv)
  apply within_runLoop (J := Frame fun y => A y || decide (y = x))
  · exact fun _ _ _ _ => trivial
  · exact fun env n _ _ => Frame.set (by simp) _
  · intro env start stop step _ henv
    apply within_run
    · exact fun direction => (framed_ask _).bind (fun _ => framed_pure _) env
    · exact h.inl env
    · apply within_tryChange
      intro cur hcur
      cases hcount : cur.increment x step with
      | ok next => exact hcur.increment (hfree env henv) hcount
      | error f => trivial
    · trivial
    · trivial
  · intro env cur henv hnone hcur
    exact henv.trans (hcur.erase (hfree env hnone))

end Framed

mutual

/-- A statement leaves alone what it does not assign. -/
theorem Stmt.framed (g : Grant) (s : Stmt) : Framed (fun x => s.assigns x) (s.exec g) := by
  cases s with
  | assign x e => exact framed_assign (by simp [Stmt.assigns]) g e
  | print es => exact (framed_ask _).bind fun line e => within_print line
  | ifElse c body arms =>
    have hbody := (Stmt.framed_all g body).inl (B := fun x => arms.assigns x)
    have harms := (Arms.framed g 1 arms).inr (A := fun x => Stmt.assignsAny x body)
    exact (framed_ask _).ite (hbody.bind fun _ => framed_trace _ _) harms
  | headless arms => exact framed_throw _
  | forRange x args body => exact framed_runLoop g.room g.passes x args (Stmt.framed_all g body)
  | define name params body registered =>
    cases registered with
    | true => exact framed_pure ()
    | false =>
      refine Framed.bind ?_ fun _ => framed_trace _ _
      exact fun e => within_change fun env henv => henv.trans (Frame.register _)
  | ret e => exact (framed_ask _).bind fun v => framed_throw _
  | bare e => exact (framed_ask _).bind fun v => framed_pure _
  | block body => exact Stmt.framed_all g body
  | guarded c body => exact (framed_ask _).ite (Stmt.framed_all g body) (framed_pure ())
  | hole => exact framed_throw _

theorem Arms.framed (g : Grant) (index : Nat) (arms : Arms) :
    Framed (fun x => arms.assigns x) (arms.exec g index) := by
  cases arms with
  | done => exact framed_pure ()
  | otherwise body => exact (framed_trace _ _).bind fun _ => Stmt.framed_all g body
  | elif c body rest =>
    have hbody := (Stmt.framed_all g body).inl (B := fun x => rest.assigns x)
    have hrest := (Arms.framed g (index + 1) rest).inr (A := fun x => Stmt.assignsAny x body)
    exact (framed_ask _).ite (hbody.bind fun _ => framed_trace _ _) hrest

theorem Stmt.framed_all (g : Grant) (ss : List Stmt) :
    Framed (fun x => Stmt.assignsAny x ss) (Stmt.execAll g ss) := by
  cases ss with
  | nil => exact framed_pure ()
  | cons s ss =>
    have hfirst := (Stmt.framed g s).inl (B := fun x => Stmt.assignsAny x ss)
    have hmore := (Stmt.framed_all g ss).inr (A := fun x => s.assigns x)
    exact hfirst.bind fun _ => hmore

end

end TinyScript
