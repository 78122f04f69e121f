import TinyScript.Interpreter
import TinyScript.Proofs.Eval.Lockstep
import TinyScript.Proofs.Parsing.Concat

/-!
# Running programs one after the other

A program that has the statements of two others runs as they do, the second after the first: their
runs differ in the messages at their beginnings and ends only, and no step looks at the log. With
`parseProgram_append` the same holds of texts.
-/

namespace TinyScript

open Interpreter (reportDepth run)

/-- The worlds are the same but for what the log has been told. -/
structure World.Agree (w w' : World) : Prop where
  env : w'.env = w.env
  output : w'.output = w.output

namespace World.Agree

theorem refl (w : World) : w.Agree w := ⟨rfl, rfl⟩

theorem symm {w w' : World} (h : w.Agree w') : w'.Agree w := ⟨h.env.symm, h.output.symm⟩

theorem trans {w w' w'' : World} (h : w.Agree w') (h' : w'.Agree w'') : w.Agree w'' :=
  ⟨h'.env.trans h.env, h'.output.trans h.output⟩

end World.Agree

theorem World.lockstep_agree : Lockstep World.Agree where
  env h := h.env
  change _ h := ⟨rfl, h.output⟩
  print text h := ⟨h.env, congrArg (· ++ text) h.output⟩
  trace _ _ h := by
    constructor
    · split <;> split <;> exact h.env
    · split <;> split <;> exact h.output

theorem Stmt.execAll_append (g : Grant) (A B : Block) :
    Stmt.execAll g (A ++ B) = Stmt.execAll g A >>= fun _ => Stmt.execAll g B := by
  induction A with
  | nil => rfl
  | cons s A ih =>
    rw [List.cons_append, Stmt.execAll, Stmt.execAll, ih, bind_assoc]

/-- How a reason to stop is reported does not depend on the step that it stops. -/
theorem Interpreter.exists_reportDepth (scope : String) (s : Stop) :
    ∃ s', ∀ {α : Type} (p : Exec α) {w w' : World}, p w = .error s w' →
      reportDepth scope p w = .error s' w' := by
  by_cases hs : s = .fault (.limit .nesting)
  · subst hs
    exact ⟨.fault (.script (.tooDeep scope)), fun p w w' h => by simp only [reportDepth, h]⟩
  · refine ⟨s, fun p w w' h => ?_⟩
    unfold reportDepth
    rw [h]
    split
    · next heq =>
      cases heq
      exact absurd rfl hs
    · rfl

theorem Interpreter.reportDepth_bind {α β : Type} (scope : String) (p : Exec α) (f : α → Exec β) :
    reportDepth scope (p >>= f) = reportDepth scope p >>= fun a => reportDepth scope (f a) := by
  funext w
  cases hr : p w with
  | ok a w' =>
    have hp : reportDepth scope p w = .ok a w' := by simp only [reportDepth, hr]
    rw [Exec.bind_of_ok hp]
    simp only [reportDepth, Exec.bind_of_ok hr]
  | error s w' =>
    obtain ⟨s', hs'⟩ := exists_reportDepth scope s
    rw [Exec.bind_of_error (hs' p hr), hs' _ (Exec.bind_of_error hr)]

theorem Exec.Parallel.reportDepth {α : Type} {R : World → World → Prop} {p : Exec α}
    (h : Exec.Parallel R p) (scope : String) : Exec.Parallel R (reportDepth scope p) := by
  intro w w' hw
  have hp := h w w' hw
  generalize hr : p w = r at hp
  generalize hr' : p w' = r' at hp
  cases hp with
  | ok hv =>
    simp only [Interpreter.reportDepth, hr, hr']
    exact .ok hv
  | @error s _ _ hv =>
    obtain ⟨s', hs'⟩ := Interpreter.exists_reportDepth scope s
    rw [hs' p hr, hs' p hr']
    exact .error hv

section Together

variable {α : Type} {r r' r'' : EStateM.Result Stop World α}

theorem Together.symm (h : Together World.Agree r r') : Together World.Agree r' r := by
  cases h with
  | ok h => exact .ok h.symm
  | error h => exact .error h.symm

theorem Together.trans (h : Together World.Agree r r') (h' : Together World.Agree r' r'') :
    Together World.Agree r r'' := by
  cases h with
  | ok h =>
    cases h' with
    | ok h' => exact .ok (h.trans h')
  | error h =>
    cases h' with
    | error h' => exact .error (h.trans h')

/-- What is told to the log in the end makes no difference. -/
theorem Together.ensuring {p : Exec α} {w : World} {change : World → World}
    (h : Together World.Agree r (p w)) (hchange : ∀ v : World, v.Agree (change v)) :
    Together World.Agree r (Exec.ensuring p change w) := by
  unfold Exec.ensuring
  generalize p w = r' at h
  cases h with
  | ok h => exact .ok (h.trans (hchange _))
  | error h => exact .error (h.trans (hchange _))

end Together

namespace Interpreter

/-- The statements of a run without the messages around them. -/
def body (g : Grant) (program : Block) : Exec Unit :=
  reportDepth "Interpreter.run" (Stmt.execAll g program)

theorem body_append (g : Grant) (A B : Block) :
    body g (A ++ B) = body g A >>= fun _ => body g B := by
  rw [body, Stmt.execAll_append, reportDepth_bind]
  rfl

theorem together_body_run (g : Grant) (program : Block) {w w' : World} (h : w.Agree w') :
    Together World.Agree (body g program w) (run g program w') := by
  have hbody : Exec.Parallel World.Agree (body g program) :=
    (Stmt.parallel_all World.lockstep_agree g program).reportDepth _
  have hnote : w.Agree { w' with
      log := w'.log.note 1 ("run: " ++ program.length.repr ++ " top-level statements") } :=
    ⟨h.env, h.output⟩
  exact (hbody _ _ hnote).ensuring fun v => ⟨rfl, rfl⟩

/-- A program with the statements of two others does what they do, one after the other. -/
theorem together_run_append (g : Grant) (A B : Block) {w w' : World} (h : w.Agree w') :
    Together World.Agree (run g (A ++ B) w) ((run g A >>= fun _ => run g B) w') := by
  have hboth : Together World.Agree (body g (A ++ B) w) ((run g A >>= fun _ => run g B) w') := by
    rw [body_append]
    exact (together_body_run g A h).bind fun _ _ _ hv => together_body_run g B hv
  exact (together_body_run g (A ++ B) (.refl w)).symm.trans hboth

end Interpreter

/-- The text of a program, ended, and the text of another, which begins without a margin, are
together the text of the program with the statements of both. Running it does what running the one
and, if it ends normally, the other does: it ends in the same way, with the same environment and
with the same output. Whatever room the texts take on their own, they take no more together. -/
theorem concat_composes {room : Nat} {a b : String} {A B : Block} {log log' : Log}
    (ha : (parseProgram room a log).1 = .ok A) (hb : (parseProgram room b log').1 = .ok B)
    (hend : a = "" ∨ a.toList.getLast? = some '\n') (hfree : Source.dangling a.toList = false)
    (hhead : ∀ c ∈ b.toList.head?, Terminal.isMargin c = false) :
    (∀ room' log'', room ≤ room' → (parseProgram room' (a ++ b) log'').1 = .ok (A ++ B)) ∧
    ∀ l w, room ≤ l.nesting → match (run l.grant A >>= fun _ => run l.grant B) w with
      | .ok _ w' => ∃ v, runProgram l (a ++ b) w = (.finished, v) ∧ w'.Agree v
      | .error s w' => ∃ v, runProgram l (a ++ b) w = (.stopped s, v) ∧ w'.Agree v := by
  have hparse : ∀ room' log'', room ≤ room' →
      (parseProgram room' (a ++ b) log'').1 = .ok (A ++ B) :=
    fun room' log'' hroom => parseProgram_append ha hb hend hfree hhead hroom log''
  refine ⟨hparse, fun l w hroom => ?_⟩
  obtain ⟨log₁, hlog⟩ : ∃ log₁, parseProgram l.nesting (a ++ b) w.log = (.ok (A ++ B), log₁) :=
    ⟨_, Prod.ext (hparse l.nesting w.log hroom) rfl⟩
  have hworld : World.Agree { w with log := log₁ } w := ⟨rfl, rfl⟩
  have hrun := (Interpreter.together_run_append l.grant A B hworld).symm
  simp only [runProgram, hlog]
  generalize (run l.grant A >>= fun _ => run l.grant B) w = r at hrun ⊢
  generalize run l.grant (A ++ B) { w with log := log₁ } = r' at hrun ⊢
  cases hrun with
  | ok h => exact ⟨_, rfl, h⟩
  | error h => exact ⟨_, rfl, h⟩

/-- A text that ends inside a block. -/
def blockSource : String := "if 1:\n\tx = 1\n"

/-- A text that begins with a blank line and a comment. -/
def loopSource : String := "\n# twice\nfor i in range(2):\n  print x + i\n"

theorem concat_blockSource_loopSource :
    ∃ A B, (parseProgram 200 blockSource ⟨0, #[]⟩).1 = .ok A ∧
      (parseProgram 200 loopSource ⟨0, #[]⟩).1 = .ok B ∧
      (parseProgram 200 (blockSource ++ loopSource) ⟨0, #[]⟩).1 = .ok (A ++ B) ∧
      match (run Interpreter.grant A >>= fun _ => run Interpreter.grant B)
          (Interpreter.start ⟨0, #[]⟩) with
      | .ok _ w' => ∃ v, runProgram Interpreter.limits (blockSource ++ loopSource)
          (Interpreter.start ⟨0, #[]⟩) = (.finished, v) ∧ w'.Agree v
      | .error s w' => ∃ v, runProgram Interpreter.limits (blockSource ++ loopSource)
          (Interpreter.start ⟨0, #[]⟩) = (.stopped s, v) ∧ w'.Agree v := by
  have hreadA : (parseProgram 200 blockSource ⟨0, #[]⟩).1.isOk = true := by decide +kernel
  have hreadB : (parseProgram 200 loopSource ⟨0, #[]⟩).1.isOk = true := by decide +kernel
  cases hA : (parseProgram 200 blockSource ⟨0, #[]⟩).1 with
  | error e =>
    rw [hA] at hreadA
    cases hreadA
  | ok A =>
    cases hB : (parseProgram 200 loopSource ⟨0, #[]⟩).1 with
    | error e =>
      rw [hB] at hreadB
      cases hreadB
    | ok B =>
      have hhead : ∀ c ∈ loopSource.toList.head?, Terminal.isMargin c = false := by
        intro c hc
        cases hc
        rfl
      obtain ⟨hparse, hrun⟩ := concat_composes hA hB (.inr rfl) (by decide) hhead
      exact ⟨A, B, rfl, rfl, hparse _ _ (Nat.le_refl _), hrun Interpreter.limits _ (Nat.le_refl _)⟩

end TinyScript
