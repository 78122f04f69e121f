import TinyScript.Proofs.Parsing.Step

/-!
# Calls of a cursor

A cursor is used through four calls: it looks at the next token, steps over it, takes the last step
back, and tells what has been stepped over. A run makes any calls one after the other and notes what
each of them gives. What a cursor does next is settled by that record alone (`run_oneSlot`): its
place is the number of steps that have not been taken back, and the one step that can be taken back
is the last one, as long as that has not happened yet.

The place goes on past the last token, where reading stays at the end of the input. Since no more
than one step can be taken back, the end of the input is never left again once it has been read.
-/

namespace TinyScript

/-- What can be asked of a cursor. -/
inductive Call where
  | peek | next | pushBack | history
  deriving DecidableEq, Repr

/-- What a call gives. -/
inductive Event where
  | peeked (t : Token)
  | read (t : Token)
  | tookBack
  /-- There is no step to be taken back, and the call fails with a message. -/
  | refused (message : String)
  | told (ts : List Token)
  deriving DecidableEq, Repr

namespace Event

/-- The token that a call gives. -/
def token? : Event → Option Token
  | peeked t | read t => some t
  | tookBack | refused _ | told _ => none

/-- Whether the cursor has gone forward or back. -/
def moves : Event → Bool
  | read _ | tookBack => true
  | peeked _ | refused _ | told _ => false

/-- The token `t` was read in the last step, and that step has not been taken back. -/
def Pending (es : List Event) (t : Token) : Prop :=
  ∃ before after, es = before ++ read t :: after ∧ ∀ e ∈ after, e.moves = false

theorem pending_concat {es : List Event} {e : Event} {t : Token} :
    Pending (es ++ [e]) t ↔ e = read t ∨ e.moves = false ∧ Pending es t := by
  constructor
  · rintro ⟨before, after, hes, hafter⟩
    rcases List.eq_nil_or_concat after with rfl | ⟨after, last, rfl⟩
    · obtain ⟨-, he⟩ := List.append_inj' hes rfl
      exact .inl (List.singleton_inj.mp he)
    · rw [List.concat_eq_append, ← List.cons_append, ← List.append_assoc] at hes
      rw [List.concat_eq_append, List.forall_mem_append, List.forall_mem_singleton] at hafter
      obtain ⟨rfl, he⟩ := List.append_inj' hes rfl
      rw [List.singleton_inj.mp he]
      exact .inr ⟨hafter.2, before, after, rfl, hafter.1⟩
  · rintro (rfl | ⟨he, before, after, rfl, hafter⟩)
    · exact ⟨es, [], rfl, by simp⟩
    · refine ⟨before, after ++ [e], by simp, ?_⟩
      exact List.forall_mem_append.mpr ⟨hafter, List.forall_mem_singleton.mpr he⟩

end Event

namespace Cursor

open Event (Pending pending_concat)

/-- Makes a call: what it gives, and where the cursor is then. -/
def perform (c : Cursor) : Call → Event × Cursor
  | .peek => (.peeked c.peek, c)
  | .next => (.read c.peek, c.next)
  | .pushBack =>
    match c.pushBack? with
    | some c' => (.tookBack, c')
    | none => (.refused pushBackMessage, c)
  | .history => (.told c.history, c)

/-- Makes calls one after the other. -/
def run (c : Cursor) : List Call → List Event × Cursor
  | [] => ([], c)
  | call :: calls =>
    let (e, c') := c.perform call
    let (es, c'') := c'.run calls
    (e :: es, c'')

/-- What a call can do: it leaves the cursor where it is, or steps over the next token, or takes the
last step back. -/
inductive Step (c : Cursor) : Call → Event → Cursor → Prop where
  | stay {call : Call} {e : Event} (hcall : call ≠ .next) (hmoves : e.moves = false)
      (htoken : ∀ t, e.token? = some t → c.peek = t) : Step c call e c
  | next : Step c .next (.read c.peek) c.next
  | back {c' : Cursor} (h : c.pushBack? = some c') : Step c .pushBack .tookBack c'

section

variable {c c' : Cursor} {ts : List Token} {call : Call} {calls : List Call} {e : Event}
  {es : List Event} {t : Token}

theorem pushBack?_eq_some_iff : c.pushBack? = some c' ↔
    c.canPushBack = true ∧ c' = { c with pos := c.pos - 1, canPushBack := false } := by
  unfold pushBack?
  split
  · next h => simp [h, eq_comm]
  · next h => simp [h]

/-- Taking back a step that was just made leads before the token that it read. -/
theorem pushBack?_next (c : Cursor) :
    c.next.pushBack? = some { c with canPushBack := false } := rfl

theorem perform_pushBack_of_some (h : c.pushBack? = some c') :
    c.perform .pushBack = (.tookBack, c') := by
  simp only [perform, h]

theorem perform_pushBack_of_none (h : c.pushBack? = none) :
    c.perform .pushBack = (.refused pushBackMessage, c) := by
  simp only [perform, h]

theorem step_perform (c : Cursor) (call : Call) :
    c.Step call (c.perform call).1 (c.perform call).2 := by
  cases call with
  | peek => exact .stay (by decide) rfl fun _ => Option.some.inj
  | next => exact .next
  | history => exact .stay (by decide) rfl fun _ h => by cases h
  | pushBack =>
    cases hback : c.pushBack? with
    | some c' => rw [perform_pushBack_of_some hback]; exact .back hback
    | none => rw [perform_pushBack_of_none hback]; exact .stay (by decide) rfl fun _ h => by cases h

theorem run_cons (c : Cursor) (call : Call) (calls : List Call) :
    c.run (call :: calls) = ((c.perform call).1 :: ((c.perform call).2.run calls).1,
      ((c.perform call).2.run calls).2) := rfl

theorem Step.peek_eq (h : c.Step call e c') (ht : e.token? = some t) : c.peek = t := by
  cases h with
  | stay _ _ htoken => exact htoken t ht
  | next => exact Option.some.inj ht
  | back _ => cases ht

theorem Step.tokens (h : c.Step call e c') : c'.tokens = c.tokens := by
  cases h with
  | stay | next => rfl
  | back hback => rw [(pushBack?_eq_some_iff.mp hback).2]

/-- With no step to take back, only a step forward moves the cursor. -/
theorem Step.eq_of_empty_slot (h : c.Step call e c') (hslot : c.canPushBack = false)
    (hcall : call ≠ .next) : c' = c := by
  cases h with
  | stay => rfl
  | next => exact absurd rfl hcall
  | back hback => exact absurd (pushBack?_eq_some_iff.mp hback).1 (by simp [hslot])

theorem run_of_empty_slot (hslot : c.canPushBack = false) (hcalls : .next ∉ calls) :
    (c.run calls).2 = c := by
  induction calls with
  | nil => rfl
  | cons call calls ih =>
    rw [List.mem_cons, not_or] at hcalls
    rw [run_cons, (c.step_perform call).eq_of_empty_slot hslot (Ne.symm hcalls.1)]
    exact ih hcalls.2

/-- The token that is looked at stands at the place of the cursor, or at the end. -/
theorem getElem?_peek (c : Cursor) :
    c.tokens.toList[min c.pos (c.tokens.size - 1)]? = some c.peek := by
  have hlt : min c.pos (c.tokens.size - 1) < c.tokens.size := by
    have := c.nonempty
    omega
  rw [Array.getElem?_toList, Array.getElem?_eq_getElem hlt]
  rfl

/-- How the calls that were made and what they gave determine the state of a cursor. -/
structure Traced (ts : List Token) (calls : List Call) (es : List Event) (c : Cursor) : Prop where
  tokens : c.tokens = (ofTokens ts).tokens
  pos : c.pos + es.count .tookBack = calls.count .next
  ahead : c.canPushBack = true → 0 < c.pos
  pending : ∀ t, Pending es t ↔ ∃ c', c.pushBack? = some c' ∧ c'.peek = t

namespace Traced

theorem start (ts : List Token) : Traced ts [] [] (ofTokens ts) where
  tokens := rfl
  pos := rfl
  ahead := nofun
  pending t := by
    constructor
    · rintro ⟨before, after, hes, -⟩
      simp at hes
    · rintro ⟨c', hback, -⟩
      cases hback

theorem stay (h : Traced ts calls es c) (hcall : call ≠ .next) (he : e.moves = false) :
    Traced ts (calls ++ [call]) (es ++ [e]) c where
  tokens := h.tokens
  pos := by
    have hback : e ≠ .tookBack := by rintro rfl; cases he
    rw [List.count_append, List.count_append, List.count_singleton, List.count_singleton]
    simpa [hcall, hback] using h.pos
  ahead := h.ahead
  pending t := by
    have hread : e ≠ .read t := by rintro rfl; cases he
    rw [pending_concat, ← h.pending t]
    simp [hread, he]

theorem next (h : Traced ts calls es c) :
    Traced ts (calls ++ [.next]) (es ++ [.read c.peek]) c.next where
  tokens := h.tokens
  pos := by
    have hes : (es ++ [Event.read c.peek]).count .tookBack = es.count .tookBack := by simp
    have hcalls : (calls ++ [Call.next]).count .next = calls.count .next + 1 := by simp
    rw [hes, hcalls, ← h.pos, pos_next]
    omega
  ahead _ := Nat.succ_pos c.pos
  pending t := by
    rw [pending_concat, pushBack?_next]
    simp [Event.moves, peek]

theorem back (h : Traced ts calls es c) (hback : c.pushBack? = some c') :
    Traced ts (calls ++ [.pushBack]) (es ++ [.tookBack]) c' := by
  obtain ⟨hslot, rfl⟩ := pushBack?_eq_some_iff.mp hback
  refine ⟨h.tokens, ?_, nofun, fun t => ?_⟩
  · have hes : (es ++ [Event.tookBack]).count .tookBack = es.count .tookBack + 1 := by simp
    have hcalls : (calls ++ [Call.pushBack]).count .next = calls.count .next := by simp
    have hahead := h.ahead hslot
    rw [hes, hcalls, ← h.pos]
    simp only
    omega
  · rw [pending_concat]
    simp [Event.moves, pushBack?]

theorem step (h : Traced ts calls es c) (hstep : c.Step call e c') :
    Traced ts (calls ++ [call]) (es ++ [e]) c' := by
  cases hstep with
  | stay hcall hmoves _ => exact h.stay hcall hmoves
  | next => exact h.next
  | back hback => exact h.back hback

theorem run (h : Traced ts calls es c) (more : List Call) :
    Traced ts (calls ++ more) (es ++ (c.run more).1) (c.run more).2 := by
  induction more generalizing calls es c with
  | nil => simpa [Cursor.run] using h
  | cons call more ih => simpa [run_cons] using ih (h.step (c.step_perform call))

end Traced

/-- The cursor stands at the last token or past it, and no step that can be taken back leads before
the last token. -/
structure AtEnd (c : Cursor) : Prop where
  here : c.tokens.size ≤ c.pos + 1
  behind : c.canPushBack = true → c.tokens.size ≤ c.pos

theorem atEnd_next (h : c.tokens.size ≤ c.pos + 1) : c.next.AtEnd :=
  ⟨Nat.le_succ_of_le h, fun _ => h⟩

theorem AtEnd.step (h : c.AtEnd) (hstep : c.Step call e c') : c'.AtEnd := by
  cases hstep with
  | stay => exact h
  | next => exact atEnd_next h.here
  | back hback =>
    obtain ⟨hslot, rfl⟩ := pushBack?_eq_some_iff.mp hback
    have := h.behind hslot
    exact ⟨by simp only; omega, by simp⟩

/-- At the end or past it, a token that is given is the last one. -/
theorem Step.getLast?_eq (hstep : c.Step call e c') (h : c.tokens.size ≤ c.pos + 1)
    (ht : e.token? = some t) : c.tokens.toList.getLast? = some t := by
  have hmin : min c.pos (c.tokens.size - 1) = c.tokens.size - 1 := by omega
  rw [← hstep.peek_eq ht, List.getLast?_eq_getElem?, Array.length_toList, ← hmin]
  exact c.getElem?_peek

theorem AtEnd.run (h : c.AtEnd) (calls : List Call) :
    ∀ e ∈ (c.run calls).1, ∀ t, e.token? = some t → c.tokens.toList.getLast? = some t := by
  induction calls generalizing c with
  | nil => exact List.forall_mem_nil _
  | cons call calls ih =>
    rw [run_cons, List.forall_mem_cons]
    have hstep := c.step_perform call
    refine ⟨fun t => hstep.getLast?_eq h.here, ?_⟩
    rw [← hstep.tokens]
    exact ih (h.step hstep)

/-- A cursor that has just come to the last token may still go back before it, and one that steps
over it may not. -/
theorem run_next_of_end (h : c.tokens.size ≤ c.pos + 1) (calls : List Call) :
    ∀ e ∈ (c.run (.next :: calls)).1, ∀ t, e.token? = some t →
      c.tokens.toList.getLast? = some t := by
  rw [run_cons, List.forall_mem_cons]
  exact ⟨fun t => (c.step_perform .next).getLast?_eq h, (atEnd_next h).run calls⟩

end

/-- What is known of a cursor over `ts` from the calls that were made and from what they gave. -/
structure OneSlot (ts : List Token) (calls : List Call) (es : List Event) (c : Cursor) : Prop where
  /-- The place counts the steps that have not been taken back. -/
  pos : (c.pos : Int) = calls.count .next - es.count .tookBack
  /-- A step is taken back if there is one and none has been taken back since the last one. -/
  slot : (c.perform .pushBack).1 = .tookBack ↔ ∃ t, Pending es t
  /-- Otherwise the call fails and changes nothing. -/
  refused : (¬∃ t, Pending es t) → c.perform .pushBack = (.refused pushBackMessage, c)
  /-- What is taken back is one whole step, and the next step repeats it. -/
  again : ∀ t, Pending es t → ∃ c', c.perform .pushBack = (.tookBack, c') ∧ c'.pos + 1 = c.pos ∧
    ∀ more, .next ∉ more → ((c'.run more).2.perform .next).1 = .read t
  /-- Looking shows the token at the place, or the last one past the end, and so does a step. -/
  shown : ∃ t, (terminated ts)[min c.pos ((terminated ts).length - 1)]? = some t ∧
    c.perform .peek = (.peeked t, c) ∧ c.perform .next = (.read t, c.next)
  /-- A step at the end or past it reads the end of the input, and so do all calls after it. -/
  ended : (terminated ts).length ≤ c.pos + 1 → ∀ more, ∀ e ∈ (c.run (.next :: more)).1,
    ∀ t, e.token? = some t → t.kind = .eof ∧ (terminated ts).getLast? = some t
  history :
    c.perform .history = (.told ((terminated ts).take (min c.pos (terminated ts).length)), c)

namespace Traced

variable {ts : List Token} {calls : List Call} {es : List Event} {c : Cursor}

theorem slot (h : Traced ts calls es c) :
    (c.perform .pushBack).1 = .tookBack ↔ ∃ t, Pending es t := by
  simp only [h.pending]
  cases hback : c.pushBack? with
  | none => simp [perform_pushBack_of_none hback]
  | some c' => simp [perform_pushBack_of_some hback]

theorem refused (h : Traced ts calls es c) (hnone : ¬∃ t, Pending es t) :
    c.perform .pushBack = (.refused pushBackMessage, c) := by
  cases hback : c.pushBack? with
  | none => exact perform_pushBack_of_none hback
  | some c' => exact absurd ⟨c'.peek, (h.pending _).mpr ⟨c', hback, rfl⟩⟩ hnone

theorem again (h : Traced ts calls es c) {t : Token} (ht : Pending es t) :
    ∃ c', c.perform .pushBack = (.tookBack, c') ∧ c'.pos + 1 = c.pos ∧
      ∀ more, .next ∉ more → ((c'.run more).2.perform .next).1 = .read t := by
  obtain ⟨c', hback, rfl⟩ := (h.pending t).mp ht
  refine ⟨c', perform_pushBack_of_some hback, ?_⟩
  obtain ⟨hslot, rfl⟩ := pushBack?_eq_some_iff.mp hback
  refine ⟨Nat.sub_add_cancel (h.ahead hslot), fun more hmore => ?_⟩
  -- The slot is empty now, so that no call in between moves the cursor.
  rw [run_of_empty_slot rfl hmore]
  rfl

theorem toList_tokens (h : Traced ts calls es c) : c.tokens.toList = terminated ts := by
  rw [h.tokens]
  rfl

theorem size_tokens (h : Traced ts calls es c) : c.tokens.size = (terminated ts).length := by
  rw [← h.toList_tokens, Array.length_toList]

theorem ended (h : Traced ts calls es c) (hend : (terminated ts).length ≤ c.pos + 1)
    (more : List Call) : ∀ e ∈ (c.run (.next :: more)).1, ∀ t, e.token? = some t →
      t.kind = .eof ∧ (terminated ts).getLast? = some t := by
  intro e he t ht
  have hlast := run_next_of_end (h.size_tokens ▸ hend) more e he t ht
  rw [h.toList_tokens] at hlast
  obtain ⟨us, last, hts, hkind⟩ := Parser.endsInput_terminated ts
  have heq : last = t := by
    rw [hts, List.getLast?_concat] at hlast
    exact Option.some.inj hlast
  exact ⟨heq ▸ hkind, hlast⟩

theorem oneSlot (h : Traced ts calls es c) : OneSlot ts calls es c where
  pos := by
    have := h.pos
    omega
  slot := h.slot
  refused := h.refused
  again _ := h.again
  shown := by
    refine ⟨c.peek, ?_, rfl, rfl⟩
    rw [← h.size_tokens, ← h.toList_tokens]
    exact c.getElem?_peek
  ended := h.ended
  history := by
    rw [← List.take_eq_take_min, ← h.toList_tokens]
    rfl

end Traced

/-- Any calls, made one after the other from before the first token of any list, use the cursor as
one with a single slot for a step that can be taken back. -/
theorem run_oneSlot (ts : List Token) (calls : List Call) :
    OneSlot ts calls ((ofTokens ts).run calls).1 ((ofTokens ts).run calls).2 :=
  ((Traced.start ts).run calls).oneSlot

/-- One token, and steps over the end that are taken back. -/
example :
    let x : Token := ⟨.name, "x", ⟨3, 7⟩⟩
    let eof := Token.eofAt ⟨3, 7⟩
    ((ofTokens [x]).run
        [.pushBack, .next, .next, .next, .pushBack, .pushBack, .peek, .next, .history]).1 =
      [.refused pushBackMessage, .read x, .read eof, .read eof, .tookBack, .refused pushBackMessage,
        .peeked eof, .read eof, .told [x, eof]] := by
  decide

end Cursor

end TinyScript
