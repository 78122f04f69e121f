import TinyScript.Parser
import TinyScript.Proofs.Parsing.Stmt

/-!
# Progress of parsing steps

`Orderly` describes all runs of a step on all lists of tokens, those that fail included. A run that
gives a result has taken at least so many tokens, none of them the end of the input; a run that
fails has read the end of the input at most once, as the last token it read. The depth of functions
is the same after the run. And a run that fails for lack of room has more tokens before it than the
room: every level of nesting is opened by a token, so on a given list of tokens there is always
enough room.

A round of a repetition that goes on takes a token. The repetitions are bounded by the tokens that
are left, and therefore end before the bound is used up: `Rounds` describes them without a bound,
and `rounds_iterate` says that this is how they end.
-/

namespace TinyScript.Parser

open Grammar

namespace State

/-- The second state is reached from the first by reading the tokens `ts`, of which only the last
may be the end of the input. -/
structure Reaches (s : State) (ts : List Token) (s' : State) : Prop where
  tokens : s'.cursor.tokens = s.cursor.tokens
  pos : s'.cursor.pos = s.cursor.pos + ts.length
  depth : s'.functionDepth = s.functionDepth
  rest : s.rest = ts ++ s'.rest
  inner : ∀ t ∈ ts.dropLast, t.kind ≠ .eof

variable {s s' s'' : State} {ts us : List Token} {t : Token}

theorem Steps.reaches (h : s.Steps ts s') : s.Reaches ts s' :=
  ⟨h.tokens, h.pos, h.depth, h.rest, fun t ht => h.inner t (List.dropLast_subset _ ht)⟩

theorem Steps.trans_reaches (h : s.Steps ts s') (h' : s'.Reaches us s'') :
    s.Reaches (ts ++ us) s'' where
  tokens := h'.tokens.trans h.tokens
  pos := by rw [h'.pos, h.pos, List.length_append, Nat.add_assoc]
  depth := h'.depth.trans h.depth
  rest := by rw [h.rest, h'.rest, List.append_assoc]
  inner := by
    intro t ht
    by_cases hus : us = []
    · rw [hus, List.append_nil] at ht
      exact h.inner t (List.dropLast_subset _ ht)
    · rw [List.dropLast_append_of_ne_nil hus] at ht
      rcases List.mem_append.mp ht with ht | ht
      · exact h.inner t ht
      · exact h'.inner t ht

theorem reaches_next (h : s.rest = t :: ts) :
    s.Reaches [t] { s with cursor := s.cursor.next } where
  tokens := rfl
  pos := rfl
  depth := rfl
  rest := by rw [rest_next h, h, List.singleton_append]
  inner := by simp

/-- The end of the input is read at most once. -/
theorem Reaches.countP_le_one (h : s.Reaches ts s') : ts.countP (·.kind = .eof) ≤ 1 := by
  rcases List.eq_nil_or_concat ts with rfl | ⟨us, t, rfl⟩
  · exact Nat.zero_le 1
  · have hzero : us.countP (·.kind = .eof) = 0 := by
      refine List.countP_eq_zero.mpr fun u hu => ?_
      simpa using h.inner u (by simpa using hu)
    rw [List.concat_eq_append, List.countP_append, hzero, Nat.zero_add]
    exact List.countP_le_length

end State

/-- How an orderly run from `s` ends. -/
inductive Ordered {α : Type} (s : State) (least : α → Nat) (room : Nat) :
    EStateM.Result Failure State α → Prop where
  | ok {a : α} {s' : State} {ts : List Token} (hsteps : s.Steps ts s')
      (hleast : least a ≤ ts.length) : Ordered s least room (.ok a s')
  | error {e : Failure} {s' : State} {ts : List Token} (hreaches : s.Reaches ts s')
      (hroom : e = .tooDeep → room < s.rest.length) : Ordered s least room (.error e s')

/-- A step whose result `a` costs at least `least a` tokens, and that lacks room only if more than
`room` tokens are left. -/
def Orderly {α : Type} (p : Parse α) (least : α → Nat) (room : Nat) : Prop :=
  ∀ s, EndsInput s.rest → Ordered s least room (p s)

/-- An orderly step that takes a token. -/
abbrev Advances {α : Type} (p : Parse α) (room : Nat) : Prop := Orderly p (fun _ => 1) room

/-- The same when the next token is known. -/
def OrderlyAt {α : Type} (t : Token) (p : Parse α) (least : α → Nat) (room : Nat) : Prop :=
  ∀ s, s.cursor.peek = t → EndsInput s.rest → Ordered s least room (p s)

section Orderly

variable {α β : Type} {p q : Parse α} {f : α → Parse β} {m n : α → Nat} {l : β → Nat} {j k : Nat}
variable {t : Token} {ks : List Kind} {scope : Production}

theorem Orderly.mono (h : Orderly p m k) (hn : ∀ a, n a ≤ m a) (hj : j ≤ k) : Orderly p n j := by
  intro s hs
  have hrun := h s hs
  generalize p s = r at hrun
  cases hrun with
  | ok hsteps hleast => exact .ok hsteps (Nat.le_trans (hn _) hleast)
  | error hreaches hroom => exact .error hreaches fun he => Nat.lt_of_le_of_lt hj (hroom he)

theorem Advances.mono (h : Advances p k) (hj : j ≤ k) : Advances p j :=
  Orderly.mono h (fun _ => Nat.le.refl) hj

/-- What advances may stand where nothing needs to be taken. -/
theorem Advances.free (h : Advances p k) : Orderly p (fun _ => 0) k :=
  Orderly.mono h (fun _ => Nat.zero_le _) Nat.le.refl

theorem Orderly.at (h : Orderly p n k) (t : Token) : OrderlyAt t p n k := fun s _ => h s

/-- What is taken first counts for the whole, and leaves fewer tokens to the rest. -/
theorem Ordered.after {s s₁ : State} {ts : List Token} {c : Nat}
    {r : EStateM.Result Failure State β} (hsteps : s.Steps ts s₁) (hc : c ≤ ts.length)
    (h : Ordered s₁ (fun b => l b - c) (k - c) r) : Ordered s l k r := by
  have hlength : s.rest.length = ts.length + s₁.rest.length := by
    rw [hsteps.rest, List.length_append]
  cases h with
  | ok hmore hl =>
    refine .ok (hsteps.trans hmore) ?_
    rw [List.length_append]
    omega
  | error hmore hroom =>
    refine .error (hsteps.trans_reaches hmore) fun he => ?_
    have := hroom he
    omega

theorem Orderly.bind (h : Orderly p m k)
    (hf : ∀ a, Orderly (f a) (fun b => l b - m a) (k - m a)) : Orderly (p >>= f) l k := by
  intro s hs
  have hrun := h s hs
  generalize hp : p s = r at hrun
  cases hrun with
  | ok hsteps hleast =>
    rw [bind_of_ok hp]
    exact .after hsteps hleast (hf _ _ (hsteps.endsInput hs))
  | error hreaches hroom =>
    rw [bind_of_error hp]
    exact .error hreaches hroom

theorem orderly_pure {a : α} (h : n a = 0) : Orderly (pure a) n k :=
  fun s _ => .ok (.refl s) (by rw [h]; exact Nat.zero_le _)

theorem orderly_reject (cause : SyntaxCause) (t : Token) :
    Orderly (reject scope cause t : Parse α) n k :=
  fun s _ => .error (State.Steps.refl s).reaches nofun

theorem orderly_unreadable (e : Number.ReadError) : Orderly (throw (.unreadable e) : Parse α) n k :=
  fun s _ => .error (State.Steps.refl s).reaches nofun

/-- Without room some token is still left, if only the end of the input. -/
theorem orderly_tooDeep : Orderly (throw .tooDeep : Parse α) n 0 := by
  intro s hs
  obtain ⟨ts, hts⟩ := State.rest_eq_cons hs
  refine .error (State.Steps.refl s).reaches fun _ => ?_
  rw [hts]
  exact Nat.succ_pos _

theorem Orderly.enter_bind (h : Orderly q n k) : Orderly (enter scope >>= fun _ => q) n k := by
  have henter : Orderly (enter scope) (fun _ => 0) k := fun s _ =>
    .ok (State.Steps.of_log s _) (Nat.zero_le _)
  exact henter.bind fun _ => h

theorem Orderly.ite (hp : Orderly p n k) (hq : Orderly q n k) :
    Orderly (looksAt ks >>= fun b => if b = true then p else q) n k := by
  intro s hs
  show Ordered s n k ((if ks.contains s.cursor.peek.kind = true then p else q) s)
  split
  · exact hp s hs
  · exact hq s hs

theorem orderly_peek_bind {f : Token → Parse β} (h : ∀ t, OrderlyAt t (f t) l k) :
    Orderly (peek >>= f) l k :=
  fun s hs => h s.cursor.peek s rfl hs

theorem OrderlyAt.next_bind {f : Token → Parse β} (ht : t.kind ≠ .eof)
    (h : Orderly (f t) (fun b => l b - 1) (k - 1)) : OrderlyAt t (next >>= f) l k := by
  rintro s rfl hs
  obtain ⟨ts, hts⟩ := State.rest_eq_cons hs
  have hstep := State.steps_next hts ht
  exact .after hstep Nat.le.refl (h _ (hstep.endsInput hs))

/-- Taking whatever token comes next. The end of the input is rejected. -/
theorem orderly_next_bind {f : Token → Parse β}
    (hf : ∀ t, t.kind ≠ .eof → Orderly (f t) (fun b => l b - 1) (k - 1))
    (heof : ∀ t, t.kind = .eof → ∃ scope cause u, f t = reject scope cause u) :
    Orderly (next >>= f) l k := by
  intro s hs
  by_cases hk : s.cursor.peek.kind = .eof
  · obtain ⟨ts, hts⟩ := State.rest_eq_cons hs
    obtain ⟨scope, cause, u, hreject⟩ := heof _ hk
    show Ordered s l k (f s.cursor.peek _)
    rw [hreject]
    exact .error (State.reaches_next hts) nofun
  · exact OrderlyAt.next_bind hk (hf _ hk) s rfl hs

/-- A token that is taken in order to be rejected. -/
theorem orderly_next_reject (cause : SyntaxCause) (u : Token) :
    Orderly (next >>= fun _ => (reject scope cause u : Parse β)) l k :=
  orderly_next_bind (fun _ _ => orderly_reject cause u) fun _ _ => ⟨scope, cause, u, rfl⟩

theorem Orderly.expect_bind {kind : Kind} {f : Token → Parse β} (hkind : kind ≠ .eof)
    (h : ∀ t, Orderly (f t) (fun b => l b - 1) (k - 1)) :
    Orderly (expect scope kind >>= f) l k := by
  have hnext : expect scope kind >>= f = next >>= fun t =>
      (if t.kind = kind then pure t else reject scope (.expected kind) t) >>= f := rfl
  rw [hnext]
  refine orderly_next_bind (fun t _ => ?_) fun t ht => ?_
  · split
    · exact h t
    · exact orderly_reject _ t
  · rw [if_neg fun hk => hkind (hk.symm.trans ht)]
    exact ⟨scope, .expected kind, t, rfl⟩

/-- Taking a token after seeing that it is of one of the given kinds. -/
theorem Orderly.take {f : Token → Parse α} (hks : .eof ∉ ks)
    (hf : ∀ t, Orderly (f t) (fun a => n a - 1) (k - 1)) (hq : Orderly q n k) :
    Orderly (looksAt ks >>= fun b => if b = true then next >>= f else q) n k := by
  intro s hs
  show Ordered s n k ((if ks.contains s.cursor.peek.kind = true then next >>= f else q) s)
  split
  · next hc =>
    have hmem : s.cursor.peek.kind ∈ ks := List.contains_iff_mem.mp hc
    exact OrderlyAt.next_bind (ne_of_mem_of_not_mem hmem hks) (hf _) s rfl hs
  · exact hq s hs

theorem orderly_inFunction (h : Orderly p n k) : Orderly (inFunction p) n k := by
  intro s hs
  have hrun := h { s with functionDepth := s.functionDepth + 1 } hs
  unfold inFunction
  generalize p { s with functionDepth := s.functionDepth + 1 } = r at hrun
  cases hrun with
  | @ok a s' ts hsteps hleast =>
    have hdepth : s'.functionDepth = s.functionDepth + 1 := hsteps.depth
    exact .ok ⟨hsteps.tokens, hsteps.pos, by simp [hdepth], hsteps.rest, hsteps.inner⟩ hleast
  | @error e s' ts hreaches hroom =>
    have hdepth : s'.functionDepth = s.functionDepth + 1 := hreaches.depth
    exact .error ⟨hreaches.tokens, hreaches.pos, by simp [hdepth], hreaches.rest, hreaches.inner⟩
      hroom

end Orderly

/-- A round that goes on takes a token. -/
def goingOn {α : Type} (o : Option α) : Nat := if o.isSome then 1 else 0

/-- The rounds of a repetition that nothing bounds come to this end. -/
inductive Rounds {α : Type} (step : α → Parse (Option α)) :
    α → State → EStateM.Result Failure State α → Prop where
  | done {a : α} {s s' : State} (h : step a s = .ok none s') : Rounds step a s (.ok a s')
  | failed {a : α} {s s' : State} {e : Failure} (h : step a s = .error e s') :
      Rounds step a s (.error e s')
  | again {a b : α} {s s' : State} {r : EStateM.Result Failure State α}
      (h : step a s = .ok (some b) s') (more : Rounds step b s' r) : Rounds step a s r

/-- A round that puts what `item` gives behind what has been collected. -/
def gather {α : Type} (item : Parse (Option α)) (as : List α) : Parse (Option (List α)) := do
  return (← item).map fun a => as ++ [a]

section Rounds

variable {α : Type} {step : α → Parse (Option α)} {item : Parse (Option α)} {k fuel : Nat}

theorem orderly_iterate (h : ∀ a, Orderly (step a) goingOn k) (a : α) :
    Orderly (iterate step a) (fun _ => 0) k := by
  have hpatience : Orderly patience (fun _ => 0) k := fun s _ => .ok (.refl s) (Nat.zero_le _)
  refine hpatience.bind fun fuel => ?_
  induction fuel generalizing a with
  | zero => exact orderly_pure rfl
  | succ fuel ih =>
    refine (h a).bind fun o => ?_
    cases o with
    | none => exact orderly_pure rfl
    | some b => exact (ih b).mono (fun _ => Nat.zero_le _) (Nat.sub_le _ _)

theorem rounds_iterateFor (h : ∀ a, Orderly (step a) goingOn k) (a : α) {s : State}
    (hs : EndsInput s.rest) (hfuel : s.rest.length < fuel) :
    Rounds step a s (iterateFor step fuel a s) := by
  induction fuel generalizing a s with
  | zero => exact absurd hfuel (Nat.not_lt_zero _)
  | succ fuel ih =>
    have hrun := h a s hs
    generalize hstep : step a s = r at hrun
    cases hrun with
    | error =>
      rw [iterateFor, bind_of_error hstep]
      exact .failed hstep
    | @ok o s' ts hsteps hleast =>
      rw [iterateFor, bind_of_ok hstep]
      cases o with
      | none => exact .done hstep
      | some b =>
        have hone : 1 ≤ ts.length := hleast
        have hlength := congrArg List.length hsteps.rest
        rw [List.length_append] at hlength
        exact .again hstep (ih b (hsteps.endsInput hs) (by omega))

/-- A repetition whose rounds take tokens ends as it would without a bound. -/
theorem rounds_iterate (h : ∀ a, Orderly (step a) goingOn k) (a : α) {s : State}
    (hs : EndsInput s.rest) : Rounds step a s (iterate step a s) := by
  refine rounds_iterateFor h a hs ?_
  rw [State.remaining_eq]
  exact Nat.lt_succ_self _

theorem orderly_gather (h : Orderly item goingOn k) (as : List α) :
    Orderly (gather item as) goingOn k := by
  refine h.bind fun o => orderly_pure ?_
  cases o <;> rfl

theorem iterateFor_gather (fuel : Nat) (as : List α) :
    iterateFor (gather item) fuel as = collectFor item fuel >>= fun bs => pure (as ++ bs) := by
  induction fuel generalizing as with
  | zero => simp [iterateFor, collectFor]
  | succ fuel ih =>
    rw [iterateFor, gather, bind_assoc, collectFor_succ_bind]
    congr 1
    funext o
    cases o with
    | none => simp
    | some a => simp only [Option.map_some, pure_bind, ih, List.append_assoc, List.singleton_append]

/-- Collecting is a repetition that begins with nothing. -/
theorem collect_eq_iterate (item : Parse (Option α)) : collect item = iterate (gather item) [] := by
  rw [iterate, collect]
  congr 1
  funext fuel
  rw [iterateFor_gather]
  simp

theorem orderly_collect (h : Orderly item goingOn k) : Orderly (collect item) (fun _ => 0) k := by
  rw [collect_eq_iterate]
  exact orderly_iterate (orderly_gather h) []

theorem rounds_collect (h : Orderly item goingOn k) {s : State} (hs : EndsInput s.rest) :
    Rounds (gather item) [] s (collect item s) := by
  rw [collect_eq_iterate]
  exact rounds_iterate (orderly_gather h) [] hs

end Rounds

section Expr

variable {nested operand : Parse Expr} {j k : Nat}

theorem orderly_chainRound (l : Level) (h : Advances operand (k - 1)) (left : Expr) :
    Orderly (chainRound l operand left) goingOn k :=
  Orderly.take (eof_notMem_operators l) (fun _ => h.bind fun _ => orderly_pure rfl)
    (orderly_pure rfl)

theorem advances_leftChain (l : Level) (h : Advances operand k) :
    Advances (leftChain l.operators l.join operand) k := by
  rw [leftChain_eq]
  refine h.bind (orderly_iterate (orderly_chainRound l ?_))
  exact h.mono (by omega)

theorem orderly_listRound (h : Advances nested (k - 1)) : Orderly (listRound nested) goingOn k :=
  Orderly.take (by decide) (fun _ => h.bind fun _ => orderly_pure rfl) (orderly_pure rfl)

theorem advances_testList (h : Advances nested k) : Advances (testList nested) k := by
  rw [testList_eq]
  refine Orderly.enter_bind (h.bind fun _ => ?_)
  refine (orderly_collect (orderly_listRound ?_)).bind fun _ => orderly_pure rfl
  exact h.mono (by omega)

theorem orderly_number (t : Token) : Orderly (number t) (fun _ => 0) k := by
  unfold number
  split
  · exact orderly_pure rfl
  · exact orderly_unreadable _

theorem orderly_float (t : Token) : Orderly (float t) (fun _ => 0) k := by
  unfold float
  split
  · exact orderly_pure rfl
  · exact orderly_unreadable _

theorem orderly_string (t : Token) : Orderly (string t) (fun _ => 0) k := by
  unfold string
  split
  · exact orderly_pure rfl
  · exact orderly_reject _ t

theorem advances_atom (h : Advances nested (k - 1)) : Advances (atom nested) k := by
  refine Orderly.enter_bind (orderly_next_bind (fun t _ => ?_) fun t ht => ?_)
  · split
    · exact orderly_pure rfl
    · exact orderly_number t
    · exact orderly_float t
    · exact orderly_string t
    · exact h.bind fun _ => Orderly.expect_bind (by decide) fun _ => orderly_pure rfl
    · exact orderly_reject _ t
  · simp only [ht]
    exact ⟨_, _, _, rfl⟩

theorem advances_call (h : Advances nested (k - 1)) (name : String) :
    Advances (call nested name) k := by
  refine Orderly.enter_bind (Orderly.expect_bind nofun fun _ => Orderly.ite ?_ ?_)
  · exact Orderly.expect_bind nofun fun _ => orderly_pure rfl
  · exact (advances_testList h).bind fun _ => Orderly.expect_bind nofun fun _ => orderly_pure rfl

theorem advances_atomOrCall (h : Advances nested (k - 1)) : Advances (atomOrCall nested) k := by
  have hcall : ∀ name, Advances (call nested name) (k - 1) := fun name =>
    advances_call (h.mono (by omega)) name
  refine Orderly.enter_bind (orderly_peek_bind fun t => ?_)
  refine Orderly.at ((advances_atom h).bind fun e => ?_) t
  split
  · exact Orderly.ite (hcall _).free (orderly_pure rfl)
  · exact orderly_pure rfl

theorem advances_factor (h : Advances nested j) (room : Nat) (hroom : k ≤ room)
    (hj : k ≤ j + 1) : Advances (factor nested room) k := by
  induction room generalizing k with
  | zero =>
    rw [Nat.le_zero.mp hroom]
    exact orderly_tooDeep
  | succ room ih =>
    refine Orderly.enter_bind (Orderly.take (by decide) (fun _ => ?_) (advances_atomOrCall ?_))
    · have hmore : Advances (factor nested room) (k - 1) := ih (by omega) (by omega)
      exact hmore.bind fun _ => orderly_pure rfl
    · exact h.mono (by omega)

theorem advances_chain (l : Level) {room : Nat}
    (h : Advances (tier l.operand nested room) k) :
    Advances (tier (.chain l) nested room) k := by
  rw [tier_chain]
  exact Orderly.enter_bind (advances_leftChain l h)

theorem advances_term (h : Advances nested j) (room : Nat) (hroom : k ≤ room)
    (hj : k ≤ j + 1) : Advances (term nested room) k :=
  advances_chain .term (advances_factor h room hroom hj)

theorem advances_arithExpr (h : Advances nested j) (room : Nat) (hroom : k ≤ room)
    (hj : k ≤ j + 1) : Advances (arithExpr nested room) k :=
  advances_chain .arith (advances_term h room hroom hj)

theorem advances_comparison (h : Advances nested j) (room : Nat) (hroom : k ≤ room)
    (hj : k ≤ j + 1) : Advances (comparison nested room) k :=
  advances_chain .comparison (advances_arithExpr h room hroom hj)

theorem advances_notTest (h : Advances nested j) (room : Nat) (hroom : k ≤ room - 1)
    (hj : k ≤ j + 1) : Advances (notTest nested room) k := by
  induction room generalizing k with
  | zero =>
    rw [Nat.le_zero.mp hroom]
    exact orderly_tooDeep
  | succ room ih =>
    refine Orderly.enter_bind (Orderly.take (by decide) (fun _ => ?_) ?_)
    · have hmore : Advances (notTest nested room) (k - 1) := ih (by omega) (by omega)
      exact hmore.bind fun _ => orderly_pure rfl
    · exact advances_comparison h room hroom hj

theorem advances_andTest (h : Advances nested j) (room : Nat) (hroom : k ≤ room - 1)
    (hj : k ≤ j + 1) : Advances (andTest nested room) k :=
  advances_chain .and (advances_notTest h room hroom hj)

theorem advances_orTest (h : Advances nested j) (room : Nat) (hroom : k ≤ room - 1)
    (hj : k ≤ j + 1) : Advances (orTest nested room) k :=
  advances_chain .or (advances_andTest h room hroom hj)

/-- An expression takes a token for every level of nesting but the last two. -/
theorem advances_test (room : Nat) : Advances (test room) (room - 2) := by
  induction room with
  | zero => exact orderly_tooDeep
  | succ room ih => exact Orderly.enter_bind (advances_orTest ih room (by omega) (by omega))

end Expr

section Stmt

variable {expr : Parse Expr} {stmt : Parse Stmt} {k : Nat}

theorem advances_printStmt (h : Advances expr (k - 1)) : Advances (printStmt expr) k :=
  Orderly.enter_bind (Orderly.expect_bind nofun fun _ =>
    (advances_testList h).bind fun _ => orderly_pure rfl)

theorem advances_assignStmt (h : Advances expr (k - 1)) (name : String) :
    Advances (assignStmt expr name) k :=
  Orderly.enter_bind (Orderly.expect_bind nofun fun _ => h.bind fun _ => orderly_pure rfl)

theorem advances_returnStmt (h : Advances expr (k - 1)) : Advances (returnStmt expr) k :=
  Orderly.enter_bind (Orderly.expect_bind nofun fun _ => h.bind fun _ => orderly_pure rfl)

theorem advances_simpleBody (h : Advances expr (k - 1)) : Advances (simpleBody expr) k := by
  have hassign : ∀ name, Advances (assignStmt expr name) (k - 1) := fun name =>
    advances_assignStmt (h.mono (by omega)) name
  refine orderly_peek_bind fun t => ?_
  split
  · exact (advances_printStmt h).at t
  · intro s _ hs
    show Ordered s _ _ ((if s.functionDepth = 0 then next >>= fun _ =>
      reject .simpleStmt .returnOutside t else returnStmt expr) s)
    split
    · exact orderly_next_reject _ _ s hs
    · exact advances_returnStmt h s hs
  · next hk =>
    refine OrderlyAt.next_bind (by simp [hk]) (orderly_peek_bind fun following => ?_)
    split
    · exact (hassign _).free.at following
    · exact (orderly_reject _ _).at following
    · exact (orderly_next_reject _ _).at following
  · exact (orderly_next_reject _ _).at t

theorem advances_simpleStmt (h : Advances expr (k - 1)) : Advances (simpleStmt expr) k :=
  Orderly.enter_bind ((advances_simpleBody h).bind fun _ =>
    Orderly.expect_bind nofun fun _ => orderly_pure rfl)

theorem orderly_blockRound (h : Advances stmt k) : Orderly (blockRound stmt) goingOn k :=
  Orderly.ite (orderly_pure rfl) (h.bind fun _ => orderly_pure rfl)

theorem orderly_blockRest (h : Advances stmt k) : Orderly (blockRest stmt) (fun _ => 0) k :=
  orderly_collect (orderly_blockRound h)

theorem advances_suite (h : Advances stmt (k - 1)) : Advances (suite stmt) k := by
  refine Orderly.enter_bind (Orderly.expect_bind nofun fun _ => ?_)
  refine Orderly.expect_bind nofun fun _ => ?_
  refine (h.mono (by omega)).bind fun _ => ?_
  refine (orderly_blockRest (h.mono (by omega))).bind fun _ => ?_
  exact Orderly.expect_bind nofun fun _ => orderly_pure rfl

theorem advances_funcSuite (h : Advances stmt (k - 1)) : Advances (funcSuite stmt) k := by
  have hbody : Orderly (inFunction (blockRest stmt)) (fun _ => 0) (k - 1 - 1) :=
    orderly_inFunction (orderly_blockRest (h.mono (by omega)))
  refine Orderly.enter_bind (Orderly.expect_bind nofun fun _ => ?_)
  refine Orderly.expect_bind nofun fun _ => ?_
  exact hbody.bind fun _ => Orderly.expect_bind nofun fun _ => orderly_pure rfl

theorem advances_branch (he : Advances expr k) (hs : Advances stmt k) :
    Advances (branch expr stmt) k := by
  refine he.bind fun _ => Orderly.expect_bind nofun fun _ => ?_
  exact (advances_suite (hs.mono (by omega))).bind fun _ => orderly_pure rfl

theorem orderly_elifRound (he : Advances expr (k - 1))
    (hs : Advances stmt (k - 1)) : Orderly (elifRound expr stmt) goingOn k :=
  Orderly.take (by decide) (fun _ => (advances_branch he hs).bind fun _ => orderly_pure rfl)
    (orderly_pure rfl)

theorem advances_ifStmt (he : Advances expr (k - 1))
    (hs : Advances stmt (k - 1)) : Advances (ifStmt expr stmt) k := by
  refine Orderly.enter_bind (Orderly.expect_bind nofun fun _ => ?_)
  refine (advances_branch he hs).bind fun _ => ?_
  refine (orderly_collect (orderly_elifRound (he.mono ?_) (hs.mono ?_))).bind fun _ => ?_
  · omega
  · omega
  refine Orderly.take (by decide) (fun _ => ?_) (orderly_pure rfl)
  refine Orderly.expect_bind nofun fun _ => ?_
  exact (advances_suite (hs.mono (by omega))).bind fun _ => orderly_pure rfl

theorem advances_forStmt (he : Advances expr (k - 1))
    (hs : Advances stmt (k - 1)) : Advances (forStmt expr stmt) k := by
  refine Orderly.enter_bind (Orderly.expect_bind nofun fun _ => Orderly.expect_bind nofun fun _ =>
    Orderly.expect_bind nofun fun _ => Orderly.expect_bind nofun fun _ =>
    Orderly.expect_bind nofun fun _ => ?_)
  refine (advances_testList (he.mono (by omega))).bind fun args => ?_
  refine Orderly.expect_bind nofun fun _ => ?_
  split
  · exact orderly_reject _ _
  · refine Orderly.expect_bind nofun fun _ => ?_
    exact (advances_suite (hs.mono (by omega))).bind fun _ => orderly_pure rfl

theorem advances_param (earlier : List String) : Advances (param earlier) k := by
  refine Orderly.expect_bind nofun fun t => ?_
  split
  · exact orderly_reject _ _
  · exact orderly_pure rfl

theorem orderly_paramRound (earlier : List String) : Orderly (paramRound earlier) goingOn k :=
  Orderly.take (by decide) (fun _ => (advances_param earlier).bind fun _ => orderly_pure rfl)
    (orderly_pure rfl)

theorem advances_params : Advances params k := by
  rw [params_eq]
  exact (advances_param []).bind (orderly_iterate orderly_paramRound)

theorem advances_funcDef (h : Advances stmt (k - 1)) : Advances (funcDef stmt) k := by
  refine Orderly.enter_bind (Orderly.expect_bind nofun fun _ => Orderly.expect_bind nofun fun _ =>
    Orderly.expect_bind nofun fun _ => Orderly.ite ?_ (advances_params.bind fun _ => ?_))
  all_goals
    refine Orderly.expect_bind nofun fun _ => Orderly.expect_bind nofun fun _ => ?_
    exact (advances_funcSuite (h.mono (by omega))).bind fun _ => orderly_pure rfl

theorem advances_compoundStmt (he : Advances expr (k - 1))
    (hs : Advances stmt (k - 1)) : Advances (compoundStmt expr stmt) k := by
  refine Orderly.enter_bind (orderly_peek_bind fun t => ?_)
  split
  · exact (advances_forStmt he hs).at t
  · exact (advances_ifStmt he hs).at t
  · exact (advances_funcDef hs).at t
  · exact (orderly_next_reject _ _).at t

/-- A statement takes a token for every level of nesting but the last two. -/
theorem advances_statement (room : Nat) : Advances (statement room) (room - 2) := by
  induction room with
  | zero => exact orderly_tooDeep
  | succ room ih =>
    have hle : room + 1 - 2 - 1 ≤ room - 2 := by omega
    have hexpr := (advances_test room).mono hle
    have hstmt := ih.mono hle
    exact Orderly.enter_bind (Orderly.ite (advances_compoundStmt hexpr hstmt)
      (advances_simpleStmt hexpr))

theorem orderly_fileRound (h : Advances stmt k) : Orderly (fileRound stmt) goingOn k := by
  refine Orderly.ite (orderly_pure rfl) (Orderly.take (by decide) (fun _ => orderly_pure rfl) ?_)
  exact h.bind fun _ => orderly_pure rfl

theorem orderly_fileInput (h : Advances stmt k) : Orderly (fileInput stmt) (fun _ => 0) k := by
  rw [fileInput_eq]
  exact Orderly.enter_bind ((orderly_collect (orderly_fileRound h)).bind fun _ => orderly_pure rfl)

end Stmt

end TinyScript.Parser
