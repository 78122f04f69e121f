import TinyScript.Parser.Basic

/-!
# What parsing steps read

A parsing step is described by the tokens it takes from the front of those that are left. `Accepts`
says what is known of every run that gives a result; `Reads` says that on given tokens the step does
give its result, or runs out of room, and which of the two. Both are closed under sequencing, so a
production is described by describing its steps one after the other, and states are not mentioned
again.

Steps that succeed never take the end of the input.
-/

namespace TinyScript.Parser

namespace State

/-- The tokens that are left. -/
def rest (s : State) : List Token := s.cursor.tokens.toList.drop s.cursor.pos

/-- The second state is reached from the first by taking the tokens `ts`. -/
structure Steps (s : State) (ts : List Token) (s' : State) : Prop where
  tokens : s'.cursor.tokens = s.cursor.tokens
  pos : s'.cursor.pos = s.cursor.pos + ts.length
  depth : s'.functionDepth = s.functionDepth
  rest : s.rest = ts ++ s'.rest
  inner : ∀ t ∈ ts, t.kind ≠ .eof

theorem Steps.of_log (s : State) (log : Log) : s.Steps [] { s with log } :=
  ⟨rfl, rfl, rfl, rfl, by simp⟩

theorem Steps.refl (s : State) : s.Steps [] s := Steps.of_log s s.log

theorem Steps.trans {s s' s'' : State} {ts us : List Token} (h : s.Steps ts s')
    (h' : s'.Steps us s'') : s.Steps (ts ++ us) s'' where
  tokens := h'.tokens.trans h.tokens
  pos := by rw [h'.pos, h.pos, List.length_append, Nat.add_assoc]
  depth := h'.depth.trans h.depth
  rest := by rw [h.rest, h'.rest, List.append_assoc]
  inner := by
    intro t ht
    rcases List.mem_append.mp ht with ht | ht
    · exact h.inner t ht
    · exact h'.inner t ht

theorem Steps.rest_eq {s s' : State} {ts us : List Token} (h : s.Steps ts s')
    (hs : s.rest = ts ++ us) : s'.rest = us :=
  List.append_cancel_left (h.rest.symm.trans hs)

theorem pos_lt_of_rest {s : State} {t : Token} {ts : List Token} (h : s.rest = t :: ts) :
    s.cursor.pos < s.cursor.tokens.toList.length := by
  apply Nat.lt_of_not_le
  intro hle
  rw [State.rest, List.drop_eq_nil_of_le hle] at h
  cases h

theorem peek_of_rest {s : State} {t : Token} {ts : List Token} (h : s.rest = t :: ts) :
    s.cursor.peek = t := by
  have hlt : s.cursor.pos < s.cursor.tokens.size := pos_lt_of_rest h
  have hmin : min s.cursor.pos (s.cursor.tokens.size - 1) = s.cursor.pos := by omega
  rw [State.rest, List.drop_eq_getElem_cons hlt, List.cons.injEq] at h
  simp only [Cursor.peek, hmin]
  exact h.1

theorem rest_next {s : State} {t : Token} {ts : List Token} (h : s.rest = t :: ts) :
    ({ s with cursor := s.cursor.next } : State).rest = ts := by
  have hlt := pos_lt_of_rest h
  rw [State.rest, List.drop_eq_getElem_cons hlt, List.cons.injEq] at h
  exact h.2

/-- Taking the next token. -/
theorem steps_next {s : State} {t : Token} {ts : List Token} (h : s.rest = t :: ts)
    (ht : t.kind ≠ .eof) : s.Steps [t] { s with cursor := s.cursor.next } where
  tokens := rfl
  pos := rfl
  depth := rfl
  rest := by rw [rest_next h, h, List.singleton_append]
  inner := by simpa using ht

theorem remaining_eq (s : State) : s.cursor.remaining = s.rest.length := by
  simp [State.rest, Cursor.remaining]

end State

/-- The tokens end with the end of the input. -/
def EndsInput (ts : List Token) : Prop := ∃ us t, ts = us ++ [t] ∧ t.kind = .eof

/-- Any list of tokens ends the input, once the end is added where it is missing. -/
theorem endsInput_terminated (ts : List Token) : EndsInput (Cursor.terminated ts) := by
  unfold Cursor.terminated
  cases hlast : ts.getLast? with
  | none => exact ⟨[], _, rfl, rfl⟩
  | some last =>
    simp only
    split
    · next hk =>
      obtain ⟨us, rfl⟩ := List.getLast?_eq_some_iff.mp hlast
      exact ⟨us, last, rfl, hk⟩
    · exact ⟨ts, _, rfl, rfl⟩

theorem State.Steps.endsInput {s s' : State} {ts : List Token} (h : s.Steps ts s')
    (hs : EndsInput s.rest) : EndsInput s'.rest := by
  obtain ⟨us, t, hus, ht⟩ := hs
  rw [h.rest] at hus
  rcases List.eq_nil_or_concat s'.rest with hnil | ⟨vs, u, hvs⟩
  · rw [hnil, List.append_nil] at hus
    exact absurd ht (h.inner t (by simp [hus]))
  · rw [hvs, List.concat_eq_append, ← List.append_assoc] at hus
    obtain ⟨-, hu⟩ := List.append_inj' hus rfl
    refine ⟨vs, u, by rw [hvs, List.concat_eq_append], ?_⟩
    rw [List.cons.injEq] at hu
    rw [hu.1, ht]

/-- Before the end of the input there is a next token, and it is the one that is looked at. -/
theorem State.rest_eq_cons {s : State} (h : EndsInput s.rest) :
    ∃ ts, s.rest = s.cursor.peek :: ts := by
  obtain ⟨us, t, hus, -⟩ := h
  cases hr : s.rest with
  | nil => simp [hr] at hus
  | cons u vs => exact ⟨vs, by rw [State.peek_of_rest hr]⟩

section Bind

variable {α β : Type} {p : Parse α} {f : α → Parse β} {s s' : State} {a : α} {b : β}

theorem bind_of_ok (h : p s = .ok a s') : (p >>= f) s = f a s' := by
  simp only [bind, EStateM.bind, h]

theorem bind_of_error {e : Failure} (h : p s = .error e s') : (p >>= f) s = .error e s' := by
  simp only [bind, EStateM.bind, h]

/-- A sequence gives a result only if both of its parts do. -/
theorem ok_of_bind (h : (p >>= f) s = .ok b s') : ∃ a s₁, p s = .ok a s₁ ∧ f a s₁ = .ok b s' := by
  cases hp : p s with
  | ok a s₁ => exact ⟨a, s₁, rfl, (bind_of_ok hp).symm.trans h⟩
  | error e s₁ => cases (bind_of_error hp).symm.trans h

theorem collectFor_succ_bind (item : Parse (Option α)) (fuel : Nat) (k : List α → Parse β) :
    collectFor item (fuel + 1) >>= k = item >>= fun o =>
      match o with
      | none => k []
      | some a => collectFor item fuel >>= fun as => k (a :: as) := by
  rw [collectFor, bind_assoc]
  congr 1
  funext o
  cases o with
  | none => rfl
  | some a => simp only [bind_assoc, pure_bind]

end Bind

/-- Whenever the step gives a result at this depth, the tokens it took and the result are as
described. -/
def Accepts {α : Type} (p : Parse α) (depth : Nat) (Q : List Token → α → Prop) : Prop :=
  ∀ s a s', s.functionDepth = depth → EndsInput s.rest → p s = .ok a s' →
    ∃ ts, s.Steps ts s' ∧ Q ts a

/-- The same when the next token is known. -/
def AcceptsAt {α : Type} (t : Token) (p : Parse α) (depth : Nat) (Q : List Token → α → Prop) :
    Prop :=
  ∀ s a s', s.cursor.peek = t → s.functionDepth = depth → EndsInput s.rest → p s = .ok a s' →
    ∃ ts, s.Steps ts s' ∧ Q ts a

section Accepts

variable {α β : Type} {p q : Parse α} {f : α → Parse β} {depth : Nat}
variable {Q Q' : List Token → α → Prop} {R : List Token → β → Prop} {ks : List Kind} {t : Token}

theorem Accepts.at (h : Accepts p depth Q) (t : Token) : AcceptsAt t p depth Q :=
  fun s a s' _ => h s a s'

theorem Accepts.imp (h : Accepts p depth Q) (hQ : ∀ ts a, Q ts a → Q' ts a) :
    Accepts p depth Q' := by
  intro s a s' hd hs hp
  obtain ⟨ts, hsteps, hq⟩ := h s a s' hd hs hp
  exact ⟨ts, hsteps, hQ _ _ hq⟩

theorem Accepts.bind (h : Accepts p depth Q)
    (hf : ∀ us a, Q us a → Accepts (f a) depth fun vs b => R (us ++ vs) b) :
    Accepts (p >>= f) depth R := by
  intro s b s' hd hs hp
  obtain ⟨a, s₁, h₁, h₂⟩ := ok_of_bind hp
  obtain ⟨us, hus, hq⟩ := h s a s₁ hd hs h₁
  obtain ⟨vs, hvs, hr⟩ := hf us a hq s₁ b s' (hus.depth.trans hd) (hus.endsInput hs) h₂
  exact ⟨us ++ vs, hus.trans hvs, hr⟩

/-- A first step that takes anything takes the known token. -/
theorem AcceptsAt.bind (h : Accepts p depth Q)
    (hf : ∀ us a, Q us a → (∀ u ∈ us.head?, u = t) →
      Accepts (f a) depth fun vs b => R (us ++ vs) b) :
    AcceptsAt t (p >>= f) depth R := by
  intro s b s' ht hd hs hp
  obtain ⟨a, s₁, h₁, h₂⟩ := ok_of_bind hp
  obtain ⟨us, hus, hq⟩ := h s a s₁ hd hs h₁
  have hhead : ∀ u ∈ us.head?, u = t := by
    cases us with
    | nil => simp
    | cons u us =>
      have hu : s.cursor.peek = u := State.peek_of_rest hus.rest
      simp [← hu, ht]
  obtain ⟨vs, hvs, hr⟩ := hf us a hq hhead s₁ b s' (hus.depth.trans hd) (hus.endsInput hs) h₂
  exact ⟨us ++ vs, hus.trans hvs, hr⟩

theorem accepts_pure {a : α} (h : Q [] a) : Accepts (pure a) depth Q := by
  intro s a' s' _ _ hp
  cases hp
  exact ⟨[], .refl s, h⟩

theorem accepts_throw (e : Failure) : Accepts (throw e : Parse α) depth Q := by
  intro s a s' _ _ hp
  cases hp

theorem accepts_reject (scope : Production) (cause : SyntaxCause) (t : Token) :
    Accepts (reject scope cause t : Parse α) depth Q := by
  intro s a s' _ _ hp
  cases hp

/-- Entering a production takes nothing. -/
theorem accepts_enter (scope : Production) : Accepts (enter scope) depth fun ts _ => ts = [] := by
  intro s a s' _ _ hp
  cases hp
  exact ⟨[], .of_log s _, rfl⟩

theorem Accepts.enter_bind {scope : Production} (h : Accepts q depth Q) :
    Accepts (enter scope >>= fun _ => q) depth Q := by
  refine (accepts_enter scope).bind ?_
  rintro _ _ rfl
  exact h

theorem accepts_patience : Accepts patience depth fun ts _ => ts = [] := by
  intro s a s' _ _ hp
  cases hp
  exact ⟨[], .refl s, rfl⟩

/-- Looking at the next token before choosing between two steps. -/
theorem Accepts.ite (hp : Accepts p depth Q) (hq : Accepts q depth Q) :
    Accepts (looksAt ks >>= fun b => if b = true then p else q) depth Q := by
  intro s a s' hd hs h
  change (if ks.contains s.cursor.peek.kind = true then p else q) s = .ok a s' at h
  split at h
  · exact hp s a s' hd hs h
  · exact hq s a s' hd hs h

theorem accepts_peek_bind {f : Token → Parse β} (h : ∀ t, AcceptsAt t (f t) depth R) :
    Accepts (peek >>= f) depth R := by
  intro s b s' hd hs hp
  exact h s.cursor.peek s b s' rfl hd hs hp

theorem AcceptsAt.next_bind {f : Token → Parse β} (ht : t.kind ≠ .eof)
    (h : Accepts (f t) depth fun ts b => R (t :: ts) b) : AcceptsAt t (next >>= f) depth R := by
  intro s b s' hpeek hd hs hp
  obtain ⟨us, hus⟩ := State.rest_eq_cons hs
  rw [hpeek] at hus
  have hstep := State.steps_next hus ht
  subst hpeek
  obtain ⟨ts, hts, hr⟩ := h { s with cursor := s.cursor.next } b s' hd (hstep.endsInput hs) hp
  exact ⟨_, hstep.trans hts, hr⟩

/-- Taking whatever token comes next. The end of the input must not lead to a result. -/
theorem accepts_next_bind {f : Token → Parse β}
    (hf : ∀ t, t.kind ≠ .eof → Accepts (f t) depth fun ts b => R (t :: ts) b)
    (heof : ∀ t s b s', t.kind = .eof → f t s ≠ .ok b s') : Accepts (next >>= f) depth R := by
  intro s b s' hd hs hp
  have hkind : s.cursor.peek.kind ≠ .eof := fun hk => heof _ _ _ _ hk hp
  exact AcceptsAt.next_bind hkind (hf _ hkind) s b s' rfl hd hs hp

/-- Taking a token after seeing that it is of one of the given kinds. -/
theorem Accepts.take {f : Token → Parse α} (hks : .eof ∉ ks)
    (hf : ∀ t : {t : Token // t.kind ∈ ks}, Accepts (f t.val) depth fun ts a => Q (t.val :: ts) a)
    (hq : Accepts q depth Q) :
    Accepts (looksAt ks >>= fun b => if b = true then next >>= f else q) depth Q := by
  intro s a s' hd hs h
  change (if ks.contains s.cursor.peek.kind = true then next >>= f else q) s = .ok a s' at h
  split at h
  · next hc =>
    have hmem : s.cursor.peek.kind ∈ ks := List.contains_iff_mem.mp hc
    exact AcceptsAt.next_bind (ne_of_mem_of_not_mem hmem hks) (hf ⟨_, hmem⟩) s a s' rfl hd hs h
  · exact hq s a s' hd hs h

/-- A token that must be of a given kind. -/
theorem Accepts.expect_bind {scope : Production} {k : Kind} {f : Token → Parse α} (hk : k ≠ .eof)
    (hf : ∀ t : {t : Token // t.kind = k}, Accepts (f t.val) depth fun ts a => Q (t.val :: ts) a) :
    Accepts (expect scope k >>= f) depth Q := by
  have hexpect : Accepts (expect scope k) depth fun ts t => ts = [t] ∧ t.kind = k := by
    intro s t s' hd hs hp
    by_cases hkind : s.cursor.peek.kind = k
    · refine AcceptsAt.next_bind (R := fun ts u => ts = [u] ∧ u.kind = k) (hkind ▸ hk) ?_
        s t s' rfl hd
        hs hp
      rw [if_pos hkind]
      exact accepts_pure ⟨rfl, hkind⟩
    · obtain ⟨u, s₁, h₁, h₂⟩ := ok_of_bind hp
      cases h₁
      rw [if_neg hkind] at h₂
      cases h₂
  refine hexpect.bind ?_
  rintro _ t ⟨rfl, ht⟩
  exact hf ⟨t, ht⟩

theorem accepts_inFunction (h : Accepts p (depth + 1) Q) : Accepts (inFunction p) depth Q := by
  intro s a s' hd hs hp
  unfold inFunction at hp
  split at hp
  · next a' s₁ h₁ =>
    cases hp
    obtain ⟨ts, hts, hq⟩ := h { s with functionDepth := s.functionDepth + 1 } _ s₁
      (congrArg (· + 1) hd) hs h₁
    refine ⟨ts, ⟨hts.tokens, hts.pos, ?_, hts.rest, hts.inner⟩, hq⟩
    have hdepth : s₁.functionDepth = s.functionDepth + 1 := hts.depth
    simp [hdepth]
  · cases hp

/-- A repetition that rewrites a value, when every round extends what is known of the rounds after
it. -/
theorem accepts_iterateFor {step : α → Parse (Option α)} {I : α → List Token → α → Prop}
    (hnil : ∀ a, I a [] a)
    (hstep : ∀ a, Accepts (step a) depth fun ts o =>
      o.elim (ts = []) fun b => ∀ us c, I b us c → I a (ts ++ us) c) (fuel : Nat) (a : α) :
    Accepts (iterateFor step fuel a) depth (I a) := by
  induction fuel generalizing a with
  | zero => exact accepts_pure (hnil a)
  | succ fuel ih =>
    refine (hstep a).bind ?_
    intro us o ho
    cases o with
    | none =>
      cases ho
      exact accepts_pure (hnil a)
    | some b => exact (ih b).imp ho

theorem accepts_iterate {step : α → Parse (Option α)} {I : α → List Token → α → Prop}
    (hnil : ∀ a, I a [] a)
    (hstep : ∀ a, Accepts (step a) depth fun ts o =>
      o.elim (ts = []) fun b => ∀ us c, I b us c → I a (ts ++ us) c) (a : α) :
    Accepts (iterate step a) depth (I a) := by
  refine accepts_patience.bind ?_
  rintro _ fuel rfl
  exact accepts_iterateFor hnil hstep fuel a

/-- A repetition that collects items. -/
theorem accepts_collectFor {item : Parse (Option α)} {C : List Token → List α → Prop}
    (hnil : C [] [])
    (hitem : Accepts item depth fun ts o =>
      o.elim (ts = []) fun a => ∀ us as, C us as → C (ts ++ us) (a :: as)) (fuel : Nat) :
    Accepts (collectFor item fuel) depth C := by
  induction fuel with
  | zero => exact accepts_pure hnil
  | succ fuel ih =>
    refine hitem.bind ?_
    intro us o ho
    cases o with
    | none =>
      cases ho
      exact accepts_pure hnil
    | some a =>
      refine ih.bind ?_
      intro vs as has
      refine accepts_pure ?_
      rw [List.append_nil]
      exact ho vs as has

theorem accepts_collect {item : Parse (Option α)} {C : List Token → List α → Prop}
    (hnil : C [] [])
    (hitem : Accepts item depth fun ts o =>
      o.elim (ts = []) fun a => ∀ us as, C us as → C (ts ++ us) (a :: as)) :
    Accepts (collect item) depth C := by
  refine accepts_patience.bind ?_
  rintro _ fuel rfl
  exact accepts_collectFor hnil hitem fuel

end Accepts

/-- When the tokens that are left begin with `ts`, the step takes exactly these and gives `a`, if
what it is given fits into its room; otherwise it fails for lack of room. -/
def Reads {α : Type} (p : Parse α) (depth : Nat) (ts rest : List Token) (a : α) (fits : Prop) :
    Prop :=
  ∀ s, s.rest = ts ++ rest → s.functionDepth = depth →
    (fits ∧ ∃ s', p s = .ok a s' ∧ s.Steps ts s') ∨ (¬fits ∧ ∃ s', p s = .error .tooDeep s')

section Reads

variable {α β : Type} {p q : Parse α} {f : α → Parse β} {depth : Nat} {ts us rest : List Token}
variable {a : α} {b : β} {t : Token} {ks : List Kind} {P Q : Prop}

theorem Reads.congr (h : Reads p depth ts rest a P) (hPQ : P ↔ Q) : Reads p depth ts rest a Q := by
  rw [← propext hPQ]
  exact h

theorem Reads.bind (h : Reads p depth ts (us ++ rest) a P) (hf : Reads (f a) depth us rest b Q) :
    Reads (p >>= f) depth (ts ++ us) rest b (P ∧ Q) := by
  intro s hs hd
  rw [List.append_assoc] at hs
  rcases h s hs hd with ⟨hP, s₁, h₁, hts⟩ | ⟨hP, s₁, h₁⟩
  · rw [bind_of_ok h₁]
    rcases hf s₁ (hts.rest_eq hs) (hts.depth.trans hd) with ⟨hQ, s₂, h₂, hus⟩ | ⟨hQ, s₂, h₂⟩
    · exact .inl ⟨⟨hP, hQ⟩, s₂, h₂, hts.trans hus⟩
    · exact .inr ⟨fun h => hQ h.2, s₂, h₂⟩
  · exact .inr ⟨fun h => hP h.1, s₁, bind_of_error h₁⟩

/-- A first step that takes nothing and always fits. -/
theorem Reads.nil_bind (h : Reads p depth [] (ts ++ rest) a True)
    (hf : Reads (f a) depth ts rest b Q) : Reads (p >>= f) depth ts rest b Q :=
  (Reads.bind h hf).congr (iff_of_eq (true_and Q))

theorem reads_pure : Reads (pure a) depth [] rest a True :=
  fun s _ _ => .inl ⟨trivial, s, rfl, .refl s⟩

/-- A second step that takes nothing and always fits. -/
theorem Reads.bind_nil (h : Reads p depth ts rest a P) (hf : Reads (f a) depth [] rest b True) :
    Reads (p >>= f) depth ts rest b P := by
  rw [← List.append_nil ts]
  exact (Reads.bind h hf).congr (iff_of_eq (and_true P))

theorem Reads.map {g : α → β} (h : Reads p depth ts rest a P) :
    Reads (p >>= fun a => pure (g a)) depth ts rest (g a) P :=
  h.bind_nil reads_pure

/-- Without room nothing is read. -/
theorem reads_tooDeep (h : ¬P) : Reads (throw .tooDeep) depth ts rest a P :=
  fun s _ _ => .inr ⟨h, s, rfl⟩

/-- A step that only notes something in the trace. -/
theorem Reads.enter_bind {scope : Production} (h : Reads p depth ts rest a P) :
    Reads (enter scope >>= fun _ => p) depth ts rest a P := by
  intro s hs hd
  rcases h { s with log := s.log.note scope.level ("Parser::" ++ scope.label) } hs hd with
    ⟨hP, s', h₁, hts⟩ | ⟨hP, s', h₁⟩
  · exact .inl ⟨hP, s', h₁, (State.Steps.of_log s _).trans hts⟩
  · exact .inr ⟨hP, s', h₁⟩

theorem Reads.peek_bind {f : Token → Parse β} (ht : ts ++ rest = t :: us)
    (h : Reads (f t) depth ts rest b P) : Reads (peek >>= f) depth ts rest b P := by
  intro s hs hd
  have hpeek : s.cursor.peek = t := State.peek_of_rest (hs.trans ht)
  have hbind : (peek >>= f) s = f t s := by rw [← hpeek]; rfl
  rw [hbind]
  exact h s hs hd

theorem Reads.next_bind {f : Token → Parse β} (ht : t.kind ≠ .eof)
    (h : Reads (f t) depth ts rest b P) : Reads (next >>= f) depth (t :: ts) rest b P := by
  intro s hs hd
  have hpeek : s.cursor.peek = t := State.peek_of_rest hs
  have hstep := State.steps_next hs ht
  have hbind : (next >>= f) s = f t { s with cursor := s.cursor.next } := by rw [← hpeek]; rfl
  rw [hbind]
  rcases h _ (hstep.rest_eq hs) hd with ⟨hP, s', h₁, hts⟩ | ⟨hP, s', h₁⟩
  · exact .inl ⟨hP, s', h₁, hstep.trans hts⟩
  · exact .inr ⟨hP, s', h₁⟩

theorem Reads.expect_bind {scope : Production} {k : Kind} {f : Token → Parse β} (hk : k ≠ .eof)
    (ht : t.kind = k) (h : Reads (f t) depth ts rest b P) :
    Reads (expect scope k >>= f) depth (t :: ts) rest b P := by
  have hnext : expect scope k >>= f =
      next >>= fun t => (if t.kind = k then pure t else reject scope (.expected k) t) >>= f := rfl
  rw [hnext]
  refine Reads.next_bind (ht ▸ hk) ?_
  rw [if_pos ht]
  exact h

/-- The next token is of one of the kinds that are looked for. -/
theorem Reads.ite_pos (ht : ts ++ rest = t :: us) (hk : t.kind ∈ ks)
    (h : Reads p depth ts rest a P) :
    Reads (looksAt ks >>= fun b => if b = true then p else q) depth ts rest a P := by
  refine Reads.peek_bind (f := fun t => if ks.contains t.kind = true then p else q) ht ?_
  rw [if_pos (List.contains_iff_mem.mpr hk)]
  exact h

/-- The next token is of none of the kinds that are looked for. -/
theorem Reads.ite_neg (ht : ts ++ rest = t :: us) (hk : t.kind ∉ ks)
    (h : Reads q depth ts rest a P) :
    Reads (looksAt ks >>= fun b => if b = true then p else q) depth ts rest a P := by
  refine Reads.peek_bind (f := fun t => if ks.contains t.kind = true then p else q) ht ?_
  rw [if_neg (fun hc => hk (List.contains_iff_mem.mp hc))]
  exact h

theorem reads_inFunction (h : Reads p (depth + 1) ts rest a P) :
    Reads (inFunction p) depth ts rest a P := by
  intro s hs hd
  rcases h { s with functionDepth := s.functionDepth + 1 } hs (congrArg (· + 1) hd) with
    ⟨hP, s', h₁, hts⟩ | ⟨hP, s', h₁⟩
  · have hdepth : s'.functionDepth = s.functionDepth + 1 := hts.depth
    refine .inl ⟨hP, { s' with functionDepth := s'.functionDepth - 1 }, ?_, ?_⟩
    · simp only [inFunction, h₁]
    · exact ⟨hts.tokens, hts.pos, by simp [hdepth], hts.rest, hts.inner⟩
  · refine .inr ⟨hP, { s' with functionDepth := s'.functionDepth - 1 }, ?_⟩
    simp only [inFunction, h₁]

/-- The bound that the remaining tokens give is more than any phrase needs. -/
theorem Reads.patience_bind {f : Nat → Parse β}
    (h : ∀ fuel, ts.length < fuel → Reads (f fuel) depth ts rest b P) :
    Reads (patience >>= f) depth ts rest b P := by
  intro s hs hd
  refine h (s.cursor.remaining + 1) ?_ s hs hd
  rw [State.remaining_eq, hs, List.length_append]
  omega

/-- A repetition ends when a round gives nothing. -/
theorem reads_iterateFor_none {step : α → Parse (Option α)} {fuel : Nat} (hfuel : 0 < fuel)
    (h : Reads (step a) depth [] rest none True) :
    Reads (iterateFor step fuel a) depth [] rest a True := by
  obtain ⟨fuel, rfl⟩ := Nat.exists_eq_add_of_lt hfuel
  rw [Nat.zero_add]
  refine h.nil_bind ?_
  exact reads_pure

theorem reads_iterateFor_some {step : α → Parse (Option α)} {fuel : Nat} {a' c : α}
    (h : Reads (step a) depth ts (us ++ rest) (some a') P)
    (hmore : Reads (iterateFor step fuel a') depth us rest c Q) :
    Reads (iterateFor step (fuel + 1) a) depth (ts ++ us) rest c (P ∧ Q) :=
  Reads.bind h hmore

theorem reads_collectFor_none {item : Parse (Option α)} {fuel : Nat} (hfuel : 0 < fuel)
    (h : Reads item depth [] rest none True) :
    Reads (collectFor item fuel) depth [] rest [] True := by
  obtain ⟨fuel, rfl⟩ := Nat.exists_eq_add_of_lt hfuel
  rw [Nat.zero_add]
  refine h.nil_bind ?_
  exact reads_pure

theorem reads_collectFor_some {item : Parse (Option α)} {fuel : Nat} {as : List α}
    (h : Reads item depth ts (us ++ rest) (some a) P)
    (hmore : Reads (collectFor item fuel) depth us rest as Q) :
    Reads (collectFor item (fuel + 1)) depth (ts ++ us) rest (a :: as) (P ∧ Q) :=
  Reads.bind h hmore.map

end Reads

end TinyScript.Parser
