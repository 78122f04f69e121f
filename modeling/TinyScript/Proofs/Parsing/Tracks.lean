import TinyScript.Proofs.Parsing.Program

/-!
# How far parsing steps look

Parsing is decided from left to right, with one token of lookahead: what a step takes depends on no
token beyond the next one, and a rejection on no token beyond the rejected one. `Foretold` says this
of the run from one state, and `Tracks` of all runs, relative to a set of phrases: what the step
takes is a phrase, and what it takes before a rejection is the beginning of one.

Like `Accepts` and `Reads`, `Tracks` is closed under sequencing, so a production is described by
describing its steps one after the other. A completion of an unfinished phrase is not written down
where the rejection happens: a step that tracks phrases has one of them, and so a rejected phrase is
completed by those of the steps that would have followed.
-/

namespace TinyScript

/-- Whether a token that is rejected for this reason has been taken before. A call in the place of a
statement is noticed while its parenthesis is only looked at. -/
def SyntaxCause.taken : SyntaxCause → Bool
  | callStatement _ => false
  | _ => true

/-- What the history shows of a rejected token. -/
def SyntaxCause.shown (cause : SyntaxCause) (t : Token) : List Token :=
  if cause.taken then [t] else []

namespace Parser

open Grammar

namespace State

theorem take_of_rest {s : State} {ts us : List Token} (h : s.rest = ts ++ us) :
    s.cursor.tokens.toList.take (s.cursor.pos + ts.length) = s.cursor.history ++ ts := by
  have hdrop : s.cursor.tokens.toList.drop s.cursor.pos = ts ++ us := h
  rw [List.take_add, hdrop, List.take_left]
  rfl

/-- The history grows by what is taken. -/
theorem Steps.history {s s' : State} {ts : List Token} (h : s.Steps ts s') :
    s'.cursor.history = s.cursor.history ++ ts := by
  rw [Cursor.history, h.tokens, h.pos]
  exact take_of_rest h.rest

theorem history_next {s : State} {t : Token} {ts : List Token} (h : s.rest = t :: ts) :
    s.cursor.next.history = s.cursor.history ++ [t] := by
  have hrest : s.rest = [t] ++ ts := h
  exact take_of_rest hrest

theorem peek_of_head? {s : State} {t : Token} (h : s.rest.head? = some t) :
    s.cursor.peek = t := by
  obtain ⟨ts, hts⟩ := List.head?_eq_some_iff.mp h
  exact peek_of_rest hts

/-- Taking tokens leaves fewer of them. -/
theorem Steps.length_lt {s s' : State} {ts : List Token} (h : s.Steps ts s') (hts : ts ≠ []) :
    s'.rest.length < s.rest.length := by
  have hpos : 0 < ts.length := List.length_pos_iff.mpr hts
  rw [h.rest, List.length_append]
  omega

end State

/-- Lists that are split at a token begin with the same token, whatever comes after the split. -/
theorem exists_cons_of_split {ts us vs : List Token} {t u : Token} (h : ts ++ t :: us = u :: vs)
    (more : List Token) : ∃ more', ts ++ t :: more = u :: more' := by
  cases ts with
  | nil => exact ⟨more, by rw [(List.cons.inj h).1, List.nil_append]⟩
  | cons v ts => exact ⟨ts ++ t :: more, by rw [← (List.cons.inj h).1, List.cons_append]⟩

/-- When the tokens that are left begin with `ts` and `t`, the step rejects `t`, and the history
shows what was taken before it. -/
def Refuses {α : Type} (p : Parse α) (depth : Nat) (ts : List Token) (t : Token)
    (scope : Production) (cause : SyntaxCause) : Prop :=
  ∀ s more, s.rest = ts ++ t :: more → s.functionDepth = depth →
    ∃ s', p s = .error (.rejected ⟨scope, cause, t, s.cursor.history ++ ts ++ cause.shown t⟩) s'

section Refuses

variable {α β : Type} {p : Parse α} {f : α → Parse β} {depth : Nat} {ts us : List Token}
variable {t u : Token} {a : α} {scope : Production} {cause : SyntaxCause}

theorem refuses_reject (h : cause.taken = false) :
    Refuses (reject scope cause t : Parse α) depth [] t scope cause := by
  intro s more hs hd
  refine ⟨s, ?_⟩
  simp [reject, SyntaxCause.shown, h]

/-- A token that is rejected once it has been taken. -/
theorem refuses_next {g : Token → Parse β} (hg : g t = reject scope cause t)
    (h : cause.taken = true) : Refuses (next >>= g) depth [] t scope cause := by
  intro s more hs hd
  have hpeek : s.cursor.peek = t := State.peek_of_rest hs
  have hbind : (next >>= g) s = g t { s with cursor := s.cursor.next } := by rw [← hpeek]; rfl
  refine ⟨{ s with cursor := s.cursor.next }, ?_⟩
  rw [hbind, hg, List.append_nil, SyntaxCause.shown, if_pos h, ← State.history_next hs]
  rfl

theorem Refuses.bind (h : Refuses p depth ts t scope cause) :
    Refuses (p >>= f) depth ts t scope cause := by
  intro s more hs hd
  obtain ⟨s', he⟩ := h s more hs hd
  exact ⟨s', bind_of_error he⟩

/-- A rejection after a step that gives its result. -/
theorem Refuses.of_reads (h : ∀ more, Reads p depth ts (u :: more) a True)
    (hf : Refuses (f a) depth us t scope cause)
    (hhead : ∀ more, ∃ more', us ++ t :: more = u :: more') :
    Refuses (p >>= f) depth (ts ++ us) t scope cause := by
  intro s more hs hd
  rw [List.append_assoc] at hs
  obtain ⟨more', hmore⟩ := hhead more
  rcases h more' s (by rw [hs, hmore]) hd with ⟨-, s₁, hok, hsteps⟩ | ⟨hno, -⟩
  · obtain ⟨s', he⟩ := hf s₁ more (hsteps.rest_eq hs) (hsteps.depth.trans hd)
    refine ⟨s', ?_⟩
    rw [bind_of_ok hok, he, hsteps.history, List.append_assoc s.cursor.history]
  · exact absurd trivial hno

theorem Refuses.patience_bind {g : Nat → Parse β}
    (h : ∀ fuel, ts.length < fuel → Refuses (g fuel) depth ts t scope cause) :
    Refuses (patience >>= g) depth ts t scope cause := by
  intro s more hs hd
  refine h (s.cursor.remaining + 1) ?_ s more hs hd
  rw [State.remaining_eq, hs, List.length_append]
  omega

theorem Refuses.inFunction (h : Refuses p (depth + 1) ts t scope cause) :
    Refuses (inFunction p) depth ts t scope cause := by
  intro s more hs hd
  obtain ⟨s', he⟩ := h { s with functionDepth := s.functionDepth + 1 } more hs
    (congrArg (· + 1) hd)
  refine ⟨{ s' with functionDepth := s'.functionDepth - 1 }, ?_⟩
  simp only [Parser.inFunction, he]

end Refuses

/-- How the steps `p fuel` go from a state, for every bound on their rounds that exceeds the tokens
they take. They give a result for a phrase that is `Q`, on every list of tokens that begins with the
phrase and the token after it; or they reject a token after the beginning of a phrase, on every list
that begins with these; or they fail without rejecting a token. -/
inductive Foretold {α : Type} (p : Nat → Parse α) (depth : Nat) (Q : List Token → α → Prop)
    (s : State) : Prop where
  | reads {ts us : List Token} {t : Token} {a : α} (hs : s.rest = ts ++ t :: us) (hq : Q ts a)
      (h : ∀ fuel more, ts.length < fuel → Reads (p fuel) depth ts (t :: more) a True)
  | refuses {ts us : List Token} {t : Token} (scope : Production) (cause : SyntaxCause)
      (hs : s.rest = ts ++ t :: us) (hq : ∃ more a, Q (ts ++ more) a)
      (h : ∀ fuel, ts.length < fuel → Refuses (p fuel) depth ts t scope cause)
  | stops (h : ∀ fuel, s.rest.length < fuel →
      ∃ e s', p fuel s = .error e s' ∧ ∀ x, e ≠ .rejected x)

section Foretold

variable {α β : Type} {p : Parse α} {f : α → Parse β} {depth : Nat} {s : State}
variable {Q Q' : List Token → α → Prop} {R : List Token → β → Prop}

theorem Foretold.imp {q : Nat → Parse α} (h : Foretold q depth Q s)
    (hQ : ∀ ts a, Q ts a → Q' ts a) : Foretold q depth Q' s := by
  cases h with
  | reads hs hq h => exact .reads hs (hQ _ _ hq) h
  | refuses scope cause hs hq h =>
    obtain ⟨more, a, ha⟩ := hq
    exact .refuses scope cause hs ⟨more, a, hQ _ _ ha⟩ h
  | stops h => exact .stops h

/-- Steps that do the same whenever the depth and the next token are the same. -/
theorem Foretold.congr {q q' : Nat → Parse α} (h : Foretold q depth Q s)
    (hd : s.functionDepth = depth)
    (hq : ∀ fuel s', s'.functionDepth = depth → s'.rest.head? = s.rest.head? →
      q' fuel s' = q fuel s') : Foretold q' depth Q s := by
  have hhead : ∀ {ts us more : List Token} {t : Token} {s' : State}, s.rest = ts ++ t :: us →
      s'.rest = ts ++ t :: more → s'.rest.head? = s.rest.head? := by
    intro ts us more t s' hs hs'
    rw [hs, hs']
    cases ts <;> rfl
  cases h with
  | reads hs hq' h =>
    refine .reads hs hq' fun fuel more hfuel s' hs' hd' => ?_
    rw [hq fuel s' hd' (hhead hs hs')]
    exact h fuel more hfuel s' hs' hd'
  | refuses scope cause hs hq' h =>
    refine .refuses scope cause hs hq' fun fuel hfuel s' more hs' hd' => ?_
    rw [hq fuel s' hd' (hhead hs hs')]
    exact h fuel hfuel s' more hs' hd'
  | stops h =>
    refine .stops fun fuel hfuel => ?_
    rw [hq fuel s hd rfl]
    exact h fuel hfuel

/-- A step that gives its result, and the steps after it. The bounds on the rounds of the whole
leave enough for the rest. -/
theorem Foretold.after_reads {q q' : Nat → Parse β} {ts us : List Token} {t : Token} {a : α}
    (hs : s.rest = ts ++ t :: us) (hd : s.functionDepth = depth)
    (hp : ∀ more, Reads p depth ts (t :: more) a True)
    (hq : ∀ s₁, s.Steps ts s₁ → Foretold q depth (fun vs b => R (ts ++ vs) b) s₁)
    (hbound : ∀ fuel vs, (ts ++ vs).length < fuel →
      ∃ fuel' f, vs.length < fuel' ∧ q' fuel = p >>= f ∧ f a = q fuel') :
    Foretold q' depth R s := by
  obtain ⟨s₁, hok, hsteps⟩ : ∃ s₁, p s = .ok a s₁ ∧ s.Steps ts s₁ := by
    rcases hp us s hs hd with ⟨-, hok⟩ | ⟨hno, -⟩
    · exact hok
    · exact absurd trivial hno
  have hrest : s₁.rest = t :: us := hsteps.rest_eq hs
  cases hq s₁ hsteps with
  | @reads vs ws u b hv hr hread =>
    have hsplit : s.rest = (ts ++ vs) ++ u :: ws := by rw [hsteps.rest, hv, List.append_assoc]
    refine .reads hsplit hr fun fuel more hfuel => ?_
    obtain ⟨fuel', f, hfuel', hf, hfa⟩ := hbound fuel vs hfuel
    obtain ⟨more', hmore⟩ := exists_cons_of_split (hv.symm.trans hrest) more
    have hnext : Reads (f a) depth vs (u :: more) b True := hfa ▸ hread fuel' more hfuel'
    rw [hf]
    exact (Reads.bind (hmore ▸ hp more') hnext).congr (iff_of_eq (true_and True))
  | @refuses vs ws u scope cause hv hr hrefuse =>
    have hsplit : s.rest = (ts ++ vs) ++ u :: ws := by rw [hsteps.rest, hv, List.append_assoc]
    obtain ⟨more, b, hb⟩ := hr
    rw [← List.append_assoc] at hb
    refine .refuses scope cause hsplit ⟨more, b, hb⟩ fun fuel hfuel => ?_
    obtain ⟨fuel', f, hfuel', hf, hfa⟩ := hbound fuel vs hfuel
    have hnext : Refuses (f a) depth vs u scope cause := hfa ▸ hrefuse fuel' hfuel'
    rw [hf]
    exact .of_reads hp hnext (exists_cons_of_split (hv.symm.trans hrest))
  | stops hstop =>
    refine .stops fun fuel hfuel => ?_
    obtain ⟨fuel', f, hfuel', hf, hfa⟩ := hbound fuel s₁.rest (hsteps.rest ▸ hfuel)
    obtain ⟨e, s', he, hne⟩ := hstop fuel' hfuel'
    exact ⟨e, s', by rw [hf, bind_of_ok hok, hfa, he], hne⟩

theorem Foretold.bind (h : Foretold (fun _ => p) depth Q s) (hd : s.functionDepth = depth)
    (hf : ∀ us a s₁, Q us a → s.Steps us s₁ →
      Foretold (fun _ => f a) depth (fun vs b => R (us ++ vs) b) s₁)
    (hR : ∀ us a, Q us a → ∃ vs b, R (us ++ vs) b) :
    Foretold (fun _ => p >>= f) depth R s := by
  cases h with
  | reads hs hq h =>
    refine .after_reads hs hd (fun more => h _ more (Nat.lt_succ_self _))
      (fun s₁ => hf _ _ s₁ hq) fun fuel vs _ => ?_
    exact ⟨vs.length + 1, f, Nat.lt_succ_self _, rfl, rfl⟩
  | refuses scope cause hs hq h =>
    obtain ⟨more, a, ha⟩ := hq
    obtain ⟨vs, b, hb⟩ := hR _ a ha
    rw [List.append_assoc] at hb
    exact .refuses scope cause hs ⟨more ++ vs, b, hb⟩ fun fuel hfuel => (h fuel hfuel).bind
  | stops h =>
    refine .stops fun fuel hfuel => ?_
    obtain ⟨e, s', he, hne⟩ := h fuel hfuel
    exact ⟨e, s', bind_of_error he, hne⟩

theorem Foretold.map {q : Nat → Parse α} {g : α → β} (h : Foretold q depth Q s)
    (hQ : ∀ ts a, Q ts a → R ts (g a)) :
    Foretold (fun fuel => q fuel >>= fun a => pure (g a)) depth R s := by
  cases h with
  | reads hs hq h => exact .reads hs (hQ _ _ hq) fun fuel more hfuel => (h fuel more hfuel).map
  | refuses scope cause hs hq h =>
    obtain ⟨more, a, ha⟩ := hq
    exact .refuses scope cause hs ⟨more, g a, hQ _ _ ha⟩ fun fuel hfuel => (h fuel hfuel).bind
  | stops h =>
    refine .stops fun fuel hfuel => ?_
    obtain ⟨e, s', he, hne⟩ := h fuel hfuel
    exact ⟨e, s', bind_of_error he, hne⟩

theorem Foretold.patience_bind {g : Nat → Parse β} (h : Foretold g depth R s) :
    Foretold (fun _ => patience >>= g) depth R s := by
  cases h with
  | reads hs hr h =>
    exact .reads hs hr fun _ more _ => Reads.patience_bind fun fuel => h fuel more
  | refuses scope cause hs hr h =>
    exact .refuses scope cause hs hr fun _ _ => Refuses.patience_bind h
  | stops h =>
    refine .stops fun _ _ => h (s.cursor.remaining + 1) ?_
    rw [State.remaining_eq]
    exact Nat.lt_succ_self _

theorem Foretold.inFunction
    (h : Foretold (fun _ => p) (depth + 1) Q { s with functionDepth := s.functionDepth + 1 }) :
    Foretold (fun _ => Parser.inFunction p) depth Q s := by
  cases h with
  | reads hs hq h => exact .reads hs hq fun fuel more hfuel => reads_inFunction (h fuel more hfuel)
  | refuses scope cause hs hq h =>
    exact .refuses scope cause hs hq fun fuel hfuel => (h fuel hfuel).inFunction
  | stops h =>
    refine .stops fun fuel hfuel => ?_
    obtain ⟨e, s', he, hne⟩ := h fuel hfuel
    refine ⟨e, { s' with functionDepth := s'.functionDepth - 1 }, ?_, hne⟩
    simp only [Parser.inFunction, he]

/-- A step that takes nothing. Before the end of the input there is always a token after it. -/
theorem Foretold.of_reads_nil {a : α} (hs : EndsInput s.rest) (hq : Q [] a)
    (h : ∀ more, Reads p depth [] more a True) : Foretold (fun _ => p) depth Q s := by
  obtain ⟨ts, hts⟩ := State.rest_eq_cons hs
  have hsplit : s.rest = [] ++ s.cursor.peek :: ts := hts
  exact .reads hsplit hq fun _ more _ => h _

theorem foretold_pure {a : α} (hs : EndsInput s.rest) (h : Q [] a) :
    Foretold (fun _ => pure a) depth Q s :=
  .of_reads_nil hs h fun _ => reads_pure

theorem foretold_throw {e : Failure} (h : ∀ x, e ≠ .rejected x) :
    Foretold (fun _ => (throw e : Parse α)) depth Q s :=
  .stops fun _ _ => ⟨e, s, rfl, h⟩

end Foretold

/-- The step tracks the phrases `Q`, of which there are some: what it takes is decided by what it
takes and the token after it, and a rejection by what it takes and the rejected token, which is the
first one that does not go on with a phrase. -/
structure Tracks {α : Type} (p : Parse α) (depth : Nat) (Q : List Token → α → Prop) : Prop where
  inhabited : ∃ ts a, Q ts a
  foretold : ∀ s, s.functionDepth = depth → EndsInput s.rest → Foretold (fun _ => p) depth Q s

/-- The same of the runs that begin with a known token, whatever phrases there are. -/
def TracksAt {α : Type} (t : Token) (p : Parse α) (depth : Nat) (Q : List Token → α → Prop) :
    Prop :=
  ∀ s, s.cursor.peek = t → s.functionDepth = depth → EndsInput s.rest →
    Foretold (fun _ => p) depth Q s

section Tracks

variable {α β : Type} {p q : Parse α} {f : α → Parse β} {depth : Nat} {t : Token} {ks : List Kind}
variable {Q Q' : List Token → α → Prop} {R : List Token → β → Prop}
variable {scope : Production} {cause : SyntaxCause}

theorem Tracks.at (h : Tracks p depth Q) (t : Token) : TracksAt t p depth Q :=
  fun s _ => h.foretold s

theorem Tracks.imp (h : Tracks p depth Q) (hQ : ∀ ts a, Q ts a → Q' ts a) :
    Tracks p depth Q' := by
  obtain ⟨ts, a, ha⟩ := h.inhabited
  exact ⟨⟨ts, a, hQ ts a ha⟩, fun s hd hs => (h.foretold s hd hs).imp hQ⟩

theorem tracks_pure {a : α} (h : Q [] a) : Tracks (pure a) depth Q :=
  ⟨⟨[], a, h⟩, fun _ _ hs => foretold_pure hs h⟩

/-- A failure without a rejected token. -/
theorem tracks_throw {e : Failure} (hQ : ∃ ts a, Q ts a) (h : ∀ x, e ≠ .rejected x) :
    Tracks (throw e) depth Q :=
  ⟨hQ, fun _ _ _ => foretold_throw h⟩

theorem Tracks.bind (h : Tracks p depth Q)
    (hf : ∀ us a, Q us a → Tracks (f a) depth fun vs b => R (us ++ vs) b) :
    Tracks (p >>= f) depth R where
  inhabited := by
    obtain ⟨us, a, ha⟩ := h.inhabited
    obtain ⟨vs, b, hb⟩ := (hf us a ha).inhabited
    exact ⟨us ++ vs, b, hb⟩
  foretold := by
    intro s hd hs
    refine (h.foretold s hd hs).bind hd ?_ fun us a ha => (hf us a ha).inhabited
    intro us a s₁ ha hsteps
    exact (hf us a ha).foretold s₁ (hsteps.depth.trans hd) (hsteps.endsInput hs)

/-- A first step that takes anything takes the known token. -/
theorem TracksAt.bind (h : Tracks p depth Q) (hR : ∀ us a, Q us a → ∃ vs b, R (us ++ vs) b)
    (hf : ∀ us a, Q us a → (∀ u ∈ us.head?, u = t) →
      Tracks (f a) depth fun vs b => R (us ++ vs) b) :
    TracksAt t (p >>= f) depth R := by
  intro s ht hd hs
  refine (h.foretold s hd hs).bind hd ?_ hR
  intro us a s₁ ha hsteps
  have hhead : ∀ u ∈ us.head?, u = t := by
    cases us with
    | nil => simp
    | cons u us =>
      have hu : s.cursor.peek = u := State.peek_of_rest hsteps.rest
      simp [← hu, ht]
  exact (hf us a ha hhead).foretold s₁ (hsteps.depth.trans hd) (hsteps.endsInput hs)

/-- Entering a production takes nothing. -/
theorem tracks_enter (scope : Production) : Tracks (enter scope) depth fun ts _ => ts = [] := by
  have hreads : ∀ more, Reads (enter scope) depth [] more () True :=
    fun more s _ _ => .inl ⟨trivial, _, rfl, .of_log s _⟩
  exact ⟨⟨[], (), rfl⟩, fun s _ hs => .of_reads_nil hs rfl hreads⟩

theorem Tracks.enter_bind (h : Tracks q depth Q) :
    Tracks (enter scope >>= fun _ => q) depth Q := by
  refine (tracks_enter scope).bind ?_
  rintro _ _ rfl
  exact h

/-- Whatever the next token is. -/
theorem tracks_peek_bind {g : Token → Parse β} (hR : ∃ ts b, R ts b)
    (h : ∀ t, TracksAt t (g t) depth R) : Tracks (peek >>= g) depth R := by
  refine ⟨hR, fun s hd hs => ?_⟩
  refine (h s.cursor.peek s rfl hd hs).congr hd fun _ s' _ hhead => ?_
  obtain ⟨ts, hts⟩ := State.rest_eq_cons hs
  rw [hts, List.head?_cons] at hhead
  have hpeek : s'.cursor.peek = s.cursor.peek := State.peek_of_head? hhead
  change g s'.cursor.peek s' = g s.cursor.peek s'
  rw [hpeek]

/-- Looking at the next token before choosing between two steps. -/
theorem Tracks.ite (hp : Tracks p depth Q) (hq : Tracks q depth Q) :
    Tracks (looksAt ks >>= fun b => if b = true then p else q) depth Q := by
  refine tracks_peek_bind (g := fun t => if ks.contains t.kind = true then p else q) hp.inhabited
    fun t => ?_
  split
  · exact hp.at t
  · exact hq.at t

theorem reads_next {rest : List Token} (ht : t.kind ≠ .eof) :
    Reads next depth [t] rest t True := by
  intro s hs hd
  have hpeek : s.cursor.peek = t := State.peek_of_rest hs
  refine .inl ⟨trivial, { s with cursor := s.cursor.next }, ?_, State.steps_next hs ht⟩
  rw [← hpeek]
  rfl

/-- A token that is taken and goes on with a phrase. -/
theorem TracksAt.next_bind {g : Token → Parse β} (ht : t.kind ≠ .eof)
    (h : ∀ s, s.functionDepth = depth → EndsInput s.rest →
      Foretold (fun _ => g t) depth (fun ts b => R (t :: ts) b) s) :
    TracksAt t (next >>= g) depth R := by
  intro s hpeek hd hs
  obtain ⟨us, hus⟩ := State.rest_eq_cons hs
  rw [hpeek] at hus
  have hstep := State.steps_next hus ht
  obtain ⟨vs, hvs⟩ := State.rest_eq_cons (hstep.endsInput hs)
  have hsplit := hstep.rest
  rw [hvs] at hsplit
  refine .after_reads (q := fun _ => g t) hsplit hd (fun more => reads_next ht) (fun s₁ h₁ => ?_)
    fun fuel ws _ => ?_
  · exact h s₁ (h₁.depth.trans hd) (h₁.endsInput hs)
  · exact ⟨ws.length + 1, g, Nat.lt_succ_self _, rfl, rfl⟩

/-- A step that rejects the next token. -/
theorem TracksAt.of_refuses (hQ : ∃ ts a, Q ts a) (h : Refuses p depth [] t scope cause) :
    TracksAt t p depth Q := by
  intro s hpeek hd hs
  obtain ⟨us, hus⟩ := State.rest_eq_cons hs
  rw [hpeek] at hus
  have hsplit : s.rest = [] ++ t :: us := hus
  exact .refuses scope cause hsplit hQ fun _ _ => h

/-- Taking whatever token comes next, and rejecting it or going on. -/
theorem tracks_next_bind {g : Token → Parse β} (hR : ∃ ts b, R ts b)
    (h : ∀ t, (∃ scope cause, g t = reject scope cause t ∧ cause.taken = true) ∨
      t.kind ≠ .eof ∧ ∀ s, s.functionDepth = depth → EndsInput s.rest →
        Foretold (fun _ => g t) depth (fun ts b => R (t :: ts) b) s) :
    Tracks (next >>= g) depth R := by
  refine ⟨hR, fun s hd hs => ?_⟩
  rcases h s.cursor.peek with ⟨scope, cause, hg, htaken⟩ | ⟨hk, hnext⟩
  · exact TracksAt.of_refuses hR (refuses_next hg htaken) s rfl hd hs
  · exact TracksAt.next_bind hk hnext s rfl hd hs

/-- Taking a token after seeing that it is of one of the given kinds. -/
theorem Tracks.take {g : Token → Parse α} (hks : .eof ∉ ks)
    (hg : ∀ t : {t : Token // t.kind ∈ ks}, Tracks (g t.val) depth fun ts a => Q (t.val :: ts) a)
    (hq : Tracks q depth Q) :
    Tracks (looksAt ks >>= fun b => if b = true then next >>= g else q) depth Q := by
  refine tracks_peek_bind (g := fun t => if ks.contains t.kind = true then next >>= g else q)
    hq.inhabited fun t => ?_
  split
  · next hc =>
    have hmem : t.kind ∈ ks := List.contains_iff_mem.mp hc
    exact .next_bind (ne_of_mem_of_not_mem hmem hks) (hg ⟨t, hmem⟩).foretold
  · exact hq.at t

/-- A token that must be of a given kind, and may be rejected for another reason even then. -/
theorem Tracks.expect_bind_or {k : Kind} {g : Token → Parse α} (hQ : ∃ ts a, Q ts a)
    (hk : k ≠ .eof)
    (hg : ∀ t : TokenOf k, (∃ cause, g t.val = reject scope cause t.val ∧ cause.taken = true) ∨
      Tracks (g t.val) depth fun ts a => Q (t.val :: ts) a) :
    Tracks (expect scope k >>= g) depth Q := by
  have hnext : expect scope k >>= g =
      next >>= fun t => (if t.kind = k then pure t else reject scope (.expected k) t) >>= g := rfl
  rw [hnext]
  refine tracks_next_bind hQ fun t => ?_
  by_cases ht : t.kind = k
  · rw [if_pos ht]
    rcases hg ⟨t, ht⟩ with ⟨cause, hreject, htaken⟩ | htracks
    · exact .inl ⟨scope, cause, hreject, htaken⟩
    · exact .inr ⟨ht ▸ hk, htracks.foretold⟩
  · rw [if_neg ht]
    exact .inl ⟨scope, .expected k, rfl, rfl⟩

/-- A token that must be of a given kind. -/
theorem Tracks.expect_bind {k : Kind} {g : Token → Parse α} (hk : k ≠ .eof)
    (hg : ∀ t : TokenOf k, Tracks (g t.val) depth fun ts a => Q (t.val :: ts) a) :
    Tracks (expect scope k >>= g) depth Q := by
  obtain ⟨ts, a, ha⟩ := (hg (sample k)).inhabited
  exact .expect_bind_or ⟨_, a, ha⟩ hk fun t => .inr (hg t)

/-- A choice that depends on whether a function body is open. -/
theorem TracksAt.depth_ite (h : TracksAt t (if depth = 0 then p else q) depth Q) :
    TracksAt t (get >>= fun s => if s.functionDepth = 0 then p else q) depth Q := by
  intro s ht hd hs
  refine (h s ht hd hs).congr hd fun _ s' hd' _ => ?_
  change (if s'.functionDepth = 0 then p else q) s' = (if depth = 0 then p else q) s'
  rw [hd']

theorem tracks_inFunction (h : Tracks p (depth + 1) Q) : Tracks (inFunction p) depth Q := by
  refine ⟨h.inhabited, fun s hd hs => Foretold.inFunction ?_⟩
  exact h.foretold { s with functionDepth := s.functionDepth + 1 } (congrArg (· + 1) hd) hs

/-- One round of a repetition that is bounded in its rounds. Since a round that goes on takes a
token, the bound that exceeds the tokens of all rounds also exceeds those of the rounds after the
first. -/
theorem Foretold.round {s : State} {p : Parse (Option α)} {Q : List Token → Option α → Prop}
    {loop : Nat → Parse β} {q : α → Nat → Parse β} {b : β} (h : Foretold (fun _ => p) depth Q s)
    (hd : s.functionDepth = depth)
    (hloop : ∀ fuel, loop (fuel + 1) = p >>= fun o => o.elim (pure b) fun a => q a fuel)
    (hnone : ∀ ts, Q ts none → ts = [] ∧ R [] b) (hsome : ∀ ts a, Q ts (some a) → ts ≠ [])
    (hq : ∀ ts a s₁, Q ts (some a) → s.Steps ts s₁ →
      Foretold (q a) depth (fun vs c => R (ts ++ vs) c) s₁)
    (hR : ∀ ts o, Q ts o → ∃ vs c, R (ts ++ vs) c) : Foretold loop depth R s := by
  have hpos : ∀ {n fuel : Nat}, n < fuel → ∃ fuel', fuel = fuel' + 1 := by
    intro n fuel hn
    exact Nat.exists_eq_succ_of_ne_zero (Nat.ne_zero_of_lt hn)
  cases h with
  | @reads ts us t o hs ho h =>
    cases o with
    | none =>
      obtain ⟨rfl, hb⟩ := hnone ts ho
      refine .reads hs hb fun fuel more hfuel => ?_
      obtain ⟨fuel, rfl⟩ := hpos hfuel
      rw [hloop]
      exact (h _ more hfuel).nil_bind reads_pure
    | some a =>
      refine .after_reads hs hd (fun more => h _ more (Nat.lt_succ_self _))
        (fun s₁ => hq ts a s₁ ho) fun fuel vs hfuel => ?_
      obtain ⟨fuel, rfl⟩ := hpos hfuel
      have hlen : 0 < ts.length := List.length_pos_iff.mpr (hsome ts a ho)
      rw [List.length_append] at hfuel
      exact ⟨fuel, _, by omega, hloop fuel, rfl⟩
  | refuses scope cause hs ho h =>
    obtain ⟨more, o, ho⟩ := ho
    obtain ⟨vs, c, hc⟩ := hR _ o ho
    rw [List.append_assoc] at hc
    refine .refuses scope cause hs ⟨more ++ vs, c, hc⟩ fun fuel hfuel => ?_
    obtain ⟨fuel, rfl⟩ := hpos hfuel
    rw [hloop]
    exact (h _ hfuel).bind
  | stops h =>
    refine .stops fun fuel hfuel => ?_
    obtain ⟨e, s', he, hne⟩ := h fuel hfuel
    obtain ⟨fuel, rfl⟩ := hpos hfuel
    exact ⟨e, s', by rw [hloop, bind_of_error he], hne⟩

/-- Rounds that rewrite a value. The induction is on the tokens that are left, of which each round
takes some. -/
theorem foretold_iterateFor {step : α → Parse (Option α)} {I : α → List Token → α → Prop}
    (hnil : ∀ a, I a [] a)
    (hstep : ∀ a, Tracks (step a) depth fun ts o =>
      o.elim (ts = []) fun b => ts ≠ [] ∧ ∀ us c, I b us c → I a (ts ++ us) c)
    (n : Nat) (a : α) (s : State) (hn : s.rest.length ≤ n) (hd : s.functionDepth = depth)
    (hs : EndsInput s.rest) : Foretold (fun fuel => iterateFor step fuel a) depth (I a) s := by
  induction n generalizing a s with
  | zero =>
    obtain ⟨ts, hts⟩ := State.rest_eq_cons hs
    simp [hts] at hn
  | succ n ih =>
    refine ((hstep a).foretold s hd hs).round (b := a) (q := fun b fuel => iterateFor step fuel b)
      hd ?_ ?_ ?_ ?_ ?_
    · intro fuel
      rw [iterateFor]
      congr 1
      funext o
      cases o <;> rfl
    · exact fun ts hts => ⟨hts, hnil a⟩
    · exact fun ts b hb => hb.1
    · intro ts b s₁ hb hsteps
      have hlen : s₁.rest.length < s.rest.length := hsteps.length_lt hb.1
      exact (ih b s₁ (by omega) (hsteps.depth.trans hd) (hsteps.endsInput hs)).imp hb.2
    · intro ts o ho
      cases o with
      | none =>
        cases ho
        exact ⟨[], a, hnil a⟩
      | some b => exact ⟨[], b, ho.2 [] b (hnil b)⟩

theorem tracks_iterate {step : α → Parse (Option α)} {I : α → List Token → α → Prop}
    (hnil : ∀ a, I a [] a)
    (hstep : ∀ a, Tracks (step a) depth fun ts o =>
      o.elim (ts = []) fun b => ts ≠ [] ∧ ∀ us c, I b us c → I a (ts ++ us) c) (a : α) :
    Tracks (iterate step a) depth (I a) := by
  refine ⟨⟨[], a, hnil a⟩, fun s hd hs => Foretold.patience_bind ?_⟩
  exact foretold_iterateFor hnil hstep s.rest.length a s (Nat.le_refl _) hd hs

/-- Rounds that collect items. -/
theorem foretold_collectFor {item : Parse (Option α)} {C : List Token → List α → Prop}
    (hnil : C [] [])
    (hitem : Tracks item depth fun ts o =>
      o.elim (ts = []) fun a => ts ≠ [] ∧ ∀ us as, C us as → C (ts ++ us) (a :: as))
    (n : Nat) (s : State) (hn : s.rest.length ≤ n) (hd : s.functionDepth = depth)
    (hs : EndsInput s.rest) : Foretold (collectFor item) depth C s := by
  induction n generalizing s with
  | zero =>
    obtain ⟨ts, hts⟩ := State.rest_eq_cons hs
    simp [hts] at hn
  | succ n ih =>
    refine (hitem.foretold s hd hs).round (b := [])
      (q := fun a fuel => collectFor item fuel >>= fun as => pure (a :: as)) hd ?_ ?_ ?_ ?_ ?_
    · intro fuel
      rw [collectFor]
      congr 1
      funext o
      cases o <;> rfl
    · exact fun ts hts => ⟨hts, hnil⟩
    · exact fun ts a ha => ha.1
    · intro ts a s₁ ha hsteps
      have hlen : s₁.rest.length < s.rest.length := hsteps.length_lt ha.1
      exact (ih s₁ (by omega) (hsteps.depth.trans hd) (hsteps.endsInput hs)).map ha.2
    · intro ts o ho
      cases o with
      | none =>
        cases ho
        exact ⟨[], [], hnil⟩
      | some a => exact ⟨[], [a], ho.2 [] [] hnil⟩

theorem tracks_collect {item : Parse (Option α)} {C : List Token → List α → Prop}
    (hnil : C [] [])
    (hitem : Tracks item depth fun ts o =>
      o.elim (ts = []) fun a => ts ≠ [] ∧ ∀ us as, C us as → C (ts ++ us) (a :: as)) :
    Tracks (collect item) depth C := by
  refine ⟨⟨[], [], hnil⟩, fun s hd hs => Foretold.patience_bind ?_⟩
  exact foretold_collectFor hnil hitem s.rest.length s (Nat.le_refl _) hd hs

end Tracks

end Parser

end TinyScript
