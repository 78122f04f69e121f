import TinyScript.Proofs.Parsing.Pairs

/-!
# Laws of parsing steps

`Law T P` says that `P` holds of the elementary parsing steps and is kept when steps are put
together, where `T` is what is known of the tokens that are read. It is a law of pairs in which the
second step does not matter, so it holds of all productions (`Law.program`).
-/

namespace TinyScript.Parser

/-- What elementary steps obey and composition keeps. A number is read from a token of its kind, and
nothing else can be unreadable. -/
structure Law (T : Token → Prop) (P : ∀ {α : Type}, Parse α → Prop) : Prop where
  pure {α : Type} (a : α) : P (pure a)
  bind {α β : Type} {p : Parse α} {f : α → Parse β} : P p → (∀ a, P (f a)) → P (p >>= f)
  peek_bind {β : Type} {f : Token → Parse β} : (∀ t, T t → P (f t)) → P (peek >>= f)
  next_bind {β : Type} {f : Token → Parse β} : (∀ t, T t → P (f t)) → P (next >>= f)
  looksAt (kinds : List Kind) : P (looksAt kinds)
  enter (p : Production) : P (enter p)
  patience : P patience
  depth {β : Type} {p q : Parse β} : P p → P q →
    P (get >>= fun s => if s.functionDepth = 0 then p else q)
  inFunction {α : Type} {p : Parse α} : P p → P (inFunction p)
  reject {α : Type} (scope : Production) (cause : SyntaxCause) (t : Token) :
    P (reject scope cause t : Parse α)
  tooDeep {α : Type} : P (throw .tooDeep : Parse α)
  number {α : Type} {t : Token} {e : Number.ReadError} : T t → t.kind = .number →
    Number.readInt t.text = .error e → P (throw (.unreadable e) : Parse α)
  float {α : Type} {t : Token} {e : Number.ReadError} : T t → t.kind = .float →
    Number.readFloat t.text = .error e → P (throw (.unreadable e) : Parse α)

/-- Where a token of some kinds is looked at, what is done with others does not matter. -/
theorem take_congr {β : Type} {kinds : List Kind} {f g : Token → Parse β} (q : Parse β)
    (h : ∀ t, t.kind ∈ kinds → f t = g t) :
    (looksAt kinds >>= fun b => if b = true then next >>= f else q) =
      looksAt kinds >>= fun b => if b = true then next >>= g else q := by
  funext s
  show (if kinds.contains s.cursor.peek.kind = true then next >>= f else q) s =
    (if kinds.contains s.cursor.peek.kind = true then next >>= g else q) s
  by_cases hk : kinds.contains s.cursor.peek.kind = true
  · rw [if_pos hk, if_pos hk]
    show f s.cursor.peek _ = g s.cursor.peek _
    rw [h _ (List.contains_iff_mem.mp hk)]
  · rw [if_neg hk, if_neg hk]

namespace Law

variable {T : Token → Prop} {P : ∀ {α : Type}, Parse α → Prop}

/-- A law of steps, as one of pairs that read the same token. -/
theorem pair (h : Law T P) : PairLaw (fun t t' => t' = t ∧ T t) fun p _ => P p where
  kind ht := congrArg Token.kind ht.1
  text ht _ := congrArg Token.text ht.1
  pure := h.pure
  bind := h.bind
  peek_bind hf := h.peek_bind fun t ht => hf t t ⟨rfl, ht⟩
  next_bind hf := h.next_bind fun t ht => hf t t ⟨rfl, ht⟩
  take_bind {_ kinds f _ q _} hf hq := by
    -- A token of another kind is never taken, so it may be thought of as refused.
    rw [take_congr (g := fun t => if t.kind ∈ kinds then f t else throw .tooDeep) q
      fun t ht => (if_pos ht).symm]
    refine h.bind (h.looksAt kinds) fun b => ?_
    cases b with
    | false => exact hq
    | true =>
      refine h.next_bind fun t ht => ?_
      by_cases hk : t.kind ∈ kinds
      · rw [if_pos hk]
        exact hf t t ⟨rfl, ht⟩ hk
      · rw [if_neg hk]
        exact h.tooDeep
  looksAt := h.looksAt
  enter := h.enter
  patience := h.patience
  depth := h.depth
  inFunction := h.inFunction
  reject scope cause _ := h.reject scope cause _
  tooDeep := h.tooDeep
  number ht := h.number ht.2
  float ht := h.float ht.2

/-- A law of steps is a law of programs. -/
theorem program (h : Law T P) (room : Nat) : P (program room) := h.pair.program room

end Law

end TinyScript.Parser
