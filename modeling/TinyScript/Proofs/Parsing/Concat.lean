import TinyScript.Proofs.Lexing.Seam
import TinyScript.Proofs.Parsing.Program

/-!
# Programs one after the other

The places of tokens and the texts of line ends mean nothing to the grammar: tokens that are alike
have derivations that stand for the same program and are nested as deep (`exists_twin`). Programs
are put together statement by statement, so the derivations of two texts give one of both texts
together.
-/

namespace TinyScript

namespace Token.Alike

variable {t u : Token}

theorem text_eq (h : t.Alike u) (hk : t.kind ∉ [.newline, .indent, .dedent]) : u.text = t.text :=
  h.2.resolve_left hk

theorem literal?_eq (h : t.Alike u) {e : Expr} (ht : t.literal? = some e) :
    u.literal? = some e := by
  have htext : u.text = t.text := by
    refine h.text_eq fun hk => Token.false_of_literal? ht rfl fun hkind => ?_
    simp only [List.mem_cons, List.not_mem_nil, or_false] at hk hkind
    rcases hk with hk | hk | hk <;> simp [hk] at hkind
  rw [← ht, Token.literal?, Token.literal?, h.1, htext]

end Token.Alike

namespace Grammar

/-- A token of the same kind. -/
def TokenOf.alike {k : Kind} (t : TokenOf k) {u : Token} (h : t.val.Alike u) : TokenOf k :=
  ⟨u, h.1.trans t.2⟩

theorem TokenOf.text_alike {k : Kind} (t : TokenOf k) {u : Token} (h : t.val.Alike u)
    (hk : k ∉ [.newline, .indent, .dedent]) : u.text = t.val.text :=
  h.text_eq (by rwa [t.2])

theorem Level.text_alike {l : Level} (op : l.Operator) {u : Token} (h : op.val.Alike u) :
    u.text = op.val.text := by
  have hall : ∀ k ∈ l.operators, k ∉ [.newline, .indent, .dedent] := by cases l <;> decide
  exact h.text_eq (hall _ op.2)

theorem exists_append_of_alike {ts ts' us : List Token}
    (h : List.Forall₂ Token.Alike (ts ++ ts') us) :
    ∃ vs vs', List.Forall₂ Token.Alike ts vs ∧ List.Forall₂ Token.Alike ts' vs' ∧
      us = vs ++ vs' := by
  induction ts generalizing us with
  | nil => exact ⟨[], us, .nil, h, rfl⟩
  | cons t ts ih =>
    obtain ⟨u, us, hu, hmore, rfl⟩ := List.forall₂_cons_left_iff.mp h
    obtain ⟨vs, vs', hvs, hvs', rfl⟩ := ih hmore
    exact ⟨u :: vs, vs', .cons hu hvs, hvs', rfl⟩

/-- The derivations stand for the same, and take the same room. -/
structure ExprDerivation.Twin {n : ExprRule} (d d' : ExprDerivation n) : Prop where
  tree : d'.tree = d.tree
  stack : d'.stack = d.stack
  nesting : d'.nesting = d.nesting

/-- Alike tokens have twin derivations. -/
theorem ExprDerivation.exists_twin {n : ExprRule} (d : ExprDerivation n) {us : List Token}
    (h : List.Forall₂ Token.Alike d.yield us) : ∃ d', d'.yield = us ∧ d.Twin d' := by
  induction d generalizing us with
  | test d ih =>
    obtain ⟨d', hy, ht, hs, hn⟩ := ih h
    exact ⟨.test d', hy, ⟨ht, rfl, by simp [hs, hn]⟩⟩
  | positive d ih =>
    obtain ⟨d', hy, ht, hs, hn⟩ := ih h
    exact ⟨.positive d', hy, ⟨ht, by simp [hs], hn⟩⟩
  | primary d ih =>
    obtain ⟨d', hy, ht, -, hn⟩ := ih h
    exact ⟨.primary d', hy, ⟨ht, rfl, hn⟩⟩
  | atom d ih =>
    obtain ⟨d', hy, ht, -, hn⟩ := ih h
    exact ⟨.atom d', hy, ⟨ht, rfl, hn⟩⟩
  | chain first rest ihf ihr =>
    obtain ⟨vs, ws, hfirst, hrest, rfl⟩ := exists_append_of_alike h
    obtain ⟨first', rfl, hf⟩ := ihf hfirst
    obtain ⟨rest', rfl, hr⟩ := ihr hrest
    exact ⟨.chain first' rest', rfl, ⟨by simp [hf.tree, hr.tree], by simp [hf.stack, hr.stack],
      by simp [hf.nesting, hr.nesting]⟩⟩
  | tailNil =>
    obtain rfl := List.forall₂_nil_left_iff.mp h
    exact ⟨.tailNil, rfl, ⟨rfl, rfl, rfl⟩⟩
  | tailCons op right rest ihr iht =>
    obtain ⟨u, us, hop, hmore, rfl⟩ := List.forall₂_cons_left_iff.mp h
    obtain ⟨vs, ws, hright, hrest, rfl⟩ := exists_append_of_alike hmore
    obtain ⟨right', rfl, hr⟩ := ihr hright
    obtain ⟨rest', rfl, ht⟩ := iht hrest
    refine ⟨.tailCons ⟨u, hop.1 ▸ op.2⟩ right' rest', rfl, ⟨?_, ?_, ?_⟩⟩
    · simp [hr.tree, ht.tree, Level.text_alike op hop]
    · simp [hr.stack, ht.stack]
    · simp [hr.nesting, ht.nesting]
  | negation op d ih =>
    obtain ⟨u, us, hop, hmore, rfl⟩ := List.forall₂_cons_left_iff.mp h
    obtain ⟨d', rfl, hd⟩ := ih hmore
    have htext := op.text_alike hop (by decide)
    exact ⟨.negation (op.alike hop) d', rfl, ⟨by simp [hd.tree, TokenOf.alike, htext],
      by simp [hd.stack], hd.nesting⟩⟩
  | minus op d ih =>
    obtain ⟨u, us, hop, hmore, rfl⟩ := List.forall₂_cons_left_iff.mp h
    obtain ⟨d', rfl, hd⟩ := ih hmore
    have htext := op.text_alike hop (by decide)
    exact ⟨.minus (op.alike hop) d', rfl, ⟨by simp [hd.tree, TokenOf.alike, htext],
      by simp [hd.stack], hd.nesting⟩⟩
  | callEmpty f l r =>
    simp only [yield, List.forall₂_cons_left_iff, List.forall₂_nil_left_iff] at h
    obtain ⟨u, _, hf, ⟨v, _, hl, ⟨w, _, hr, rfl, rfl⟩, rfl⟩, rfl⟩ := h
    have htext := f.text_alike hf (by decide)
    exact ⟨.callEmpty (f.alike hf) (l.alike hl) (r.alike hr), rfl,
      ⟨by simp [TokenOf.alike, htext], rfl, rfl⟩⟩
  | call f l args r ih =>
    simp only [yield, List.forall₂_cons_left_iff] at h
    obtain ⟨u, _, hf, ⟨v, _, hl, hmore, rfl⟩, rfl⟩ := h
    obtain ⟨vs, ws, hargs, hclose, rfl⟩ := exists_append_of_alike hmore
    simp only [List.forall₂_cons_left_iff, List.forall₂_nil_left_iff] at hclose
    obtain ⟨w, _, hr, rfl, rfl⟩ := hclose
    obtain ⟨args', rfl, ha⟩ := ih hargs
    have htext := f.text_alike hf (by decide)
    exact ⟨.call (f.alike hf) (l.alike hl) args' (r.alike hr), rfl,
      ⟨by simp [TokenOf.alike, htext, ha.tree], rfl, ha.nesting⟩⟩
  | name x =>
    simp only [yield, List.forall₂_cons_left_iff, List.forall₂_nil_left_iff] at h
    obtain ⟨u, _, hx, rfl, rfl⟩ := h
    have htext := x.text_alike hx (by decide)
    exact ⟨.name (x.alike hx), rfl, ⟨by simp [TokenOf.alike, htext], rfl, rfl⟩⟩
  | literal t e he =>
    simp only [yield, List.forall₂_cons_left_iff, List.forall₂_nil_left_iff] at h
    obtain ⟨u, _, ht, rfl, rfl⟩ := h
    exact ⟨.literal u e (ht.literal?_eq he), rfl, ⟨rfl, rfl, rfl⟩⟩
  | paren l d r ih =>
    obtain ⟨u, us, hl, hmore, rfl⟩ := List.forall₂_cons_left_iff.mp h
    obtain ⟨vs, ws, hinner, hclose, rfl⟩ := exists_append_of_alike hmore
    simp only [List.forall₂_cons_left_iff, List.forall₂_nil_left_iff] at hclose
    obtain ⟨w, _, hr, rfl, rfl⟩ := hclose
    obtain ⟨d', rfl, hd⟩ := ih hinner
    exact ⟨.paren (l.alike hl) d' (r.alike hr), rfl, ⟨hd.tree, rfl, hd.nesting⟩⟩
  | list first rest ihf ihr =>
    obtain ⟨vs, ws, hfirst, hrest, rfl⟩ := exists_append_of_alike h
    obtain ⟨first', rfl, hf⟩ := ihf hfirst
    obtain ⟨rest', rfl, hr⟩ := ihr hrest
    exact ⟨.list first' rest', rfl, ⟨by simp [hf.tree, hr.tree], rfl,
      by simp [hf.nesting, hr.nesting]⟩⟩
  | listNil =>
    obtain rfl := List.forall₂_nil_left_iff.mp h
    exact ⟨.listNil, rfl, ⟨rfl, rfl, rfl⟩⟩
  | listCons comma e rest ihe ihr =>
    obtain ⟨u, us, hcomma, hmore, rfl⟩ := List.forall₂_cons_left_iff.mp h
    obtain ⟨vs, ws, hnext, hrest, rfl⟩ := exists_append_of_alike hmore
    obtain ⟨e', rfl, he⟩ := ihe hnext
    obtain ⟨rest', rfl, hr⟩ := ihr hrest
    exact ⟨.listCons (comma.alike hcomma) e' rest', rfl, ⟨by simp [he.tree, hr.tree], rfl,
      by simp [he.nesting, hr.nesting]⟩⟩

/-- The derivations stand for the same, are lawful in the same places, and take the same room. -/
structure StmtDerivation.Twin {n : StmtRule} (d d' : StmtDerivation false n) : Prop where
  tree : d'.tree = d.tree
  nesting : d'.nesting = d.nesting
  lawful : ∀ inside, d.Lawful inside → d'.Lawful inside

/-- Alike tokens have twin derivations. -/
theorem StmtDerivation.exists_twin {n : StmtRule} (d : StmtDerivation false n) {us : List Token}
    (h : List.Forall₂ Token.Alike d.yield us) : ∃ d', d'.yield = us ∧ d.Twin d' := by
  induction d generalizing us with
  | fileNil =>
    obtain rfl := List.forall₂_nil_left_iff.mp h
    exact ⟨.fileNil, rfl, ⟨rfl, rfl, fun _ => id⟩⟩
  | statementsNil =>
    obtain rfl := List.forall₂_nil_left_iff.mp h
    exact ⟨.statementsNil, rfl, ⟨rfl, rfl, fun _ => id⟩⟩
  | bodyNil =>
    obtain rfl := List.forall₂_nil_left_iff.mp h
    exact ⟨.bodyNil, rfl, ⟨rfl, rfl, fun _ => id⟩⟩
  | armsDone =>
    obtain rfl := List.forall₂_nil_left_iff.mp h
    exact ⟨.armsDone, rfl, ⟨rfl, rfl, fun _ => id⟩⟩
  | paramsNone =>
    obtain rfl := List.forall₂_nil_left_iff.mp h
    exact ⟨.paramsNone, rfl, ⟨rfl, rfl, fun _ => id⟩⟩
  | paramNil =>
    obtain rfl := List.forall₂_nil_left_iff.mp h
    exact ⟨.paramNil, rfl, ⟨rfl, rfl, fun _ => id⟩⟩
  | fileNewline nl rest ih =>
    obtain ⟨u, us, hnl, hrest, rfl⟩ := List.forall₂_cons_left_iff.mp h
    obtain ⟨rest', rfl, hr⟩ := ih hrest
    exact ⟨.fileNewline (nl.alike hnl) rest', rfl, ⟨hr.tree, hr.nesting, hr.lawful⟩⟩
  | fileStatement s rest ihs ihr =>
    obtain ⟨vs, ws, hfirst, hrest, rfl⟩ := exists_append_of_alike h
    obtain ⟨s', rfl, hs⟩ := ihs hfirst
    obtain ⟨rest', rfl, hr⟩ := ihr hrest
    exact ⟨.fileStatement s' rest', rfl, ⟨by simp [hs.tree, hr.tree],
      by simp [hs.nesting, hr.nesting], fun inside => And.imp (hs.lawful _) (hr.lawful _)⟩⟩
  | statementsCons s rest ihs ihr =>
    obtain ⟨vs, ws, hfirst, hrest, rfl⟩ := exists_append_of_alike h
    obtain ⟨s', rfl, hs⟩ := ihs hfirst
    obtain ⟨rest', rfl, hr⟩ := ihr hrest
    exact ⟨.statementsCons s' rest', rfl, ⟨by simp [hs.tree, hr.tree],
      by simp [hs.nesting, hr.nesting], fun inside => And.imp (hs.lawful _) (hr.lawful _)⟩⟩
  | bodyStatement s rest ihs ihr =>
    obtain ⟨vs, ws, hfirst, hrest, rfl⟩ := exists_append_of_alike h
    obtain ⟨s', rfl, hs⟩ := ihs hfirst
    obtain ⟨rest', rfl, hr⟩ := ihr hrest
    exact ⟨.bodyStatement s' rest', rfl, ⟨by simp [hs.tree, hr.tree],
      by simp [hs.nesting, hr.nesting], fun inside => And.imp (hs.lawful _) (hr.lawful _)⟩⟩
  | bodyReturn hb => cases hb
  | line s nl ih =>
    obtain ⟨vs, ws, hsimple, hend, rfl⟩ := exists_append_of_alike h
    simp only [List.forall₂_cons_left_iff, List.forall₂_nil_left_iff] at hend
    obtain ⟨u, _, hnl, rfl, rfl⟩ := hend
    obtain ⟨s', rfl, hs⟩ := ih hsimple
    exact ⟨.line s' (nl.alike hnl), rfl, ⟨hs.tree, by simp [hs.nesting], hs.lawful⟩⟩
  | loop kw x kwIn kwRange l args r colon body ih =>
    simp only [yield, List.forall₂_cons_left_iff] at h
    obtain ⟨_, _, hkw, ⟨_, _, hx, ⟨_, _, hin, ⟨_, _, hrange, ⟨_, _, hl, hmore, rfl⟩, rfl⟩, rfl⟩,
      rfl⟩, rfl⟩ := h
    obtain ⟨vs, ws, hargs, hrest, rfl⟩ := exists_append_of_alike hmore
    simp only [List.forall₂_cons_left_iff] at hrest
    obtain ⟨_, _, hr, ⟨_, _, hcolon, hbody, rfl⟩, rfl⟩ := hrest
    obtain ⟨args', rfl, ha⟩ := args.exists_twin hargs
    obtain ⟨body', rfl, hb⟩ := ih hbody
    have htext := x.text_alike hx (by decide)
    refine ⟨.loop (kw.alike hkw) (x.alike hx) (kwIn.alike hin) (kwRange.alike hrange) (l.alike hl)
      args' (r.alike hr) (colon.alike hcolon) body', rfl, ⟨?_, ?_, fun inside hlawful => ?_⟩⟩
    · simp [TokenOf.alike, htext, ha.tree, hb.tree]
    · simp [ha.nesting, hb.nesting]
    · exact ⟨by rw [ha.tree]; exact hlawful.1, hb.lawful _ hlawful.2⟩
  | conditional kw c colon body arms ihb iha =>
    obtain ⟨_, _, hkw, hmore, rfl⟩ := List.forall₂_cons_left_iff.mp h
    obtain ⟨vs, ws, hcond, hrest, rfl⟩ := exists_append_of_alike hmore
    obtain ⟨_, _, hcolon, hblocks, rfl⟩ := List.forall₂_cons_left_iff.mp hrest
    obtain ⟨_, _, hbody, harms, rfl⟩ := exists_append_of_alike hblocks
    obtain ⟨c', rfl, hc⟩ := c.exists_twin hcond
    obtain ⟨body', rfl, hb⟩ := ihb hbody
    obtain ⟨arms', rfl, ha⟩ := iha harms
    exact ⟨.conditional (kw.alike hkw) c' (colon.alike hcolon) body' arms', rfl,
      ⟨by simp [hc.tree, hb.tree, ha.tree], by simp [hc.nesting, hb.nesting, ha.nesting],
        fun inside => And.imp (hb.lawful _) (ha.lawful _)⟩⟩
  | armsElif kw c colon body arms ihb iha =>
    obtain ⟨_, _, hkw, hmore, rfl⟩ := List.forall₂_cons_left_iff.mp h
    obtain ⟨vs, ws, hcond, hrest, rfl⟩ := exists_append_of_alike hmore
    obtain ⟨_, _, hcolon, hblocks, rfl⟩ := List.forall₂_cons_left_iff.mp hrest
    obtain ⟨_, _, hbody, harms, rfl⟩ := exists_append_of_alike hblocks
    obtain ⟨c', rfl, hc⟩ := c.exists_twin hcond
    obtain ⟨body', rfl, hb⟩ := ihb hbody
    obtain ⟨arms', rfl, ha⟩ := iha harms
    exact ⟨.armsElif (kw.alike hkw) c' (colon.alike hcolon) body' arms', rfl,
      ⟨by simp [hc.tree, hb.tree, ha.tree], by simp [hc.nesting, hb.nesting, ha.nesting],
        fun inside => And.imp (hb.lawful _) (ha.lawful _)⟩⟩
  | armsElse kw colon body ih =>
    simp only [yield, List.forall₂_cons_left_iff] at h
    obtain ⟨_, _, hkw, ⟨_, _, hcolon, hbody, rfl⟩, rfl⟩ := h
    obtain ⟨body', rfl, hb⟩ := ih hbody
    exact ⟨.armsElse (kw.alike hkw) (colon.alike hcolon) body', rfl,
      ⟨by simp [hb.tree], hb.nesting, hb.lawful⟩⟩
  | definition kw f l ps r colon body ihp ihb =>
    simp only [yield, List.forall₂_cons_left_iff] at h
    obtain ⟨_, _, hkw, ⟨_, _, hf, ⟨_, _, hl, hmore, rfl⟩, rfl⟩, rfl⟩ := h
    obtain ⟨vs, ws, hps, hrest, rfl⟩ := exists_append_of_alike hmore
    simp only [List.forall₂_cons_left_iff] at hrest
    obtain ⟨_, _, hr, ⟨_, _, hcolon, hbody, rfl⟩, rfl⟩ := hrest
    obtain ⟨ps', rfl, hp⟩ := ihp hps
    obtain ⟨body', rfl, hb⟩ := ihb hbody
    have htext := f.text_alike hf (by decide)
    refine ⟨.definition (kw.alike hkw) (f.alike hf) (l.alike hl) ps' (r.alike hr)
      (colon.alike hcolon) body', rfl, ⟨?_, ?_, fun inside hlawful => ?_⟩⟩
    · simp [TokenOf.alike, htext, hp.tree, hb.tree]
    · simp [hb.nesting]
    · exact ⟨by rw [hp.tree]; exact hlawful.1, hb.lawful _ hlawful.2⟩
  | print kw es =>
    obtain ⟨_, _, hkw, hes, rfl⟩ := List.forall₂_cons_left_iff.mp h
    obtain ⟨es', rfl, he⟩ := es.exists_twin hes
    exact ⟨.print (kw.alike hkw) es', rfl, ⟨by simp [he.tree], he.nesting, fun _ => id⟩⟩
  | assign x eq e =>
    simp only [yield, List.forall₂_cons_left_iff] at h
    obtain ⟨_, _, hx, ⟨_, _, heq, hvalue, rfl⟩, rfl⟩ := h
    obtain ⟨e', rfl, he⟩ := e.exists_twin hvalue
    have htext := x.text_alike hx (by decide)
    exact ⟨.assign (x.alike hx) (eq.alike heq) e', rfl,
      ⟨by simp [TokenOf.alike, htext, he.tree], he.nesting, fun _ => id⟩⟩
  | ret s ih =>
    obtain ⟨s', rfl, hs⟩ := ih h
    exact ⟨.ret s', rfl, ⟨hs.tree, hs.nesting, hs.lawful⟩⟩
  | returnStmt kw e =>
    obtain ⟨_, _, hkw, hvalue, rfl⟩ := List.forall₂_cons_left_iff.mp h
    obtain ⟨e', rfl, he⟩ := e.exists_twin hvalue
    exact ⟨.returnStmt (kw.alike hkw) e', rfl, ⟨by simp [he.tree], he.nesting, fun _ => id⟩⟩
  | suite nl indent first rest dedent ihf ihr =>
    simp only [yield, List.forall₂_cons_left_iff] at h
    obtain ⟨_, _, hnl, ⟨_, _, hindent, hmore, rfl⟩, rfl⟩ := h
    obtain ⟨_, _, hfirst, hothers, rfl⟩ := exists_append_of_alike hmore
    obtain ⟨_, _, hrest, hend, rfl⟩ := exists_append_of_alike hothers
    simp only [List.forall₂_cons_left_iff, List.forall₂_nil_left_iff] at hend
    obtain ⟨_, _, hdedent, rfl, rfl⟩ := hend
    obtain ⟨first', rfl, hf⟩ := ihf hfirst
    obtain ⟨rest', rfl, hr⟩ := ihr hrest
    exact ⟨.suite (nl.alike hnl) (indent.alike hindent) first' rest' (dedent.alike hdedent), rfl,
      ⟨by simp [hf.tree, hr.tree], by simp [hf.nesting, hr.nesting],
        fun inside => And.imp (hf.lawful _) (hr.lawful _)⟩⟩
  | funcSuite nl indent body dedent ih =>
    simp only [yield, List.forall₂_cons_left_iff] at h
    obtain ⟨_, _, hnl, ⟨_, _, hindent, hmore, rfl⟩, rfl⟩ := h
    obtain ⟨_, _, hbody, hend, rfl⟩ := exists_append_of_alike hmore
    simp only [List.forall₂_cons_left_iff, List.forall₂_nil_left_iff] at hend
    obtain ⟨_, _, hdedent, rfl, rfl⟩ := hend
    obtain ⟨body', rfl, hb⟩ := ih hbody
    exact ⟨.funcSuite (nl.alike hnl) (indent.alike hindent) body' (dedent.alike hdedent), rfl,
      ⟨hb.tree, hb.nesting, hb.lawful⟩⟩
  | paramsSome x rest ih =>
    obtain ⟨_, _, hx, hrest, rfl⟩ := List.forall₂_cons_left_iff.mp h
    obtain ⟨rest', rfl, hr⟩ := ih hrest
    have htext := x.text_alike hx (by decide)
    exact ⟨.paramsSome (x.alike hx) rest', rfl,
      ⟨by simp [TokenOf.alike, htext, hr.tree], rfl, fun _ => id⟩⟩
  | paramCons comma x rest ih =>
    simp only [yield, List.forall₂_cons_left_iff] at h
    obtain ⟨_, _, hcomma, ⟨_, _, hx, hrest, rfl⟩, rfl⟩ := h
    obtain ⟨rest', rfl, hr⟩ := ih hrest
    have htext := x.text_alike hx (by decide)
    exact ⟨.paramCons (comma.alike hcomma) (x.alike hx) rest', rfl,
      ⟨by simp [TokenOf.alike, htext, hr.tree], rfl, fun _ => id⟩⟩

/-- The statements of two programs. -/
def StmtDerivation.append :
    StmtDerivation false .file → StmtDerivation false .file → StmtDerivation false .file
  | fileNil, d' => d'
  | fileNewline nl rest, d' => .fileNewline nl (rest.append d')
  | fileStatement s rest, d' => .fileStatement s (rest.append d')

section Append

variable (d d' : StmtDerivation false .file)

@[simp] theorem StmtDerivation.yield_append : (d.append d').yield = d.yield ++ d'.yield := by
  fun_induction StmtDerivation.append d d' with
  | case1 => rfl
  | case2 _ _ _ ih => simp [ih]
  | case3 _ _ _ ih => simp [ih]

@[simp] theorem StmtDerivation.tree_append : (d.append d').tree = d.tree ++ d'.tree := by
  fun_induction StmtDerivation.append d d' with
  | case1 => rfl
  | case2 _ _ _ ih => simpa using ih
  | case3 _ _ _ ih => simp [ih]

@[simp] theorem StmtDerivation.nesting_append :
    (d.append d').nesting = max d.nesting d'.nesting := by
  fun_induction StmtDerivation.append d d' with
  | case1 => simp
  | case2 _ _ _ ih => simpa using ih
  | case3 _ _ _ ih => simp [ih, Nat.max_assoc]

@[simp] theorem StmtDerivation.lawful_append (inside : Bool) :
    (d.append d').Lawful inside ↔ d.Lawful inside ∧ d'.Lawful inside := by
  fun_induction StmtDerivation.append d d' with
  | case1 => simp
  | case2 _ _ _ ih => simpa using ih
  | case3 _ _ _ ih => simp [ih, and_assoc]

end Append

/-- A program begins with a line end or a statement. -/
theorem StmtDerivation.file_head {d : StmtDerivation false .file} {t : Token} {ts : List Token}
    (h : d.yield = t :: ts) :
    (t.kind = .newline ∧ ∃ rest : StmtDerivation false .file, rest.yield = ts ∧
      d.tree = rest.tree ∧ d.nesting = rest.nesting ∧
      ∀ inside, d.Lawful inside → rest.Lawful inside) ∨
      t.kind ∈ statementKinds := by
  cases d with
  | fileNil => cases h
  | fileNewline nl rest =>
    obtain ⟨rfl, rfl⟩ := List.cons.inj h
    exact .inl ⟨nl.2, rest, rfl, rfl, rfl, fun _ => id⟩
  | fileStatement s rest =>
    obtain ⟨u, us, hy, hu⟩ := s.statement_head
    rw [yield, hy, List.cons_append, List.cons.injEq] at h
    exact .inr (h.1 ▸ hu)

/-- No block stands after a line end between statements. -/
theorem StmtDerivation.not_indent {d : StmtDerivation false .file} {t u : Token} {ws : List Token}
    (h : d.yield = t :: u :: ws) (ht : t.kind = .newline) : u.kind ≠ .indent := by
  rcases StmtDerivation.file_head h with ⟨-, rest, hrest, -⟩ | hk
  · rcases StmtDerivation.file_head hrest with ⟨hu, -⟩ | hu
    · rw [hu]
      exact nofun
    · rintro hindent
      rw [hindent] at hu
      exact absurd hu (by decide)
  · rw [ht] at hk
    exact absurd hk (by decide)

end Grammar

open Grammar
open TinyScript.Parser (parseText derivation_of_program program_of_derivation)

/-- A text is a program if its tokens have a lawful derivation that is not nested too deep. -/
theorem parseProgram_eq_ok_iff {room : Nat} {source : String} {log : Log} {b : Block} :
    (parseProgram room source log).1 = .ok b ↔
      ∃ (d : StmtDerivation false .file) (e : Token), tokenize source = .ok (d.yield ++ [e]) ∧
        e.kind = .eof ∧ d.Lawful false ∧ d.nesting ≤ room ∧ d.tree = b := by
  unfold parseProgram parseText
  constructor
  · intro h
    cases htokens : tokenize source with
    | error e => simp [htokens] at h
    | ok ts =>
      obtain ⟨us, e, rfl, he, hus⟩ := faithful_of_tokenize htokens
      simp only [htokens] at h
      split at h
      · next a s hok =>
        cases h
        obtain ⟨d, rfl, hlawful, htree⟩ := derivation_of_program he (fun t ht => (hus t ht).2) hok
        rcases program_of_derivation d he hlawful log room with ⟨hfits, -⟩ | ⟨-, s', herror⟩
        · exact ⟨d, e, rfl, he, hlawful, hfits, htree⟩
        · rw [herror] at hok
          cases hok
      · cases h
  · rintro ⟨d, e, htokens, he, hlawful, hfits, rfl⟩
    rcases program_of_derivation d he hlawful log room with ⟨-, s, hok⟩ | ⟨hdeep, -⟩
    · simp [htokens, hok]
    · exact absurd hfits (Nat.not_le_of_gt hdeep)

/-- The program of two texts, the first of which is ended and the second of which begins without a
margin, has the statements of the one and then those of the other. -/
theorem parseProgram_append {room : Nat} {a b : String} {A B : Block} {log log' : Log}
    (ha : (parseProgram room a log).1 = .ok A) (hb : (parseProgram room b log').1 = .ok B)
    (hend : a = "" ∨ a.toList.getLast? = some '\n') (hfree : Source.dangling a.toList = false)
    (hhead : ∀ c ∈ b.toList.head?, Terminal.isMargin c = false) {room' : Nat}
    (hroom : room ≤ room') (log'' : Log) :
    (parseProgram room' (a ++ b) log'').1 = .ok (A ++ B) := by
  rw [parseProgram_eq_ok_iff] at ha hb ⊢
  obtain ⟨d, e, htokens, he, hlawful, hfits, rfl⟩ := ha
  obtain ⟨d', e', htokens', he', hlawful', hfits', rfl⟩ := hb
  rcases hend with rfl | hlast
  · -- The empty text has one derivation, that of a line end.
    have htree : d.tree = [] := by
      let line : StmtDerivation false .file := .fileNewline ⟨⟨.newline, "\n", ⟨1, 1⟩⟩, rfl⟩ .fileNil
      have hyield : d.yield ++ [e] = line.yield ++ [.eofAt ⟨1, 1⟩] :=
        Except.ok.inj (htokens.symm.trans tokenize_empty)
      rw [(d.unique line hyield he rfl).1]
      rfl
    rw [String.empty_append, htree]
    exact ⟨d', e', htokens', he', hlawful', hfits'.trans hroom, rfl⟩
  · obtain ⟨us, vs, g, hall, hg, hus, hvs⟩ := tokenize_append htokens htokens' hlast hfree hhead
      fun t u ws => StmtDerivation.not_indent
    obtain ⟨d₁, rfl, ht₁, hn₁, hl₁⟩ := d.exists_twin hus
    -- What is left of the second text when its first line end is lost in the first text.
    have hsecond : ∃ d₂ : StmtDerivation false .file, d₂.yield = vs ∧ d₂.tree = d'.tree ∧
        d₂.nesting = d'.nesting ∧ d₂.Lawful false := by
      rcases hvs with hvs | ⟨t, ws, hyield, ht, hws⟩
      · obtain ⟨d₂, hy, ht₂, hn₂, hl₂⟩ := d'.exists_twin hvs
        exact ⟨d₂, hy, ht₂, hn₂, hl₂ _ hlawful'⟩
      · rcases StmtDerivation.file_head hyield with ⟨-, rest, rfl, htree, hnesting, hlaw⟩ | hk
        · obtain ⟨d₂, hy, ht₂, hn₂, hl₂⟩ := rest.exists_twin hws
          exact ⟨d₂, hy, ht₂.trans htree.symm, hn₂.trans hnesting.symm, hl₂ _ (hlaw _ hlawful')⟩
        · rw [ht] at hk
          exact absurd hk (by decide)
    obtain ⟨d₂, rfl, ht₂, hn₂, hl₂⟩ := hsecond
    refine ⟨d₁.append d₂, g, ?_, hg, ?_, ?_, ?_⟩
    · rw [hall, StmtDerivation.yield_append]
    · exact (StmtDerivation.lawful_append _ _ _).mpr ⟨hl₁ _ hlawful, hl₂⟩
    · rw [StmtDerivation.nesting_append, hn₁, hn₂]
      exact Nat.max_le.mpr ⟨hfits.trans hroom, hfits'.trans hroom⟩
    · rw [StmtDerivation.tree_append, ht₁, ht₂]

end TinyScript
