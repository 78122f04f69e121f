import TinyScript.Proofs.Json.Reader
import TinyScript.Proofs.Number.Shortest
import TinyScript.Proofs.Text.Quoted

/-!
# Numbers in JSON

The text of an integer is a number without fraction and exponent, and the text of a float that is a
number has one of the two, so neither is taken for the other. Reading the text of an integer gives
the integer (`isWord_int`). Reading the text of a float in an export gives the float, if its plain
text is read as the float (`isWord_float`): the two texts differ in the names of the special values
only.
-/

namespace TinyScript.Json

open Number
open Text (forall_mem_of_all)

/-- A text of digits that may be the whole part of a number. -/
structure IsWhole (ds : List Char) : Prop where
  ne_nil : ds ≠ []
  digit : ∀ c ∈ ds, c.isDigit = true
  head : ds.head? = some '0' → ds = ['0']

/-- A text that may follow the whole part of a number. -/
structure IsRest (cs : List Char) : Prop where
  head : ∀ c ∈ cs.head?, c.isDigit = false
  fraction : isFraction cs = true

theorem isRest_nil : IsRest [] := ⟨nofun, rfl⟩

theorem ne_minus_of_isDigit {c : Char} (h : c.isDigit = true) : c ≠ '-' := by
  rintro rfl
  cases h

theorem unsigned_append {sign whole : List Char} (hsign : sign = [] ∨ sign = ['-'])
    (hwhole : IsWhole whole) (rest : List Char) :
    unsigned (sign ++ (whole ++ rest)) = whole ++ rest := by
  rcases hsign with rfl | rfl
  · obtain ⟨d, ds, rfl⟩ := List.exists_cons_of_ne_nil hwhole.ne_nil
    have hd := ne_minus_of_isDigit (hwhole.digit d List.mem_cons_self)
    simp [unsigned, hd]
  · rfl

/-- A whole part, perhaps behind a minus sign, and what may follow it. -/
theorem number?_of_parts {sign whole rest : List Char} (hsign : sign = [] ∨ sign = ['-'])
    (hwhole : IsWhole whole) (hrest : IsRest rest) :
    number? (sign ++ (whole ++ rest)) =
      if rest = [] then (readInt (String.ofList (sign ++ (whole ++ rest)))).toOption.map int
      else (readFloat (String.ofList (sign ++ (whole ++ rest)))).toOption.map float := by
  have hunsigned := unsigned_append hsign hwhole rest
  obtain ⟨htake, hdrop⟩ := span_append hwhole.digit hrest.head
  have hbad : ¬(whole = [] ∨ whole.head? = some '0' ∧ whole ≠ ['0']) := by
    rintro (hnil | ⟨hzero, hmore⟩)
    · exact hwhole.ne_nil hnil
    · exact hmore (hwhole.head hzero)
  unfold number?
  simp only [hunsigned, htake, hdrop, if_neg hbad, hrest.fraction, if_true]

theorem isDigit_toDigits (n : Nat) : ∀ c ∈ Nat.toDigits 10 n, c.isDigit = true :=
  forall_mem_toDigits (by decide) n

theorem isDigit_replicate (n : Nat) : ∀ c ∈ List.replicate n '0', c.isDigit = true := by
  intro c hc
  rw [List.eq_of_mem_replicate hc]
  rfl

theorem isWhole_toDigits (n : Nat) : IsWhole (Nat.toDigits 10 n) where
  ne_nil := List.length_pos_iff.mp Nat.length_toDigits_pos
  digit := isDigit_toDigits n
  head h := by
    rcases Nat.eq_zero_or_pos n with rfl | hpos
    · rfl
    · exact absurd h (head_toDigits hpos)

/-- A point and digits are a fraction. -/
theorem isRest_point {ds : List Char} (hne : ds ≠ []) (hdigit : ∀ c ∈ ds, c.isDigit = true)
    (more : List Char) (hmore : isExponent more = true)
    (hhead : ∀ c ∈ more.head?, c.isDigit = false) : IsRest ('.' :: (ds ++ more)) where
  head c hc := by
    cases hc
    rfl
  fraction := by
    obtain ⟨htake, hdrop⟩ := span_append hdigit hhead
    simp [isFraction, htake, hdrop, hne, hmore]

theorem isExponent_digits {ds : List Char} (hne : ds ≠ []) (hdigit : ∀ c ∈ ds, c.isDigit = true)
    {sign : Char} (hsign : sign = '-' ∨ sign = '+') : isExponent ('e' :: sign :: ds) = true := by
  have hall : ds.all Char.isDigit = true := List.all_eq_true.mpr hdigit
  rcases hsign with rfl | rfl
  · simp [isExponent, splitSign, hne, hall]
  · simp [isExponent, splitSign, hne, hall]

/-- A number with a fraction or an exponent. -/
def IsDecimal (cs : List Char) : Prop :=
  ∃ whole rest, cs = whole ++ rest ∧ IsWhole whole ∧ IsRest rest ∧ rest ≠ []

theorem isDecimal_point {whole ds : List Char} (hwhole : IsWhole whole) (hne : ds ≠ [])
    (hdigit : ∀ c ∈ ds, c.isDigit = true) : IsDecimal (whole ++ '.' :: ds) := by
  have hrest := isRest_point hne hdigit [] rfl nofun
  rw [List.append_nil] at hrest
  exact ⟨whole, _, rfl, hwhole, hrest, nofun⟩

/-- Digits with a point among them. Zeros may be put behind the digits, but not behind a zero. -/
theorem isDecimal_positional {ds : List Char} (hds : IsWhole ds) {point : Int}
    (hzero : ds = ['0'] → point = 1) : IsDecimal (positional ds point) := by
  unfold positional
  by_cases hpoint : point ≤ 0
  · -- A zero before the point, and the digits behind it.
    rw [if_pos hpoint]
    have hdigit : ∀ c ∈ List.replicate (-point).toNat '0' ++ ds, c.isDigit = true := by
      intro c hc
      rcases List.mem_append.mp hc with hc | hc
      · exact isDigit_replicate _ c hc
      · exact hds.digit c hc
    exact isDecimal_point (isWhole_toDigits 0) (by simp [hds.ne_nil]) hdigit
  · rw [if_neg hpoint]
    dsimp only
    by_cases hlong : ds.length ≤ point.toNat
    · -- All digits before the point, perhaps with zeros behind them.
      rw [if_pos hlong]
      refine isDecimal_point ⟨?_, ?_, ?_⟩ (List.cons_ne_nil '0' []) (isDigit_replicate 1)
      · simp [hds.ne_nil]
      · intro c hc
        rcases List.mem_append.mp hc with hc | hc
        · exact hds.digit c hc
        · exact isDigit_replicate _ c hc
      · intro hhead
        rw [List.head?_append_of_ne_nil _ hds.ne_nil] at hhead
        have hone := hds.head hhead
        simp [hone, hzero hone]
    · -- Digits on both sides of the point.
      rw [if_neg hlong]
      have hdrop : ds.drop point.toNat ≠ [] := by
        rw [Ne, List.drop_eq_nil_iff]
        exact hlong
      refine isDecimal_point ⟨?_, ?_, ?_⟩ hdrop fun c hc => hds.digit c (List.mem_of_mem_drop hc)
      · rw [Ne, List.take_eq_nil_iff, not_or]
        exact ⟨by omega, hds.ne_nil⟩
      · exact fun c hc => hds.digit c (List.mem_of_mem_take hc)
      · intro hhead
        have hpos : point.toNat ≠ 0 := by omega
        rw [List.head?_take, if_neg hpos] at hhead
        have hone := hds.head hhead
        rw [hone, hzero hone] at hlong
        exact absurd (Nat.le_refl _) hlong

theorem isDecimal_exponential {ds : List Char} (hds : IsWhole ds) (width : Nat) (power : Int) :
    IsDecimal (exponential width ds power) := by
  obtain ⟨d, ds', rfl⟩ := List.exists_cons_of_ne_nil hds.ne_nil
  have hwhole : IsWhole [d] := ⟨nofun, by simpa using hds.digit d List.mem_cons_self, by simp⟩
  have hpower : ∀ c ∈ List.replicate (width - (Nat.toDigits 10 power.natAbs).length) '0' ++
      Nat.toDigits 10 power.natAbs, c.isDigit = true := by
    intro c hc
    rcases List.mem_append.mp hc with hc | hc
    · exact isDigit_replicate _ c hc
    · exact isDigit_toDigits _ c hc
  have hne : List.replicate (width - (Nat.toDigits 10 power.natAbs).length) '0' ++
      Nat.toDigits 10 power.natAbs ≠ [] := by simp [(isWhole_toDigits power.natAbs).ne_nil]
  have hsign : (if power < 0 then '-' else '+') = '-' ∨ (if power < 0 then '-' else '+') = '+' := by
    split <;> simp
  have hexponent := isExponent_digits hne hpower hsign
  unfold exponential
  cases ds' with
  | nil =>
    refine ⟨[d], _, rfl, hwhole, ⟨?_, hexponent⟩, nofun⟩
    intro c hc
    cases hc
    rfl
  | cons d' ds' =>
    have hfraction : ∀ c ∈ d' :: ds', c.isDigit = true :=
      fun c hc => hds.digit c (List.mem_cons_of_mem d hc)
    have hne' := List.cons_ne_nil d' ds'
    refine ⟨[d], _, rfl, hwhole, isRest_point hne' hfraction _ hexponent ?_, nofun⟩
    intro c hc
    cases hc
    rfl

/-- The text of a float that is a number has a fraction or an exponent. -/
theorem isDecimal_decimalText {d : Decimal} (h : 0 < d.digits ∨ d = ⟨0, 0⟩) (format : FloatFormat) :
    IsDecimal (format.decimalText d) := by
  have hds := isWhole_toDigits d.digits
  unfold FloatFormat.decimalText
  dsimp only
  split
  · refine isDecimal_positional hds fun hzero => ?_
    rcases h with hpos | rfl
    · exact absurd (congrArg List.head? hzero) (head_toDigits hpos)
    · rfl
  · exact isDecimal_exponential hds _ _

/-- The text of a finite float, without its sign, has a fraction or an exponent. -/
theorem isDecimal_finite (format : FloatFormat) (mantissa : Nat) (exponent : Int) :
    IsDecimal (if mantissa = 0 then ['0', '.', '0']
      else format.decimalText (shortest mantissa exponent)) := by
  split
  · exact isDecimal_point (isWhole_toDigits 0) (List.cons_ne_nil '0' []) (isDigit_replicate 1)
  · next hne =>
    exact isDecimal_decimalText (shortest_digits (Nat.pos_of_ne_zero hne) exponent) format

/-- A word that stands for a value, and that ends where a mark or white space follows. -/
structure IsWord (w : List Char) (j : Json) : Prop where
  ne_nil : w ≠ []
  inner : ∀ c ∈ w, isInner c = true
  value : word? w = some j

theorem isInner_of_isDigit {c : Char} (h : c.isDigit = true) : isInner c = true := by
  simp [isInner, Char.isAlphanum, h]

theorem isInner_of_isExponent {cs : List Char} (h : isExponent cs = true) :
    ∀ c ∈ cs, isInner c = true := by
  cases cs with
  | nil => nofun
  | cons c cs =>
    simp only [isExponent, Bool.and_eq_true, Bool.or_eq_true, decide_eq_true_eq] at h
    obtain ⟨⟨hletter, -⟩, hall⟩ := h
    have hdigit := List.all_eq_true.mp hall
    intro x hx
    rcases List.mem_cons.mp hx with rfl | hx
    · rcases hletter with rfl | rfl <;> rfl
    · unfold splitSign at hdigit
      split at hdigit
      · rcases List.mem_cons.mp hx with rfl | hx
        · rfl
        · exact isInner_of_isDigit (hdigit x hx)
      · rcases List.mem_cons.mp hx with rfl | hx
        · rfl
        · exact isInner_of_isDigit (hdigit x hx)
      · exact isInner_of_isDigit (hdigit x hx)

theorem isInner_of_isFraction {cs : List Char} (h : isFraction cs = true) :
    ∀ c ∈ cs, isInner c = true := by
  unfold isFraction at h
  split at h
  · next cs =>
    obtain ⟨-, hexponent⟩ := Bool.and_eq_true_iff.mp h
    intro c hc
    rcases List.mem_cons.mp hc with rfl | hc
    · rfl
    · rw [← List.takeWhile_append_dropWhile (p := Char.isDigit) (l := cs)] at hc
      rcases List.mem_append.mp hc with hc | hc
      · exact isInner_of_isDigit (List.all_eq_true.mp List.all_takeWhile c hc)
      · exact isInner_of_isExponent hexponent c hc
  · exact isInner_of_isExponent h

theorem isInner_of_parts {whole rest : List Char} (hwhole : IsWhole whole) (hrest : IsRest rest) :
    ∀ c ∈ whole ++ rest, isInner c = true := by
  intro c hc
  obtain hc | hc := List.mem_append.mp hc
  · exact isInner_of_isDigit (hwhole.digit c hc)
  · exact isInner_of_isFraction hrest.fraction c hc

/-- The text of a float holds only characters of numbers and names. -/
theorem isInner_floatText (x : Float) : ∀ c ∈ (floatText x).toList, isInner c = true := by
  unfold floatText FloatFormat.text
  cases Parts.ofFloat x with
  | nan => exact forall_mem_of_all (by decide)
  | infinity negative =>
    cases negative with
    | true => exact forall_mem_of_all (by decide)
    | false => exact forall_mem_of_all (by decide)
  | finite negative mantissa exponent =>
    obtain ⟨whole, rest, hds, hwhole, hrest, -⟩ := isDecimal_finite plain mantissa exponent
    have hinner := isInner_of_parts hwhole hrest
    rw [← hds] at hinner
    rw [String.toList_ofList]
    cases negative with
    | true => exact List.forall_mem_cons.mpr ⟨rfl, hinner⟩
    | false => exact hinner

/-- No name begins like a number. -/
theorem findIn_names_eq_none {w : List Char} {d : Char} (hd : d.isDigit = true)
    (hw : (unsigned w).head? = some d) : Table.findIn (String.ofList w) names = none := by
  have hall : (names.map Prod.fst).all
      (fun key => (unsigned key.toList).head?.all fun c => !c.isDigit) = true := by decide
  have hne : ∀ key ∈ names.map Prod.fst, key ≠ String.ofList w := by
    rintro key hkey rfl
    have hfalse := List.all_eq_true.mp hall _ hkey
    rw [String.toList_ofList, hw, Option.all_some, hd] at hfalse
    cases hfalse
  simp only [names, List.map_cons, List.map_nil, List.forall_mem_cons] at hne
  obtain ⟨h₁, h₂, h₃, h₄, h₅, h₆, -⟩ := hne
  simp only [names, Table.findIn, h₁, h₂, h₃, h₄, h₅, h₆, if_false]

/-- A number is a word. -/
theorem isWord_of_parts {sign whole rest : List Char} (hsign : sign = [] ∨ sign = ['-'])
    (hwhole : IsWhole whole) (hrest : IsRest rest) {j : Json}
    (hj : number? (sign ++ (whole ++ rest)) = some j) : IsWord (sign ++ (whole ++ rest)) j where
  ne_nil := by simp [hwhole.ne_nil]
  inner c hc := by
    rcases List.mem_append.mp hc with hc | hc
    · rcases hsign with rfl | rfl
      · cases hc
      · rw [List.mem_singleton.mp hc]
        rfl
    · exact isInner_of_parts hwhole hrest c hc
  value := by
    have hunsigned := unsigned_append hsign hwhole rest
    obtain ⟨d, ds, rfl⟩ := List.exists_cons_of_ne_nil hwhole.ne_nil
    have hd := hwhole.digit d List.mem_cons_self
    rw [word?, findIn_names_eq_none hd (congrArg List.head? hunsigned), hj]
    rfl

theorem isWord_null : IsWord "null".toList null := ⟨nofun, forall_mem_of_all (by decide), rfl⟩

theorem isWord_bool (b : Bool) : IsWord (if b then "true" else "false").toList (bool b) := by
  cases b with
  | true => exact ⟨nofun, forall_mem_of_all (by decide), rfl⟩
  | false => exact ⟨nofun, forall_mem_of_all (by decide), rfl⟩

/-- The text of an integer is read as the integer. -/
theorem isWord_int {n : Int} (h : fits n = true) : IsWord (intText n).toList (int n) := by
  have hsign : (if n < 0 then ['-'] else []) = [] ∨ (if n < 0 then ['-'] else []) = ['-'] := by
    split <;> simp
  have hwhole := isWhole_toDigits n.natAbs
  have hshape : (intText n).toList =
      (if n < 0 then ['-'] else []) ++ (Nat.toDigits 10 n.natAbs ++ []) := by
    rw [intText_eq, String.toList_ofList, List.append_nil]
  have hnumber := number?_of_parts hsign hwhole isRest_nil
  rw [← hshape, if_pos rfl, String.ofList_toList, readInt_intText h] at hnumber
  rw [hshape] at hnumber ⊢
  exact isWord_of_parts hsign hwhole isRest_nil hnumber

/-- A decimal, perhaps behind a minus sign, is read as a float. -/
theorem isWord_decimal {sign ds : List Char} (hsign : sign = [] ∨ sign = ['-']) (hds : IsDecimal ds)
    {x : Float} (hx : readFloat (String.ofList (sign ++ ds)) = .ok x) :
    IsWord (sign ++ ds) (float x) := by
  obtain ⟨whole, rest, rfl, hwhole, hrest, hne⟩ := hds
  refine isWord_of_parts hsign hwhole hrest ?_
  rw [number?_of_parts hsign hwhole hrest, if_neg hne, hx]
  rfl

/-- The text of a float is read as the float in an export, if it is read so in plain output. -/
theorem isWord_float {x : Float} (hx : readFloat (floatText x) = .ok x) :
    IsWord (exported.text x).toList (float x) := by
  unfold floatText at hx
  unfold FloatFormat.text at hx ⊢
  generalize Parts.ofFloat x = parts at hx ⊢
  cases parts with
  | nan =>
    have hx : Except.ok (0.0 / 0.0) = Except.ok x := hx
    cases hx
    exact ⟨nofun, forall_mem_of_all (by decide), rfl⟩
  | infinity negative =>
    cases negative with
    | true =>
      have hx : Except.ok (-(1.0 / 0.0)) = Except.ok x := hx
      cases hx
      exact ⟨nofun, forall_mem_of_all (by decide), rfl⟩
    | false =>
      have hx : Except.ok (1.0 / 0.0) = Except.ok x := hx
      cases hx
      exact ⟨nofun, forall_mem_of_all (by decide), rfl⟩
  | finite negative mantissa exponent =>
    dsimp only at hx ⊢
    have hds := isDecimal_finite exported mantissa exponent
    rw [String.toList_ofList]
    cases negative with
    | true => exact isWord_decimal (.inr rfl) hds hx
    | false => exact isWord_decimal (.inl rfl) hds hx

end TinyScript.Json
