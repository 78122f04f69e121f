import Mathlib.Algebra.Group.Nat.Defs
import TinyScript.Number.Read

/-!
# Numerals read back

The text of an integer is a row of digits, behind a minus sign if the integer is negative, and
reading it gives the integer (`readInt_intText`), as long as the integer keeps to the limit on
digits. That limit is the only thing that can keep a row of digits from being read
(`readInt_of_digits`), and nothing keeps digits around a point from it (`exists_readFloat`).
-/

namespace TinyScript.Number

open Text (isDigit digitValue? trim isSpace)

theorem digitValue?_lt {c : Char} {n : Nat} (h : digitValue? c = some n) : n < 10 := by
  obtain ⟨first, -, hfirst⟩ := List.exists_of_findSome?_eq_some h
  split at hfirst
  · cases hfirst
    omega
  · cases hfirst

/-- Digits read onto a number that is already there. -/
theorem foldl_digits_lt (ds : List Char) (acc : Nat) :
    ds.foldl (fun n d => 10 * n + (digitValue? d).getD 0) acc < (acc + 1) * 10 ^ ds.length := by
  induction ds generalizing acc with
  | nil => simp
  | cons d ds ih =>
    have hd : (digitValue? d).getD 0 < 10 := by
      cases hv : digitValue? d with
      | none => decide
      | some v => exact digitValue?_lt hv
    calc _ < (10 * acc + (digitValue? d).getD 0 + 1) * 10 ^ ds.length := ih _
      _ ≤ ((acc + 1) * 10) * 10 ^ ds.length := Nat.mul_le_mul_right _ (by omega)
      _ = (acc + 1) * 10 ^ (d :: ds).length := by
        rw [Nat.mul_assoc, List.length_cons, Nat.pow_succ, Nat.mul_comm 10]

theorem digitsValue_lt (ds : List Char) : digitsValue ds < 10 ^ ds.length := by
  have h := foldl_digits_lt ds 0
  rwa [Nat.zero_add, Nat.one_mul] at h

theorem tenTo_eq (n : Nat) : tenTo n = 10 ^ n := rfl

theorem mem_of_mem_trim {cs : List Char} {c : Char} (h : c ∈ trim cs) : c ∈ cs := by
  have h₁ := (List.dropWhile_suffix isSpace).subset (List.mem_reverse.mp h)
  exact (List.dropWhile_suffix isSpace).subset (List.mem_reverse.mp h₁)

theorem splitSign_eq_self {cs : List Char} (h : ∀ c ∈ cs, c ≠ '-' ∧ c ≠ '+') :
    splitSign cs = (false, cs) := by
  cases cs with
  | nil => rfl
  | cons c cs =>
    obtain ⟨hminus, hplus⟩ := h c List.mem_cons_self
    simp [splitSign, hminus, hplus]

theorem ne_sign_of_isDigit {c : Char} (h : isDigit c = true) : c ≠ '-' ∧ c ≠ '+' := by
  constructor
  · rintro rfl
    exact absurd h (by decide)
  · rintro rfl
    exact absurd h (by decide)

theorem splitSign_digits {cs : List Char} (h : ∀ d ∈ cs, isDigit d = true) :
    splitSign cs = (false, cs) :=
  splitSign_eq_self fun d hd => ne_sign_of_isDigit (h d hd)

/-- A numeral is read as an integer that is not negative and can be written again. -/
theorem readInt_digits {text : String} (h : ∀ d ∈ text.toList, isDigit d = true) {n : Int}
    (hn : readInt text = .ok n) : 0 ≤ n ∧ fits n = true := by
  have hsign := splitSign_digits fun d hd => h d (mem_of_mem_trim hd)
  unfold readInt at hn
  simp only [hsign] at hn
  split at hn
  · cases hn
  split at hn
  · cases hn
  · next hlen =>
    split at hn
    · cases hn
    · cases hn
      refine ⟨Int.natCast_nonneg _, decide_eq_true ?_⟩
      rw [digitBound, tenTo_eq]
      exact Nat.lt_of_lt_of_le (digitsValue_lt _)
        (Nat.pow_le_pow_right (by decide) (Nat.le_of_not_lt hlen))

theorem digitValue?_digitChar {n : Nat} (h : n < 10) : digitValue? n.digitChar = some n := by
  have hall : ∀ n < 10, digitValue? n.digitChar = some n := by decide
  exact hall n h

/-- The value of digits after which one more is written. -/
theorem digitsValue_append_digit (ds : List Char) {n : Nat} (h : n < 10) :
    digitsValue (ds ++ [n.digitChar]) = 10 * digitsValue ds + n := by
  simp [digitsValue, digitValue?_digitChar h]

theorem digitsValue_toDigits (n : Nat) : digitsValue (Nat.toDigits 10 n) = n := by
  induction n using Nat.strongRecOn with
  | ind n ih =>
    rw [Nat.toDigits_eq_if (by decide)]
    split
    · next hlt =>
      have hone := digitsValue_append_digit [] hlt
      rwa [List.nil_append, show digitsValue [] = 0 from rfl, Nat.mul_zero, Nat.zero_add] at hone
    · next hge =>
      rw [digitsValue_append_digit _ (Nat.mod_lt n (by decide)), ih (n / 10) (by omega)]
      exact Nat.div_add_mod n 10

/-- What holds of the ten digits holds of the digits of a number. -/
theorem forall_mem_toDigits {P : Char → Prop} (h : ∀ k < 10, P (Nat.digitChar k)) (n : Nat) :
    ∀ c ∈ Nat.toDigits 10 n, P c := by
  induction n using Nat.strongRecOn with
  | ind n ih =>
    intro c hc
    rw [Nat.toDigits_eq_if (by decide)] at hc
    split at hc
    · next hlt =>
      rw [List.mem_singleton.mp hc]
      exact h n hlt
    · next hge =>
      rcases List.mem_append.mp hc with hc | hc
      · exact ih (n / 10) (by omega) c hc
      · rw [List.mem_singleton.mp hc]
        exact h (n % 10) (Nat.mod_lt n (by decide))

theorem isDigit_of_mem_toDigits (n : Nat) : ∀ c ∈ Nat.toDigits 10 n, isDigit c = true :=
  forall_mem_toDigits (by decide) n

theorem dropWhile_eq_self {p : Char → Bool} {cs : List Char} (h : ∀ c ∈ cs, p c = false) :
    cs.dropWhile p = cs := by
  cases cs with
  | nil => rfl
  | cons c cs => rw [List.dropWhile_cons, h c List.mem_cons_self]; rfl

/-- A run of characters of a class ends where the class ends. -/
theorem span_append {p : Char → Bool} {run rest : List Char} (hrun : ∀ c ∈ run, p c = true)
    (hstop : ∀ c ∈ rest.head?, p c = false) :
    (run ++ rest).takeWhile p = run ∧ (run ++ rest).dropWhile p = rest := by
  rw [List.takeWhile_append_of_pos hrun, List.dropWhile_append_of_pos hrun]
  cases rest with
  | nil => exact ⟨List.append_nil run, rfl⟩
  | cons c rest =>
    have hc := hstop c rfl
    simp [hc]

theorem span_of_forall {p : Char → Bool} {cs : List Char} (h : ∀ c ∈ cs, p c = true) :
    cs.takeWhile p = cs ∧ cs.dropWhile p = [] := by
  have hstop : ∀ c ∈ ([] : List Char).head?, p c = false := by
    intro c hc
    cases hc
  have hspan := span_append h hstop
  rwa [List.append_nil] at hspan

/-- Texts without white space are not trimmed. -/
theorem trim_eq_self {cs : List Char} (h : ∀ c ∈ cs, isSpace c = false) : trim cs = cs := by
  have hreverse : ∀ c ∈ cs.reverse, isSpace c = false := fun c hc => h c (List.mem_reverse.mp hc)
  rw [trim, dropWhile_eq_self h, dropWhile_eq_self hreverse, List.reverse_reverse]

theorem spacedDigits_eq_true {cs : List Char} (h : ∀ c ∈ cs, c ≠ '_') (after : Bool) :
    spacedDigits after cs = true := by
  induction cs generalizing after with
  | nil => rfl
  | cons c cs ih =>
    rw [spacedDigits, if_neg (h c List.mem_cons_self)]
    exact ih (fun d hd => h d (List.mem_cons_of_mem _ hd)) _

/-- No digit of any script is white space. -/
theorem isSpace_of_isDigit {c : Char} (h : isDigit c = true) : isSpace c = false := by
  unfold isDigit at h
  split at h
  · obtain ⟨hlow, hhigh⟩ := Bool.and_eq_true_iff.mp h
    have hlow : 48 ≤ c.toNat := of_decide_eq_true hlow
    have hhigh : c.toNat ≤ 57 := of_decide_eq_true hhigh
    simp only [isSpace, Bool.or_eq_false_iff, Bool.and_eq_false_iff, decide_eq_false_iff_not,
      beq_eq_false_iff_ne]
    omega
  · obtain ⟨n, hn⟩ := Option.isSome_iff_exists.mp h
    obtain ⟨first, hmem, hfirst⟩ := List.exists_of_findSome?_eq_some hn
    split at hfirst
    · next hrange =>
      have hall : ∀ first ∈ Text.digitZeros, ∀ k < 10,
          isSpace (Char.ofNat (first + k)) = false := by
        decide
      have hc := hall first hmem (c.toNat - first) (by omega)
      rwa [Nat.add_sub_cancel' hrange.1, Char.ofNat_toNat] at hc
    · cases hfirst

/-- A row of digits behind a sign is read as its value, unless there are too many of them. -/
theorem readInt_of_splitSign {cs ds : List Char} {negative : Bool}
    (hsign : splitSign (trim cs) = (negative, ds)) (hne : ds ≠ [])
    (hdigit : ∀ d ∈ ds, isDigit d = true) :
    readInt (String.ofList cs) =
      if maxDigits < ds.length then .error (.tooManyDigits ds.length)
      else .ok (if negative then -digitsValue ds else digitsValue ds) := by
  have hplain : ∀ c ∈ ds, c ≠ '_' := by
    rintro c hc rfl
    exact absurd (hdigit _ hc) (by decide)
  have hpart : ∀ c ∈ ds, (isDigit c || decide (c = '_')) = true := by
    intro c hc
    rw [hdigit c hc, Bool.true_or]
  obtain ⟨htake, hdrop⟩ := span_of_forall hpart
  have hfilter : withoutUnderscores ds = ds :=
    List.filter_eq_self.mpr fun c hc => decide_eq_true (hplain c hc)
  simp [readInt, hsign, htake, hdrop, hfilter, hne, spacedDigits_eq_true hplain]

theorem readInt_of_digits {ds : List Char} (hne : ds ≠ []) (hdigit : ∀ d ∈ ds, isDigit d = true) :
    readInt (String.ofList ds) =
      if maxDigits < ds.length then .error (.tooManyDigits ds.length)
      else .ok (digitsValue ds) := by
  have htrim : trim ds = ds := trim_eq_self fun c hc => isSpace_of_isDigit (hdigit c hc)
  have hsign : splitSign (trim ds) = (false, ds) := by rw [htrim, splitSign_digits hdigit]
  exact readInt_of_splitSign hsign hne hdigit

theorem length_toDigits_le {n : Nat} (h : n < digitBound) :
    ¬maxDigits < (Nat.toDigits 10 n).length := by
  rwa [digitBound, tenTo_eq, ← Nat.length_toDigits_le_iff (by decide) (by decide),
    ← Nat.not_lt] at h

/-- The text of an integer: perhaps a minus sign, and digits. -/
theorem intText_eq (n : Int) :
    intText n = String.ofList ((if n < 0 then ['-'] else []) ++ Nat.toDigits 10 n.natAbs) := by
  cases n with
  | ofNat m => rfl
  | negSucc m =>
    rw [intText, Nat.repr, ← String.toList_inj, if_pos (Int.negSucc_lt_zero m)]
    simp

theorem readInt_intText {n : Int} (h : fits n = true) : readInt (intText n) = .ok n := by
  have hlength := length_toDigits_le (of_decide_eq_true h : n.natAbs < digitBound)
  have hne : Nat.toDigits 10 n.natAbs ≠ [] := List.length_pos_iff.mp Nat.length_toDigits_pos
  have hdigit := isDigit_of_mem_toDigits n.natAbs
  rw [intText_eq]
  by_cases hneg : n < 0
  · rw [if_pos hneg]
    have htrim : trim ('-' :: Nat.toDigits 10 n.natAbs) = '-' :: Nat.toDigits 10 n.natAbs := by
      refine trim_eq_self fun c hc => ?_
      rcases List.mem_cons.mp hc with rfl | hc
      · rfl
      · exact isSpace_of_isDigit (hdigit c hc)
    have hsign : splitSign (trim (['-'] ++ Nat.toDigits 10 n.natAbs)) =
        (true, Nat.toDigits 10 n.natAbs) := by rw [List.singleton_append, htrim, splitSign]
    rw [readInt_of_splitSign hsign hne hdigit, if_neg hlength, digitsValue_toDigits, if_pos rfl,
      Int.ofNat_natAbs_of_nonpos (Int.le_of_lt hneg), Int.neg_neg]
  · rw [if_neg hneg, List.nil_append, readInt_of_digits hne hdigit, if_neg hlength,
      digitsValue_toDigits, Int.natAbs_of_nonneg (Int.not_lt.mp hneg)]

/-- Digits around a point, some of them at least, are read as a float. -/
theorem exists_readFloat {whole fraction : List Char} (hwhole : ∀ d ∈ whole, isDigit d = true)
    (hfraction : ∀ d ∈ fraction, isDigit d = true) (hne : ¬(whole = [] ∧ fraction = [])) :
    ∃ x, readFloat (String.ofList (whole ++ '.' :: fraction)) = .ok x := by
  have hchars : ∀ c ∈ whole ++ '.' :: fraction, isDigit c = true ∨ c = '.' := by
    intro c hc
    rcases List.mem_append.mp hc with hc | hc
    · exact .inl (hwhole c hc)
    · rcases List.mem_cons.mp hc with rfl | hc
      · exact .inr rfl
      · exact .inl (hfraction c hc)
  have hplain : ∀ c ∈ whole ++ '.' :: fraction, c ≠ '_' := by
    rintro c hc rfl
    exact absurd (hchars _ hc) (by decide)
  have htrim : trim (whole ++ '.' :: fraction) = whole ++ '.' :: fraction := by
    refine trim_eq_self fun c hc => ?_
    rcases hchars c hc with hdigit | rfl
    · exact isSpace_of_isDigit hdigit
    · rfl
  have hsign : splitSign (whole ++ '.' :: fraction) = (false, whole ++ '.' :: fraction) := by
    refine splitSign_eq_self fun c hc => ?_
    rcases hchars c hc with hdigit | rfl
    · exact ne_sign_of_isDigit hdigit
    · decide
  have hfilter : withoutUnderscores (whole ++ '.' :: fraction) = whole ++ '.' :: fraction :=
    List.filter_eq_self.mpr fun c hc => decide_eq_true (hplain c hc)
  have hpoint : ∀ c ∈ ('.' :: fraction).head?, isDigit c = false := by
    intro c hc
    cases hc
    decide
  obtain ⟨htakeWhole, hdropWhole⟩ := span_append hwhole hpoint
  obtain ⟨htake, hdrop⟩ := span_of_forall hfraction
  have hdecimal : readDecimal (whole ++ '.' :: fraction) =
      some (nearestFloat (digitsValue (whole ++ fraction)) (0 - fraction.length)) := by
    simp [readDecimal, htakeWhole, hdropWhole, htake, hdrop, hne, readPower]
  simp only [readFloat, String.toList_ofList, htrim, hsign, spacedDigits_eq_true hplain, hfilter,
    hdecimal, if_true]
  cases readSpecial (whole ++ '.' :: fraction) with
  | none => exact ⟨_, rfl⟩
  | some x => exact ⟨_, rfl⟩

end TinyScript.Number
