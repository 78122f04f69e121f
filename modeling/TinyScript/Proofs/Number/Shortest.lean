import Mathlib.Data.List.Basic
import TinyScript.Proofs.Number.Numeral

/-!
# The digits of a float

The digits that the text of a float is made of do not begin with a zero (`shortest_digits`). The
search for them starts at a grid on which the float is at least one, and goes on to finer grids; and
zeros are dropped from the end only.
-/

namespace TinyScript.Number

theorem lt_tenTo_digitCount (n : Nat) : n < 10 ^ digitCount n := by
  have hpos : 0 < digitCount n := Nat.length_toDigits_pos
  exact (Nat.length_toDigits_le_iff (by decide) hpos).mp (Nat.le_refl _)

theorem tenTo_digitCount_le {n : Nat} (h : 0 < n) : 10 ^ (digitCount n - 1) ≤ n := by
  by_cases hone : digitCount n ≤ 1
  · have hzero : digitCount n - 1 = 0 := by omega
    rw [hzero]
    exact h
  · apply Nat.le_of_not_lt
    intro hlt
    have hle := (Nat.length_toDigits_le_iff (b := 10) (by decide) (by omega)).mpr hlt
    have : digitCount n ≤ digitCount n - 1 := hle
    omega

/-- The head of a numeral is no zero. -/
theorem head_toDigits {n : Nat} (h : 0 < n) : (Nat.toDigits 10 n).head? ≠ some '0' := by
  induction n using Nat.strongRecOn with
  | ind n ih =>
    rw [Nat.toDigits_eq_if (by decide)]
    split
    · next hlt =>
      have hall : ∀ n < 10, 0 < n → some n.digitChar ≠ some '0' := by decide
      exact hall n hlt h
    · next hge =>
      have hne : Nat.toDigits 10 (n / 10) ≠ [] := List.length_pos_iff.mp Nat.length_toDigits_pos
      rw [List.head?_append_of_ne_nil _ hne]
      exact ih (n / 10) (by omega) (by omega)

/-- On this grid the centre of the interval is at least one. -/
def Interval.Reaches (i : Interval) (places : Int) : Prop :=
  (i.scaled places).unit ≤ (i.scaled places).centre

section Reaches

variable {i : Interval} {places : Int}

/-- Where the search begins. -/
theorem Interval.reaches_first (hcentre : 0 < i.centre) (hunit : 0 < i.unit) :
    i.Reaches (1 - magnitude i.centre i.unit) := by
  unfold Reaches scaled magnitude
  by_cases hle : i.unit ≤ i.centre
  · have hquot : 0 < i.centre / i.unit := Nat.div_pos hle hunit
    have hbound := (Nat.le_div_iff_mul_le hunit).mp (tenTo_digitCount_le hquot)
    have hcount : 0 < digitCount (i.centre / i.unit) := Nat.length_toDigits_pos
    generalize digitCount (i.centre / i.unit) = count at hbound hcount ⊢
    rw [if_pos hle]
    have hup : (1 - (count : Int)).toNat = 0 := by omega
    have hdown : (-(1 - (count : Int))).toNat = count - 1 := by omega
    simp only [hup, hdown, tenTo_eq, Nat.pow_zero, Nat.mul_one]
    rwa [Nat.mul_comm]
  · have hbound := (Nat.div_lt_iff_lt_mul hcentre).mp (lt_tenTo_digitCount (i.unit / i.centre))
    have hcount : 0 < digitCount (i.unit / i.centre) := Nat.length_toDigits_pos
    generalize digitCount (i.unit / i.centre) = count at hbound hcount ⊢
    rw [if_neg hle]
    by_cases hfirst : i.unit ≤ tenTo (count - 1) * i.centre
    · have hup : (1 - (2 - (count : Int))).toNat = count - 1 := by omega
      have hdown : (-(1 - (2 - (count : Int)))).toNat = 0 := by omega
      simp only [if_pos hfirst, hup, hdown]
      rwa [tenTo_eq 0, Nat.pow_zero, Nat.mul_one, Nat.mul_comm]
    · have hup : (1 - (1 - (count : Int))).toNat = count := by omega
      have hdown : (-(1 - (1 - (count : Int)))).toNat = 0 := by omega
      simp only [if_neg hfirst, hup, hdown]
      rw [tenTo_eq 0, Nat.pow_zero, Nat.mul_one, Nat.mul_comm]
      exact Nat.le_of_lt hbound

/-- A finer grid reaches as far. -/
theorem Interval.Reaches.succ (h : i.Reaches places) : i.Reaches (places + 1) := by
  simp only [Reaches, scaled, tenTo_eq] at h ⊢
  by_cases hneg : places < 0
  · have hup : (places + 1).toNat = 0 := by omega
    have hup' : places.toNat = 0 := by omega
    have hdown : (-places).toNat = (-(places + 1)).toNat + 1 := by omega
    rw [hup', hdown, Nat.pow_succ] at h
    rw [hup]
    refine Nat.le_trans (Nat.mul_le_mul_left _ ?_) h
    omega
  · have hup : (places + 1).toNat = places.toNat + 1 := by omega
    have hdown : (-(places + 1)).toNat = 0 := by omega
    have hdown' : (-places).toNat = 0 := by omega
    rw [hdown'] at h
    rw [hup, hdown, Nat.pow_succ]
    refine Nat.le_trans h (Nat.mul_le_mul_left _ ?_)
    omega

theorem Interval.nearest?_pos (hunit : 0 < i.unit) (h : i.unit ≤ i.centre) {n : Nat}
    (hn : i.nearest? = some n) : 0 < n := by
  have hlow : 0 < i.centre / i.unit := Nat.div_pos h hunit
  simp only [nearest?] at hn
  split at hn
  · split at hn <;> cases hn
    · exact hlow
    · exact Nat.succ_pos _
  · cases hn
    exact hlow
  · cases hn
    exact Nat.succ_pos _
  · cases hn

theorem Interval.search_pos (hunit : 0 < i.unit) (h : i.Reaches places) {tries : Nat} {d : Decimal}
    (hd : i.search tries places = some d) : 0 < d.digits := by
  induction tries generalizing places with
  | zero => cases hd
  | succ tries ih =>
    simp only [search] at hd
    split at hd
    · next digits hnearest =>
      cases hd
      refine nearest?_pos ?_ h hnearest
      exact Nat.mul_pos hunit (tenTo_pos _)
    · exact ih h.succ hd

end Reaches

theorem Decimal.stripped_pos {d : Decimal} (h : 0 < d.digits) : 0 < d.stripped.digits := by
  fun_induction Decimal.stripped d with
  | case1 d hzero ih =>
    refine ih ?_
    show 0 < d.digits / 10
    omega
  | case2 d hzero => exact h

/-- The digits of a float that is not zero begin with no zero, or are a single zero. -/
theorem shortest_digits {mantissa : Nat} (h : 0 < mantissa) (exponent : Int) :
    0 < (shortest mantissa exponent).digits ∨ shortest mantissa exponent = ⟨0, 0⟩ := by
  have hcentre : 0 < (Interval.of mantissa exponent).centre :=
    Nat.mul_pos (Nat.mul_pos (by decide) h) (twoTo_pos _)
  have hunit : 0 < (Interval.of mantissa exponent).unit := Nat.mul_pos (by decide) (twoTo_pos _)
  unfold shortest
  cases hsearch : (Interval.of mantissa exponent).search 17
      (1 - magnitude (Interval.of mantissa exponent).centre
        (Interval.of mantissa exponent).unit) with
  | none =>
    refine .inr ?_
    simp [hsearch, Decimal.stripped]
  | some d =>
    refine .inl ?_
    have hpos := Interval.search_pos hunit (Interval.reaches_first hcentre hunit) hsearch
    simpa [hsearch] using Decimal.stripped_pos hpos

end TinyScript.Number
