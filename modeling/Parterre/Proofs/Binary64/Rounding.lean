/-
How digits are dropped.  A mantissa keeps two bits of what was shifted out of
it, and these are enough to round it like the whole number.  So an exact result
that comes with enough digits is rounded to the nearest representable number.
-/
import Parterre.Proofs.Binary64.Unpacked

namespace Parterre.Binary64

open Float.Model
open Float.Model.UnpackedFloat

/-- What the two bits say about the part of a unit that was dropped. -/
inductive Dropped : Bool → Bool → Rat → Prop
  | nothing : Dropped false false 0
  | little {part : Rat} (hpart : 0 < part) (hhalf : part < 1 / 2) : Dropped false true part
  | half : Dropped true false (1 / 2)
  | much {part : Rat} (hhalf : 1 / 2 < part) (hone : part < 1) : Dropped true true part

/-- The number that a mantissa was left of. -/
def Leaves (value : Rat) (left : ExtendedMantissa) : Prop :=
  Dropped left.roundBit left.stickyBit (value - left.mantissa)

namespace Dropped

variable {round sticky : Bool} {part : Rat}

theorem nonneg (h : Dropped round sticky part) : 0 ≤ part := by
  cases h <;> linarith

theorem lt_one (h : Dropped round sticky part) : part < 1 := by
  cases h <;> linarith

/-- One more digit is dropped. -/
theorem shift (h : Dropped round sticky part) (digit : Nat) (hdigit : digit < 2) :
    Dropped (digit != 0) (round || sticky) ((part + digit) / 2) := by
  obtain rfl | rfl : digit = 0 ∨ digit = 1 := by omega
  · cases h with
    | nothing =>
        rw [show ((0 : Rat) + (0 : Nat)) / 2 = 0 by norm_num]
        exact .nothing
    | half => exact .little (by norm_num) (by norm_num)
    | little hpart hhalf =>
        exact .little (by push_cast; linarith) (by push_cast; linarith)
    | much hhalf hone =>
        exact .little (by push_cast; linarith) (by push_cast; linarith)
  · cases h with
    | nothing =>
        rw [show ((0 : Rat) + (1 : Nat)) / 2 = 1 / 2 by norm_num]
        exact .half
    | half => exact .much (by norm_num) (by norm_num)
    | little hpart hhalf =>
        exact .much (by push_cast; linarith) (by push_cast; linarith)
    | much hhalf hone =>
        exact .much (by push_cast; linarith) (by push_cast; linarith)

end Dropped

namespace Leaves

variable {value : Rat} {left : ExtendedMantissa}

theorem of_exact (mantissa : Nat) :
    Leaves mantissa (.ofMantissaAndAccuracy mantissa .exact) := by
  unfold Leaves
  rw [show ((mantissa : Rat) -
    (ExtendedMantissa.ofMantissaAndAccuracy mantissa .exact).mantissa) = 0 from sub_self _]
  exact .nothing

theorem le (h : Leaves value left) : (left.mantissa : Rat) ≤ value :=
  sub_nonneg.mp h.nonneg

theorem lt (h : Leaves value left) : value < left.mantissa + 1 := by
  have hpart := h.lt_one
  linarith

theorem shiftRightOne (h : Leaves value left) : Leaves (value / 2) left.shiftRightOne := by
  have hsplit : (left.mantissa : Rat) =
      (left.mantissa % 2 : Nat) + 2 * (left.mantissa / 2 : Nat) := by
    exact_mod_cast (Nat.mod_add_div left.mantissa 2).symm
  have hpart : value / 2 - (left.mantissa / 2 : Nat) =
      (value - left.mantissa + (left.mantissa % 2 : Nat)) / 2 := by
    linarith
  unfold Leaves
  rw [ExtendedMantissa.shiftRightOne, hpart]
  exact h.shift _ (Nat.mod_lt _ two_pos)

/-- Dropping digits divides by a power of two. -/
theorem shiftRight (h : Leaves value left) (count : Nat) :
    Leaves (value / 2 ^ count) (left >>> count) := by
  change Leaves _ (count.repeat ExtendedMantissa.shiftRightOne left)
  induction count with
  | zero => simpa [Nat.repeat] using h
  | succ count ih =>
      rw [pow_succ, ← div_div]
      exact ih.shiftRightOne

/-- The two bits decide about the last digit as the number would. -/
theorem roundedMantissa (h : Leaves value left) :
    (left.roundedMantissa : Int) = roundEven value := by
  have hvalue : value = (left.mantissa : Int) + (value - left.mantissa) := by
    push_cast
    linarith
  obtain ⟨mantissa, round, sticky⟩ := left
  rw [hvalue, roundEven_add h.nonneg h.lt_one]
  unfold Leaves at h
  generalize value - mantissa = part at h
  simp only at h
  cases h with
  | nothing =>
    simp [ExtendedMantissa.roundedMantissa, ExtendedMantissa.accuracy,
      Accuracy.roundToNearestEven]
  | half =>
    simp [ExtendedMantissa.roundedMantissa, ExtendedMantissa.accuracy,
      Accuracy.roundToNearestEven]
  | little hpart hhalf =>
    rw [if_pos hhalf]
    rfl
  | much hhalf hone =>
    rw [if_neg (by linarith), if_pos hhalf]
    rfl

end Leaves

theorem mantissa_ofMantissaAndAccuracy (mantissa : Nat) (accuracy : Accuracy) :
    (ExtendedMantissa.ofMantissaAndAccuracy mantissa accuracy).mantissa = mantissa := by
  rcases accuracy with _ | order
  · rfl
  · cases order <;> rfl

theorem two_zpow_log2_le {digits : Nat} (h : 0 < digits) :
    (2 : Rat) ^ (digits.log2 : Int) ≤ digits := by
  rw [zpow_natCast]
  exact_mod_cast Nat.log2_self_le h.ne'

theorem add_one_le_two_zpow_log2 (digits : Nat) :
    (digits : Rat) + 1 ≤ 2 ^ (digits.log2 + 1 : Int) := by
  have hnat : digits + 1 ≤ 2 ^ (digits.log2 + 1) := Nat.lt_log2_self
  rw [← Nat.cast_add_one digits.log2, zpow_natCast]
  exact_mod_cast hnat

theorem log_mul_two_zpow {mantissa : Nat} {value : Rat} (last : Int) (hmantissa : 0 < mantissa)
    (hle : mantissa ≤ value) (hlt : value < mantissa + 1) :
    Int.log 2 (value * 2 ^ last) = mantissa.log2 + last := by
  have hpower : (0 : Rat) < 2 ^ last := zpow_pos two_pos _
  have hpositive : 0 < value := lt_of_lt_of_le (by exact_mod_cast hmantissa) hle
  have hlower := (two_zpow_log2_le hmantissa).trans hle
  have hupper := hlt.trans_le (add_one_le_two_zpow_log2 mantissa)
  have hvalue : 0 < value * 2 ^ last := by positivity
  apply le_antisymm
  · apply Int.lt_add_one_iff.mp
    apply (Int.lt_zpow_iff_log_lt (b := 2) one_lt_two hvalue).mp
    rw [add_right_comm, Nat.cast_ofNat, zpow_add_two]
    exact mul_lt_mul_of_pos_right hupper hpower
  · apply (Int.zpow_le_iff_le_log (b := 2) one_lt_two hvalue).mp
    rw [Nat.cast_ofNat, zpow_add_two]
    exact mul_le_mul_of_nonneg_right hlower hpower.le

/-- All 53 digits are aimed at, as far as the smallest exponent allows. -/
theorem targetExponent_eq_max (total : Int) :
    Format.binary64.targetExponent total = max (total - 53) (-1074) := by
  simp only [Format.targetExponent, Format.mantissaBits, Format.minExponent]
  omega

/-- The exponent aimed at is that of the nearest number, if there are enough
digits. -/
theorem targetExponent_eq {value : Rat} {left : ExtendedMantissa} {last : Int}
    (h : Leaves value left) (hpositive : 0 < value)
    (hlast : last ≤ exponent (value * 2 ^ last)) :
    Format.binary64.targetExponent (totalExponent left.mantissa last) =
      exponent (value * 2 ^ last) := by
  rw [targetExponent_eq_max, totalExponent]
  rcases Nat.eq_zero_or_pos left.mantissa with hzero | hmantissa
  -- Without a digit the number is below every one with the smallest exponent.
  · have hone : value < 1 := by
      have hlt := h.lt
      rwa [hzero, Nat.cast_zero, zero_add] at hlt
    have hpower : (0 : Rat) < 2 ^ last := zpow_pos two_pos _
    have hvalue : value * 2 ^ last < 2 ^ last := mul_lt_of_lt_one_left hpower hone
    have hlog : Int.log 2 (value * 2 ^ last) < last :=
      (Int.lt_zpow_iff_log_lt (b := 2) one_lt_two (by positivity)).mp hvalue
    rw [hzero]
    unfold exponent at *
    simp only [Nat.log2_zero]
    omega
  · rw [exponent, log_mul_two_zpow last hmantissa h.le h.lt]
    omega

/-- A finite number in the one way it is packed, with the nearest value. -/
structure Rounds (number : UnpackedFloat) (value : Rat) : Prop where
  finite : number.isFinite = true
  canonical : Canonical number
  value_eq : unpackedValue number = nearest value

theorem nearest_signed (sign : Sign) {value : Rat} (h : 0 ≤ value) :
    nearest (signed sign value) = signed sign (nearestAbs value) := by
  cases sign with
  | negative => rw [signed, nearest_neg, nearest_of_nonneg h, signed]
  | positive => rw [signed, nearest_of_nonneg h, signed]

/-- Rounded digits need at most one more shift, which drops a zero. -/
theorem shiftToTargetExponent_rounded {digits : Nat} {last : Int}
    (hdigits : digits ≤ 2 ^ 53) (hlast : -1074 ≤ last)
    (hnormal : 2 ^ 52 ≤ digits ∨ last = -1074) :
    ∃ left last', shiftToTargetExponent Format.binary64 digits last .exact = (left, last') ∧
      (left.mantissa : Rat) * 2 ^ last' = digits * 2 ^ last ∧
      left.mantissa < 2 ^ 53 ∧ -1074 ≤ last' ∧
        (2 ^ 52 ≤ left.mantissa ∨ last' = -1074) := by
  have htarget : Format.binary64.targetExponent (totalExponent digits last) =
      max (digits.log2 + last - 52) (-1074) := by
    rw [targetExponent_eq_max, totalExponent]
    omega
  refine ⟨_, _, rfl, ?_⟩
  simp only [htarget]
  rcases hdigits.eq_or_lt with rfl | hlt
  · have hshift : (max (((2 ^ 53 : Nat).log2 : Int) + last - 52) (-1074) - last).toNat = 1 := by
      rw [Nat.log2_two_pow]
      omega
    have hhalf : ((ExtendedMantissa.ofMantissaAndAccuracy (2 ^ 53) .exact) >>> 1).mantissa =
        2 ^ 52 := rfl
    rw [hshift, hhalf, zpow_add_two]
    refine ⟨?_, by norm_num, by omega, Or.inl le_rfl⟩
    norm_num
    ring
  · have hshift : (max ((digits.log2 : Int) + last - 52) (-1074) - last).toNat = 0 := by
      have hlog : digits.log2 ≤ 52 := by
        rcases Nat.eq_zero_or_pos digits with rfl | hpositive
        · simp
        · exact Nat.lt_succ_iff.mp ((Nat.log2_lt hpositive.ne').mpr hlt)
      omega
    have hsame : ((ExtendedMantissa.ofMantissaAndAccuracy digits .exact) >>> 0).mantissa =
        digits := rfl
    rw [hshift, hsame, Nat.cast_zero, add_zero]
    exact ⟨rfl, hlt, hlast, hnormal⟩

/-- After the first shift the digits round like the number. -/
theorem shiftToTargetExponent_leaves {value : Rat} {mantissa : Nat} {last : Int}
    {accuracy : Accuracy}
    (h : Leaves value (.ofMantissaAndAccuracy mantissa accuracy)) (hpositive : 0 < value)
    (hlast : last ≤ exponent (value * 2 ^ last)) :
    ∃ left, shiftToTargetExponent Format.binary64 mantissa last accuracy =
        (left, exponent (value * 2 ^ last)) ∧
      (left.roundedMantissa : Rat) * quantum (value * 2 ^ last) =
        nearestAbs (value * 2 ^ last) := by
  obtain ⟨shift, hshift⟩ := Int.le.dest hlast
  have htarget := targetExponent_eq h hpositive hlast
  rw [mantissa_ofMantissaAndAccuracy, ← hshift] at htarget
  have hamount : (last + shift - last).toNat = shift := by omega
  have hleft := h.shiftRight shift
  have hquotient : value * 2 ^ last / quantum (value * 2 ^ last) = value / 2 ^ shift := by
    rw [quantum, ← hshift, zpow_add_two, zpow_natCast]
    field_simp
  refine ⟨ExtendedMantissa.ofMantissaAndAccuracy mantissa accuracy >>> shift, ?_, ?_⟩
  · simp only [shiftToTargetExponent, htarget, shiftToExponent, hamount]
    rw [hshift]
  · rw [nearestAbs, hquotient, ← hleft.roundedMantissa, Int.cast_natCast]

/-- Digits that leave a positive number are rounded to the nearest one. -/
theorem roundWithAccuracy_rounds {value : Rat} {mantissa : Nat} {last : Int}
    {accuracy : Accuracy} (sign : Sign)
    (h : Leaves value (.ofMantissaAndAccuracy mantissa accuracy)) (hpositive : 0 < value)
    (hlast : last ≤ exponent (value * 2 ^ last)) :
    Rounds (roundWithAccuracy Format.binary64 sign mantissa last accuracy)
      (signed sign (value * 2 ^ last)) := by
  have hpower : (0 : Rat) < 2 ^ last := zpow_pos two_pos _
  have hvalue : 0 < value * 2 ^ last := by positivity
  have hquantum := quantum_pos (value * 2 ^ last)
  obtain ⟨left, hfirst, hrounded⟩ := shiftToTargetExponent_leaves h hpositive hlast
  have hdigits : left.roundedMantissa ≤ 2 ^ 53 := by
    have hle := nearestAbs_le_quantum (value * 2 ^ last)
    rw [← hrounded, mul_le_mul_iff_left₀ hquantum] at hle
    exact_mod_cast hle
  have hnormal : 2 ^ 52 ≤ left.roundedMantissa ∨ exponent (value * 2 ^ last) = -1074 := by
    rcases (le_exponent (value * 2 ^ last)).eq_or_lt with hleast | hlarge
    · exact Or.inr hleast.symm
    · have hle := quantum_le_nearestAbs hvalue hlarge
      rw [← hrounded, mul_le_mul_iff_left₀ hquantum] at hle
      exact Or.inl (by exact_mod_cast hle)
  obtain ⟨final, last', hsecond, hsame, hcanonical⟩ :=
    shiftToTargetExponent_rounded hdigits (le_exponent _) hnormal
  rw [← quantum, hrounded] at hsame
  have hresult : roundWithAccuracy Format.binary64 sign mantissa last accuracy =
      if hzero : final.mantissa = 0 then .zero sign
      else .finite sign final.mantissa last' (Nat.pos_of_ne_zero hzero) := by
    simp only [roundWithAccuracy, hfirst, hsecond]
  rw [hresult]
  by_cases hzero : final.mantissa = 0
  · rw [dif_pos hzero]
    rw [hzero, Nat.cast_zero, zero_mul] at hsame
    refine ⟨rfl, trivial, ?_⟩
    rw [nearest_signed sign hvalue.le, ← hsame]
    cases sign <;> simp [unpackedValue, signed]
  · rw [dif_neg hzero]
    refine ⟨rfl, hcanonical, ?_⟩
    rw [nearest_signed sign hvalue.le, ← hsame, unpackedValue]

end Parterre.Binary64
