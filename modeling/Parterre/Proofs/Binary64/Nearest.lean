/-
Rounding to binary64, on the rationals.  A number is rounded to a multiple of
its quantum, the power of two that leaves 53 digits, and halves go to the even
multiple.  Rounding keeps the order and keeps what is representable; nothing
else about it is used where only the order of results matters.
-/
import Mathlib.Algebra.Order.Field.Power
import Mathlib.Algebra.Order.Field.Rat
import Mathlib.Algebra.Order.Floor.Ring
import Mathlib.Data.Int.Log
import Mathlib.Data.Rat.Floor
import Mathlib.Tactic.FieldSimp
import Mathlib.Tactic.LinearCombination
import Mathlib.Tactic.Linarith
import Mathlib.Tactic.Positivity
import Mathlib.Tactic.Ring

namespace Parterre.Binary64

/-- The nearest whole number; a half goes to the even neighbour. -/
def roundEven (value : Rat) : Int :=
  if value - ⌊value⌋ < 1 / 2 then ⌊value⌋
  else if 1 / 2 < value - ⌊value⌋ then ⌊value⌋ + 1
  else ⌊value⌋ + ⌊value⌋ % 2

theorem floor_le_roundEven (value : Rat) : ⌊value⌋ ≤ roundEven value := by
  unfold roundEven
  split_ifs <;> omega

theorem roundEven_le_floor (value : Rat) : roundEven value ≤ ⌊value⌋ + 1 := by
  unfold roundEven
  split_ifs <;> omega

@[simp]
theorem roundEven_intCast (value : Int) : roundEven value = value := by
  unfold roundEven
  rw [Int.floor_intCast, if_pos (by norm_num)]

theorem roundEven_mono {first second : Rat} (h : first ≤ second) :
    roundEven first ≤ roundEven second := by
  rcases (Int.floor_mono h).lt_or_eq with hfloor | hfloor
  · exact (roundEven_le_floor first).trans
      ((Int.add_one_le_iff.mpr hfloor).trans (floor_le_roundEven second))
  · unfold roundEven
    rw [hfloor]
    split_ifs <;> first | omega | linarith

/-- A whole number below stays below. -/
theorem le_roundEven {whole : Int} {value : Rat} (h : (whole : Rat) ≤ value) :
    whole ≤ roundEven value := by
  rw [← roundEven_intCast whole]
  exact roundEven_mono h

theorem roundEven_le {whole : Int} {value : Rat} (h : value ≤ whole) :
    roundEven value ≤ whole := by
  rw [← roundEven_intCast whole]
  exact roundEven_mono h

/-- The exponent of the last digit that is kept. -/
def exponent (value : Rat) : Int :=
  max (Int.log 2 value - 52) (-1074)

theorem le_exponent (value : Rat) : -1074 ≤ exponent value :=
  le_max_right _ _

/-- The power of two of the last digit that is kept. -/
def quantum (value : Rat) : Rat :=
  2 ^ exponent value

theorem quantum_pos (value : Rat) : 0 < quantum value :=
  zpow_pos two_pos _

/-- The nearest representable number to a number that is not negative. -/
def nearestAbs (value : Rat) : Rat :=
  roundEven (value / quantum value) * quantum value

/-- The nearest representable number. -/
def nearest (value : Rat) : Rat :=
  if 0 ≤ value then nearestAbs value else -nearestAbs (-value)

/-- A number of 53 digits whose last digit is not too small. -/
def Representable (value : Rat) : Prop :=
  ∃ (digits : Nat) (last : Int), digits < 2 ^ 53 ∧ -1074 ≤ last ∧
    value = digits * 2 ^ last

theorem zpow_le_zpow_two {first second : Int} (h : first ≤ second) :
    (2 : Rat) ^ first ≤ 2 ^ second :=
  zpow_le_zpow_right₀ one_le_two h

theorem zpow_add_two (first second : Int) :
    (2 : Rat) ^ (first + second) = 2 ^ first * 2 ^ second :=
  zpow_add₀ two_ne_zero first second

theorem lt_quantum (value : Rat) : value < 2 ^ 53 * quantum value := by
  have hlog := Int.lt_zpow_succ_log_self (R := Rat) one_lt_two value
  have hexponent : Int.log 2 value + 1 ≤ 53 + exponent value := by
    unfold exponent
    omega
  calc value < (2 : Rat) ^ (Int.log 2 value + 1) := hlog
    _ ≤ 2 ^ (53 + exponent value) := zpow_le_zpow_two hexponent
    _ = 2 ^ 53 * quantum value := zpow_add_two 53 _

/-- Above the smallest exponent all 53 digits are used. -/
theorem quantum_le {value : Rat} (h : 0 < value) (hexponent : -1074 < exponent value) :
    2 ^ 52 * quantum value ≤ value := by
  have hlog := Int.zpow_log_le_self (R := Rat) one_lt_two h
  have hle : 52 + exponent value ≤ Int.log 2 value := by
    unfold exponent at *
    omega
  calc 2 ^ 52 * quantum value = (2 : Rat) ^ (52 + exponent value) := (zpow_add_two 52 _).symm
    _ ≤ 2 ^ Int.log 2 value := zpow_le_zpow_two hle
    _ ≤ value := hlog

theorem exponent_mono {first second : Rat} (hfirst : 0 < first) (h : first ≤ second) :
    exponent first ≤ exponent second := by
  have hlog := Int.log_mono_right (b := 2) hfirst h
  unfold exponent
  omega

theorem nearestAbs_nonneg {value : Rat} (h : 0 ≤ value) : 0 ≤ nearestAbs value := by
  have hquantum := quantum_pos value
  have hround : (0 : Int) ≤ roundEven (value / quantum value) :=
    le_roundEven (by positivity)
  unfold nearestAbs
  positivity

@[simp]
theorem nearestAbs_zero : nearestAbs 0 = 0 := by
  unfold nearestAbs
  rw [zero_div, show roundEven 0 = 0 from roundEven_intCast 0, Int.cast_zero, zero_mul]

/-- At most 53 digits are left. -/
theorem nearestAbs_le_quantum (value : Rat) :
    nearestAbs value ≤ 2 ^ 53 * quantum value := by
  have hquantum := quantum_pos value
  have hdigits : value / quantum value ≤ ((2 ^ 53 : Int) : Rat) := by
    rw [div_le_iff₀ hquantum]
    exact_mod_cast (lt_quantum value).le
  unfold nearestAbs
  apply mul_le_mul_of_nonneg_right _ hquantum.le
  exact_mod_cast roundEven_le hdigits

theorem quantum_le_nearestAbs {value : Rat} (h : 0 < value)
    (hexponent : -1074 < exponent value) :
    2 ^ 52 * quantum value ≤ nearestAbs value := by
  have hquantum := quantum_pos value
  have hdigits : ((2 ^ 52 : Int) : Rat) ≤ value / quantum value := by
    rw [le_div_iff₀ hquantum]
    exact_mod_cast quantum_le h hexponent
  unfold nearestAbs
  apply mul_le_mul_of_nonneg_right _ hquantum.le
  exact_mod_cast le_roundEven hdigits

theorem nearestAbs_mono {first second : Rat} (hfirst : 0 ≤ first) (h : first ≤ second) :
    nearestAbs first ≤ nearestAbs second := by
  rcases hfirst.eq_or_lt with rfl | hpositive
  · rw [nearestAbs_zero]
    exact nearestAbs_nonneg h
  rcases (exponent_mono hpositive h).eq_or_lt with hexponent | hexponent
  · have hquantum : quantum first = quantum second := by rw [quantum, quantum, hexponent]
    have hround := roundEven_mono (div_le_div_of_nonneg_right h (quantum_pos second).le)
    unfold nearestAbs
    rw [hquantum]
    exact mul_le_mul_of_nonneg_right (by exact_mod_cast hround) (quantum_pos second).le
  -- Across a change of the exponent both results are held apart by a power of two.
  · have hlower : -1074 < exponent second :=
      lt_of_le_of_lt (le_exponent first) hexponent
    have hpowers : (2 : Rat) ^ 53 * quantum first ≤ 2 ^ 52 * quantum second := by
      have hle : 53 + exponent first ≤ 52 + exponent second := by omega
      have hzpow := zpow_le_zpow_two hle
      rwa [zpow_add_two, zpow_add_two] at hzpow
    exact (nearestAbs_le_quantum first).trans
      (hpowers.trans (quantum_le_nearestAbs (hpositive.trans_le h) hlower))

theorem exponent_le {value : Rat} {last : Int} (hpositive : 0 < value)
    (hvalue : value < 2 ^ 53 * 2 ^ last) (hlast : -1074 ≤ last) :
    exponent value ≤ last := by
  have hlog : Int.log 2 value < 53 + last := by
    apply (Int.lt_zpow_iff_log_lt (b := 2) one_lt_two hpositive).mp
    exact hvalue.trans_eq (zpow_add_two 53 last).symm
  unfold exponent
  omega

/-- What is representable is kept. -/
theorem nearestAbs_of_representable {value : Rat} (h : Representable value) :
    nearestAbs value = value := by
  obtain ⟨digits, last, hdigits, hlast, rfl⟩ := h
  rcases Nat.eq_zero_or_pos digits with rfl | hpositive
  · simp
  have hpower : (0 : Rat) < 2 ^ last := zpow_pos two_pos _
  have hvalue : (0 : Rat) < digits * 2 ^ last := by positivity
  have hexponent : exponent (digits * 2 ^ last : Rat) ≤ last :=
    exponent_le hvalue (mul_lt_mul_of_pos_right (by exact_mod_cast hdigits) hpower) hlast
  obtain ⟨shift, hshift⟩ := Int.le.dest hexponent
  have hpowers : (2 : Rat) ^ last = quantum (digits * 2 ^ last) * 2 ^ shift := by
    rw [quantum, ← zpow_natCast, ← zpow_add_two, hshift]
  have hquotient : (digits : Rat) * 2 ^ last / quantum (digits * 2 ^ last) =
      ((digits * 2 ^ shift : Int) : Rat) := by
    rw [div_eq_iff (quantum_pos _).ne']
    push_cast
    linear_combination (digits : Rat) * hpowers
  unfold nearestAbs
  rw [hquotient, roundEven_intCast, ← hquotient, div_mul_cancel₀ _ (quantum_pos _).ne']

theorem representable_two_zpow {last : Int} (h : -1074 ≤ last) :
    Representable (2 ^ last) :=
  ⟨1, last, by norm_num, h, by norm_num⟩

theorem nearest_of_nonneg {value : Rat} (h : 0 ≤ value) : nearest value = nearestAbs value :=
  if_pos h

theorem nearest_neg (value : Rat) : nearest (-value) = -nearest value := by
  unfold nearest
  rcases lt_trichotomy value 0 with h | rfl | h
  · rw [if_pos (by linarith), if_neg (by linarith), neg_neg]
  · simp
  · rw [if_neg (by linarith), if_pos h.le, neg_neg]

theorem nearest_nonneg {value : Rat} (h : 0 ≤ value) : 0 ≤ nearest value := by
  rw [nearest_of_nonneg h]
  exact nearestAbs_nonneg h

theorem nearest_nonpos {value : Rat} (h : value ≤ 0) : nearest value ≤ 0 := by
  have hneg := nearest_nonneg (neg_nonneg.mpr h)
  rw [nearest_neg] at hneg
  linarith

/-- Rounding does not make a number positive. -/
theorem pos_of_nearest_pos {value : Rat} (h : 0 < nearest value) : 0 < value := by
  by_contra hle
  exact absurd h (nearest_nonpos (not_lt.mp hle)).not_gt

theorem nearest_mono {first second : Rat} (h : first ≤ second) :
    nearest first ≤ nearest second := by
  rcases le_total 0 first with hfirst | hfirst
  · rw [nearest_of_nonneg hfirst, nearest_of_nonneg (hfirst.trans h)]
    exact nearestAbs_mono hfirst h
  have hbelow := nearest_nonpos hfirst
  rcases le_total 0 second with hsecond | hsecond
  · exact hbelow.trans (nearest_nonneg hsecond)
  · have hneg := nearestAbs_mono (neg_nonneg.mpr hsecond) (neg_le_neg h)
    rw [← nearest_of_nonneg (neg_nonneg.mpr hsecond),
      ← nearest_of_nonneg (neg_nonneg.mpr hfirst), nearest_neg, nearest_neg] at hneg
    linarith

theorem nearest_of_representable {value : Rat} (h : Representable value) :
    nearest value = value := by
  have hnonneg : 0 ≤ value := by
    obtain ⟨digits, last, _, _, rfl⟩ := h
    positivity
  rw [nearest_of_nonneg hnonneg, nearestAbs_of_representable h]

theorem exponent_eq {value : Rat} {last : Int} (hlast : -1074 ≤ last)
    (hlower : 2 ^ 52 * 2 ^ last ≤ value) (hupper : value < 2 ^ 53 * 2 ^ last) :
    exponent value = last := by
  have hpower : (0 : Rat) < 2 ^ last := zpow_pos two_pos _
  have hpositive : 0 < value := lt_of_lt_of_le (by positivity) hlower
  have hlog : 52 + last ≤ Int.log 2 value := by
    apply (Int.zpow_le_iff_le_log (b := 2) one_lt_two hpositive).mp
    exact (zpow_add_two 52 last).trans_le hlower
  apply le_antisymm (exponent_le hpositive hupper hlast)
  unfold exponent
  omega

/-- Taking off a unit of the last digit or more is not rounded away. -/
theorem nearest_sub_lt {digits : Nat} {last : Int} {less : Rat} (hpositive : 0 < digits)
    (hdigits : digits < 2 ^ 53) (hlast : -1074 ≤ last) (hless : 2 ^ last ≤ less) :
    nearest (digits * 2 ^ last - less) < digits * 2 ^ last := by
  have hpower : (0 : Rat) < 2 ^ last := zpow_pos two_pos _
  have hbelow : Representable ((digits - 1 : Nat) * 2 ^ last) :=
    ⟨digits - 1, last, by omega, hlast, rfl⟩
  have hcast : ((digits - 1 : Nat) : Rat) = digits - 1 := by
    rw [Nat.cast_sub hpositive, Nat.cast_one]
  have hle : nearest (digits * 2 ^ last - less) ≤ (digits - 1 : Nat) * 2 ^ last := by
    rw [← nearest_of_representable hbelow, hcast]
    exact nearest_mono (by linarith)
  rw [hcast] at hle
  linarith

/-- A whole number and a part of a unit. -/
theorem roundEven_add {whole : Int} {part : Rat} (hpart : 0 ≤ part) (hunit : part < 1) :
    roundEven (whole + part) =
      if part < 1 / 2 then whole
      else if 1 / 2 < part then whole + 1 else whole + whole % 2 := by
  have hfloor : ⌊(whole : Rat) + part⌋ = whole := by
    rw [Int.floor_eq_iff]
    constructor <;> linarith
  unfold roundEven
  rw [hfloor, add_sub_cancel_left]

/-- Numbers of the same exponent are rounded like whole numbers. -/
theorem nearest_digits {whole : Int} {part : Rat} {last : Int} (hlast : -1074 ≤ last)
    (hlower : 2 ^ 52 ≤ whole + part) (hupper : whole + part < 2 ^ 53) :
    nearest ((whole + part) * 2 ^ last) = roundEven (whole + part) * 2 ^ last := by
  have hpower : (0 : Rat) < 2 ^ last := zpow_pos two_pos _
  have hexponent : exponent ((whole + part) * 2 ^ last) = last :=
    exponent_eq hlast (mul_le_mul_of_nonneg_right hlower hpower.le)
      (mul_lt_mul_of_pos_right hupper hpower)
  have hnonneg : 0 ≤ (whole + part) * 2 ^ last :=
    mul_nonneg (le_trans (by norm_num) hlower) hpower.le
  rw [nearest_of_nonneg hnonneg, nearestAbs, quantum, hexponent,
    mul_div_cancel_right₀ _ hpower.ne']

/-- Below a power of two the gap is halved, so there half a unit is not rounded
away when it is taken off. -/
theorem lt_half_of_absorbed {last : Int} {part : Rat} (hlast : -1074 < last)
    (habsorbed : (2 ^ 52 : Nat) * 2 ^ last ≤
      nearest ((2 ^ 52 : Nat) * 2 ^ last - part * 2 ^ last)) : part < 1 / 2 := by
  by_contra hhalf
  have hbelow : Representable ((2 ^ 53 - 1 : Nat) * 2 ^ (last - 1)) :=
    ⟨2 ^ 53 - 1, last - 1, by norm_num, by omega, rfl⟩
  have hsplit : (2 : Rat) ^ last = 2 ^ (last - 1) * 2 := by
    rw [← zpow_add_one₀ two_ne_zero, sub_add_cancel]
  have hunit : (0 : Rat) < 2 ^ (last - 1) := zpow_pos two_pos _
  have htaken := mul_le_mul_of_nonneg_right (not_lt.mp hhalf) hunit.le
  have hle : nearest ((2 ^ 52 : Nat) * 2 ^ last - part * 2 ^ last) ≤
      (2 ^ 53 - 1 : Nat) * 2 ^ (last - 1) := by
    rw [← nearest_of_representable hbelow, hsplit]
    apply nearest_mono
    push_cast
    linarith
  have hlt := habsorbed.trans hle
  rw [hsplit] at hlt
  push_cast at hlt
  linarith

/-- A part of a unit that is rounded away when it is taken off is less than a
half, or a half of an even number. -/
theorem part_of_absorbed {digits : Nat} {last : Int} {part : Rat}
    (hnormal : 2 ^ 52 ≤ digits) (hdigits : digits < 2 ^ 53) (hlast : -1074 < last)
    (hpart : 0 < part) (hone : part < 1)
    (habsorbed : digits * 2 ^ last ≤ nearest (digits * 2 ^ last - part * 2 ^ last)) :
    part < 1 / 2 ∨ part = 1 / 2 ∧ (digits : Int) % 2 = 0 := by
  have hpower : (0 : Rat) < 2 ^ last := zpow_pos two_pos _
  rcases hnormal.eq_or_lt with rfl | hlarge
  · exact Or.inl (lt_half_of_absorbed hlast habsorbed)
  · have hlarge' : (2 ^ 52 : Rat) + 1 ≤ digits := by exact_mod_cast hlarge
    have hdigits' : (digits : Rat) < 2 ^ 53 := by exact_mod_cast hdigits
    have hshift : (digits : Rat) * 2 ^ last - part * 2 ^ last =
        (((digits : Int) - 1 : Int) + (1 - part)) * 2 ^ last := by
      push_cast
      ring
    rw [hshift, nearest_digits hlast.le (by push_cast; linarith) (by push_cast; linarith),
      mul_le_mul_iff_left₀ hpower, roundEven_add (by linarith) (by linarith)] at habsorbed
    split_ifs at habsorbed with hlow hhigh
    · push_cast at habsorbed
      linarith
    · left
      linarith
    · right
      have heven : (digits : Int) ≤ digits - 1 + (digits - 1) % 2 := by
        exact_mod_cast habsorbed
      exact ⟨by linarith, by omega⟩

/-- What is rounded away when it is taken off is rounded away when it is added:
the gap above a number is not smaller than the one below, and ties agree. -/
theorem nearest_add_le {digits : Nat} {last : Int} {less : Rat}
    (hnormal : 2 ^ 52 ≤ digits) (hdigits : digits < 2 ^ 53) (hlast : -1074 < last)
    (hless : 0 < less)
    (habsorbed : digits * 2 ^ last ≤ nearest (digits * 2 ^ last - less)) :
    nearest (digits * 2 ^ last + less) ≤ digits * 2 ^ last := by
  have hpower : (0 : Rat) < 2 ^ last := zpow_pos two_pos _
  have hnormal' : (2 ^ 52 : Rat) ≤ digits := by exact_mod_cast hnormal
  have hdigits' : (digits : Rat) + 1 ≤ 2 ^ 53 := by exact_mod_cast hdigits
  have hunit : less < 2 ^ last := by
    by_contra hlarge
    exact absurd (nearest_sub_lt (by omega) hdigits hlast.le (not_lt.mp hlarge))
      (not_lt.mpr habsorbed)
  obtain ⟨part, rfl⟩ : ∃ part, less = part * 2 ^ last :=
    ⟨less / 2 ^ last, (div_mul_cancel₀ _ hpower.ne').symm⟩
  have hpart : 0 < part := (mul_pos_iff_of_pos_right hpower).mp hless
  have hone : part < 1 := by
    rw [← mul_lt_mul_iff_of_pos_right hpower, one_mul]
    exact hunit
  have hshift : (digits : Rat) * 2 ^ last + part * 2 ^ last =
      ((digits : Int) + part) * 2 ^ last := by
    push_cast
    ring
  rw [hshift, nearest_digits hlast.le (by push_cast; linarith) (by push_cast; linarith),
    mul_le_mul_iff_left₀ hpower, roundEven_add hpart.le hone]
  rcases part_of_absorbed hnormal hdigits hlast hpart hone habsorbed with
    hhalf | ⟨rfl, heven⟩
  · rw [if_pos hhalf, Int.cast_natCast]
  · rw [if_neg (lt_irrefl _), if_neg (lt_irrefl _), heven, add_zero, Int.cast_natCast]

end Parterre.Binary64
