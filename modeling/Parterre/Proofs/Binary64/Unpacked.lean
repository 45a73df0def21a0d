/-
Binary64 numbers as sign, digits and exponent.  A packed number is unpacked in
one way only: all 53 digits are used as far as the smallest exponent allows.  So
what is unpacked from a packed number is the number again, and it is enough to
compare exponents before digits.
-/
import Mathlib
import Parterre.Proofs.Binary64.Nearest

namespace Parterre.Binary64

open Float.Model
open Float.Model.UnpackedFloat

/-- All 53 digits are used, or the exponent is the smallest one. -/
def Canonical : UnpackedFloat → Prop
  | .finite _ digits last _ =>
      digits < 2 ^ 53 ∧ -1074 ≤ last ∧ (2 ^ 52 ≤ digits ∨ last = -1074)
  | _ => True

/-- Numbers with an exponent that is too large to be packed become infinite. -/
def bounded : UnpackedFloat → UnpackedFloat
  | .finite sign digits last hdigits =>
      if last ≤ 971 then .finite sign digits last hdigits else .infinity sign
  | other => other

section Packing

theorem ofNat_ne {size value : Nat} {other : BitVec size} (hvalue : value < 2 ^ size)
    (hne : value ≠ other.toNat) : BitVec.ofNat size value ≠ other := by
  rintro rfl
  rw [BitVec.toNat_ofNat, Nat.mod_eq_of_lt hvalue] at hne
  exact hne rfl

theorem toNat_implicit (mantissa : BitVec 52) :
    (1#1 ++ mantissa).toNat = 2 ^ 52 + mantissa.toNat := by
  rw [BitVec.toNat_append, ← Nat.shiftLeft_add_eq_or_of_lt mantissa.isLt]
  rfl

theorem unpack_subnormal (sign : Sign) {digits : Nat} (hpositive : 0 < digits)
    (hdigits : digits < 2 ^ 52) :
    UnpackedFloat.unpack Format.binary64
        (packComponents Format.binary64 sign 0#_ (BitVec.ofNat _ digits)) =
      .finite sign digits (-1074) hpositive := by
  have hne : BitVec.ofNat 52 digits ≠ 0#52 :=
    ofNat_ne hdigits (by simpa using hpositive.ne')
  unfold UnpackedFloat.unpack
  simpa [hne, Format.exponentBias] using hdigits

theorem unpack_normal (sign : Sign) {field digits : Nat} (hpositive : 0 < digits)
    (hnormal : 2 ^ 52 ≤ digits) (hdigits : digits < 2 ^ 53) (hfield : 0 < field)
    (hbound : field < 2047) :
    UnpackedFloat.unpack Format.binary64
        (packComponents Format.binary64 sign (BitVec.ofNat _ field)
          (BitVec.ofNat _ digits)) =
      .finite sign digits (field - 1075) hpositive := by
  have hzero : BitVec.ofNat 11 field ≠ 0#11 :=
    ofNat_ne (by omega) (by simpa using hfield.ne')
  have hones : BitVec.ofNat 11 field ≠ 2047#11 :=
    ofNat_ne (by omega) (by simpa using hbound.ne)
  have himplicit : (1#1 ++ BitVec.ofNat 52 digits).toNat = digits := by
    rw [toNat_implicit, BitVec.toNat_ofNat]
    omega
  have hmod : field % 2048 = field := Nat.mod_eq_of_lt (by omega)
  unfold UnpackedFloat.unpack
  simp [hzero, hones, himplicit, hmod, Format.exponentBias]

theorem unpack_infinity (sign : Sign) :
    UnpackedFloat.unpack Format.binary64 (packedInfinity Format.binary64 sign) =
      .infinity sign := by
  cases sign <;> rfl

/-- What is packed is found again, as long as its exponent fits. -/
theorem unpack_pack {number : UnpackedFloat} (h : Canonical number) :
    UnpackedFloat.unpack Format.binary64 (UnpackedFloat.pack Format.binary64 number) =
      bounded number := by
  cases number with
  | infinity sign => exact unpack_infinity sign
  | notANumber => rfl
  | zero sign => exact unpack_packedZero
  | finite sign digits last hpositive =>
      obtain ⟨hdigits, hlast, hnormal⟩ := h
      have hfield : last + (Format.binary64.exponentBias : Int) +
          (Format.binary64.mantissaBitsWithoutImplicit : Int) = last + 1075 := by
        simp [Format.exponentBias]
        omega
      have hbits : digits.log2 + 1 = Format.binary64.mantissaBits ↔ 2 ^ 52 ≤ digits := by
        rw [← Nat.le_log2 hpositive.ne']
        have hlog : digits.log2 < 53 := (Nat.log2_lt hpositive.ne').mpr hdigits
        simp only [Format.mantissaBits]
        omega
      simp only [UnpackedFloat.pack, bounded, hfield, hbits]
      by_cases hfits : last ≤ 971
      · rw [if_pos hfits, if_neg (by simp; omega)]
        by_cases hfull : 2 ^ 52 ≤ digits
        · rw [if_pos hfull, unpack_normal sign hpositive hfull hdigits (by omega) (by omega)]
          congr 1
          omega
        · rw [if_neg hfull, unpack_subnormal sign hpositive (by omega)]
          congr 1
          omega
      · rw [if_neg hfits, if_pos (by simp; omega), unpack_infinity]

end Packing

theorem toNat_field_lt {field : BitVec 11} (h : field ≠ 2047#11) : field.toNat < 2047 := by
  have hlt := field.isLt
  have hne : field.toNat ≠ 2047 := fun heq => h (BitVec.eq_of_toNat_eq heq)
  omega

theorem canonical_unpack (bits : BitVec Format.binary64.numBits) :
    Canonical (UnpackedFloat.unpack Format.binary64 bits) ∧
      bounded (UnpackedFloat.unpack Format.binary64 bits) =
        UnpackedFloat.unpack Format.binary64 bits := by
  fun_cases UnpackedFloat.unpack with
  | case1 => exact ⟨trivial, rfl⟩
  | case2 => exact ⟨trivial, rfl⟩
  | case3 => exact ⟨trivial, rfl⟩
  | case4 mantissa field last _ sign _ hzero _ =>
      have hmantissa := mantissa.isLt
      simp [Canonical, bounded, last, hzero, Format.exponentBias] at hmantissa ⊢
      omega
  | case5 mantissa field last _ sign hones hzero =>
      have hdigits := (1#1 ++ mantissa).isLt
      have hnormal := toNat_implicit mantissa
      have hbound := toNat_field_lt hones
      have hfield : field.toNat ≠ 0 := fun heq => hzero (BitVec.eq_of_toNat_eq heq)
      simp [Canonical, bounded, last, Format.exponentBias] at *
      omega

/-- A rational number under a sign. -/
def signed : Sign → Rat → Rat
  | .negative, value => -value
  | .positive, value => value

/-- The rational number of an unpacked one; zero if it is not finite. -/
def unpackedValue : UnpackedFloat → Rat
  | .finite sign digits last _ => signed sign (digits * 2 ^ last)
  | _ => 0

/-- The first power of two that is too large to be packed. -/
def ceiling : Rat :=
  2 ^ 53 * 2 ^ (971 : Int)

theorem ceiling_pos : 0 < ceiling :=
  mul_pos (pow_pos two_pos _) (zpow_pos two_pos _)

theorem bounded_of_isFinite {number : UnpackedFloat}
    (h : (bounded number).isFinite = true) : bounded number = number := by
  cases number with
  | finite sign digits last hpositive =>
      rw [bounded] at h ⊢
      split_ifs at h ⊢ with hfits
      · rfl
      · cases h
  | _ => rfl

theorem abs_signed (sign : Sign) {value : Rat} (h : 0 ≤ value) : |signed sign value| = value := by
  cases sign with
  | negative => rw [signed, abs_neg, abs_of_nonneg h]
  | positive => rw [signed, abs_of_nonneg h]

/-- A number below the first power of two that is too large can be packed. -/
theorem bounded_of_lt {number : UnpackedFloat} (h : Canonical number)
    (hvalue : |unpackedValue number| < ceiling) : bounded number = number := by
  cases number with
  | finite sign digits last hpositive =>
      obtain ⟨_, _, hnormal⟩ := h
      rw [bounded, if_pos]
      by_contra hlarge
      have hfull : (2 : Rat) ^ 52 ≤ digits := by
        exact_mod_cast hnormal.resolve_right (by omega)
      have hpower := zpow_le_zpow_two (show (972 : Int) ≤ last by omega)
      have hpositive' : (0 : Rat) < 2 ^ last := zpow_pos two_pos _
      rw [unpackedValue, abs_signed sign (by positivity)] at hvalue
      have hle : ceiling ≤ digits * 2 ^ last := by
        calc ceiling = 2 ^ 52 * 2 ^ (972 : Int) := by
              unfold ceiling
              rw [show (972 : Int) = 1 + 971 from rfl, zpow_add_two]
              ring
          _ ≤ digits * 2 ^ last := by gcongr
      exact absurd hvalue hle.not_gt
  | _ => rfl

theorem abs_lt_of_bounded {number : UnpackedFloat} (h : Canonical number)
    (hfits : bounded number = number) : |unpackedValue number| < ceiling := by
  cases number with
  | finite sign digits last hpositive =>
      obtain ⟨hdigits, _, _⟩ := h
      have hlast : last ≤ 971 := by
        by_contra hlarge
        rw [bounded, if_neg hlarge] at hfits
        cases hfits
      have hpower : (0 : Rat) < 2 ^ last := zpow_pos two_pos _
      rw [unpackedValue, abs_signed sign (by positivity)]
      calc (digits : Rat) * 2 ^ last < 2 ^ 53 * 2 ^ last :=
            mul_lt_mul_of_pos_right (by exact_mod_cast hdigits) hpower
        _ ≤ ceiling := mul_le_mul_of_nonneg_left (zpow_le_zpow_two hlast) (by norm_num)
  | _ => exact (abs_zero (α := Rat)).trans_lt ceiling_pos

section Order

variable {first second : Nat} {firstLast secondLast : Int}

/-- The digits end where those of the nearest number end. -/
theorem exponent_digits {sign : Sign} {digits : Nat} {last : Int} {hpositive : 0 < digits}
    (h : Canonical (.finite sign digits last hpositive)) :
    exponent (digits * 2 ^ last) = last := by
  obtain ⟨hdigits, hlast, hnormal⟩ := h
  have hpower : (0 : Rat) < 2 ^ last := zpow_pos two_pos _
  have hvalue : (0 : Rat) < digits * 2 ^ last := by positivity
  have hupper : (digits : Rat) * 2 ^ last < 2 ^ 53 * 2 ^ last :=
    mul_lt_mul_of_pos_right (by exact_mod_cast hdigits) hpower
  rcases hnormal with hfull | rfl
  · exact exponent_eq hlast (mul_le_mul_of_nonneg_right (by exact_mod_cast hfull) hpower.le)
      hupper
  · exact le_antisymm (exponent_le hvalue hupper hlast) (le_exponent _)

theorem lt_of_last_lt {sign other : Sign} {hfirst : 0 < first} {hsecond : 0 < second}
    (h : Canonical (.finite sign first firstLast hfirst))
    (h' : Canonical (.finite other second secondLast hsecond))
    (hlast : firstLast < secondLast) :
    (first : Rat) * 2 ^ firstLast < second * 2 ^ secondLast := by
  have hpower : (0 : Rat) < 2 ^ secondLast := zpow_pos two_pos _
  by_contra hle
  have hmono := exponent_mono (by positivity) (not_lt.mp hle)
  rw [exponent_digits h, exponent_digits h'] at hmono
  omega

/-- Comparing the exponents before the digits compares the numbers. -/
theorem compare_digits {sign other : Sign} {hfirst : 0 < first} {hsecond : 0 < second}
    (h : Canonical (.finite sign first firstLast hfirst))
    (h' : Canonical (.finite other second secondLast hsecond)) :
    (compare firstLast secondLast).then (compare first second) =
      compare ((first : Rat) * 2 ^ firstLast) (second * 2 ^ secondLast) := by
  rcases lt_trichotomy firstLast secondLast with hlast | rfl | hlast
  · rw [compare_lt_iff_lt.mpr hlast, compare_lt_iff_lt.mpr (lt_of_last_lt h h' hlast)]
    rfl
  · have hpower : (0 : Rat) < 2 ^ firstLast := zpow_pos two_pos _
    rw [compare_eq_iff_eq.mpr rfl, Ordering.eq_then]
    rcases lt_trichotomy first second with hdigits | rfl | hdigits
    · rw [compare_lt_iff_lt.mpr hdigits, compare_lt_iff_lt.mpr]
      exact mul_lt_mul_of_pos_right (by exact_mod_cast hdigits) hpower
    · rw [compare_eq_iff_eq.mpr rfl, compare_eq_iff_eq.mpr rfl]
    · rw [compare_gt_iff_gt.mpr hdigits, compare_gt_iff_gt.mpr]
      exact mul_lt_mul_of_pos_right (by exact_mod_cast hdigits) hpower
  · rw [compare_gt_iff_gt.mpr hlast, compare_gt_iff_gt.mpr (lt_of_last_lt h' h hlast)]
    rfl

theorem compare_neg (left right : Rat) :
    compare (-left) (-right) = (compare left right).swap := by
  rcases lt_trichotomy left right with h | rfl | h
  · rw [compare_lt_iff_lt.mpr h, compare_gt_iff_gt.mpr (neg_lt_neg h)]
    rfl
  · rw [compare_eq_iff_eq.mpr rfl, compare_eq_iff_eq.mpr rfl]
    rfl
  · rw [compare_gt_iff_gt.mpr h, compare_lt_iff_lt.mpr (neg_lt_neg h)]
    rfl

theorem unpackedValue_pos {digits : Nat} {last : Int} (hpositive : 0 < digits) :
    0 < unpackedValue (.finite .positive digits last hpositive) := by
  have hpower : (0 : Rat) < 2 ^ last := zpow_pos two_pos _
  simp only [unpackedValue, signed]
  positivity

theorem unpackedValue_neg {digits : Nat} {last : Int} (hpositive : 0 < digits) :
    unpackedValue (.finite .negative digits last hpositive) < 0 :=
  neg_lt_zero.mpr (unpackedValue_pos hpositive)

/-- Finite numbers are compared like their values. -/
theorem compare_eq {left right : UnpackedFloat} (hleft : Canonical left)
    (hright : Canonical right) (hfinite : left.isFinite = true)
    (hfinite' : right.isFinite = true) :
    left.compare right = some (compare (unpackedValue left) (unpackedValue right)) := by
  cases left with
  | infinity sign => cases hfinite
  | notANumber => cases hfinite
  | zero sign =>
      cases right with
      | infinity other => cases hfinite'
      | notANumber => cases hfinite'
      | zero other => exact congrArg some (compare_eq_iff_eq.mpr rfl).symm
      | finite other digits last hpositive =>
          cases other with
          | negative => exact congrArg some (compare_gt_iff_gt.mpr (unpackedValue_neg _)).symm
          | positive => exact congrArg some (compare_lt_iff_lt.mpr (unpackedValue_pos _)).symm
  | finite sign digits last hpositive =>
      cases right with
      | infinity other => cases hfinite'
      | notANumber => cases hfinite'
      | zero other =>
          cases sign with
          | negative => exact congrArg some (compare_lt_iff_lt.mpr (unpackedValue_neg _)).symm
          | positive => exact congrArg some (compare_gt_iff_gt.mpr (unpackedValue_pos _)).symm
      | finite other digits' last' hpositive' =>
          cases sign <;> cases other
          case positive.positive => exact congrArg some (compare_digits hleft hright)
          case negative.positive =>
            exact congrArg some (compare_lt_iff_lt.mpr
              ((unpackedValue_neg _).trans (unpackedValue_pos _))).symm
          case positive.negative =>
            exact congrArg some (compare_gt_iff_gt.mpr
              ((unpackedValue_neg _).trans (unpackedValue_pos _))).symm
          case negative.negative =>
            simp only [UnpackedFloat.compare, compare_digits hleft hright, unpackedValue,
              signed, compare_neg]

/-- A positive number is finite, and has digits. -/
theorem exists_digits {number : UnpackedFloat} (h : 0 < unpackedValue number) :
    ∃ digits last hpositive, number = .finite .positive digits last hpositive := by
  cases number with
  | infinity sign => exact absurd h (lt_irrefl 0)
  | notANumber => exact absurd h (lt_irrefl 0)
  | zero sign => exact absurd h (lt_irrefl 0)
  | finite sign digits last hpositive =>
      cases sign with
      | negative => exact absurd h (unpackedValue_neg hpositive).le.not_gt
      | positive => exact ⟨digits, last, hpositive, rfl⟩

/-- Positive numbers of the same value are the same. -/
theorem eq_of_unpackedValue_eq {left right : UnpackedFloat} (hleft : Canonical left)
    (hright : Canonical right) (hpositive : 0 < unpackedValue left)
    (hvalue : unpackedValue left = unpackedValue right) : left = right := by
  obtain ⟨digits, last, hdigits, rfl⟩ := exists_digits hpositive
  obtain ⟨digits', last', hdigits', rfl⟩ := exists_digits (hvalue ▸ hpositive)
  simp only [unpackedValue, signed] at hvalue
  have hlast : last = last' := by
    rw [← exponent_digits hleft, ← exponent_digits hright, hvalue]
  subst hlast
  have hpower : (0 : Rat) < 2 ^ last := zpow_pos two_pos _
  have hcast : (digits : Rat) = digits' := mul_right_cancel₀ hpower.ne' hvalue
  have hsame : digits = digits' := by exact_mod_cast hcast
  subst hsame
  rfl

end Order

end Parterre.Binary64
