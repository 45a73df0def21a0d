/-
The operations on unpacked numbers.  Each one computes an exact result with
enough digits and then rounds it, so what it returns for finite numbers is the
nearest number to the result.
-/
import Parterre.Proofs.Binary64.Rounding

namespace Parterre.Binary64

open Float.Model
open Float.Model.UnpackedFloat

theorem decreaseExponent_eq (mantissa : Nat) (last target : Int) :
    ∃ digits last', decreaseExponent mantissa last target = (digits, last') ∧
      last' = min last target ∧ (digits : Rat) * 2 ^ last' = mantissa * 2 ^ last := by
  have hsplit : (2 : Rat) ^ last =
      2 ^ (last - target).toNat * 2 ^ (last - (last - target).toNat) := by
    rw [← zpow_natCast, ← zpow_add_two]
    congr 1
    omega
  refine ⟨_, _, rfl, by omega, ?_⟩
  rw [Nat.shiftLeft_eq, hsplit]
  push_cast
  ring

/-- The digits of a number for a smaller exponent. -/
theorem decreaseExponent_fst (mantissa : Nat) {last target : Int} (h : target ≤ last) :
    ((decreaseExponent mantissa last target).1 : Rat) * 2 ^ target = mantissa * 2 ^ last := by
  obtain ⟨digits, last', hdecrease, hlast, hvalue⟩ := decreaseExponent_eq mantissa last target
  rw [min_eq_right h] at hlast
  rw [hdecrease, ← hvalue, hlast]

/-- The exponent aimed at for given digits. -/
theorem targetExponent_digits {mantissa : Nat} (last : Int) (h : 0 < mantissa) :
    Format.binary64.targetExponent (totalExponent mantissa last) =
      exponent (mantissa * 2 ^ last) := by
  rw [exponent, log_mul_two_zpow last h le_rfl (lt_add_one _), targetExponent_eq_max,
    totalExponent]
  omega

theorem round_rounds (sign : Sign) (mantissa : Nat) (last : Int) (h : 0 < mantissa) :
    Rounds (UnpackedFloat.round Format.binary64 sign mantissa last)
      (signed sign (mantissa * 2 ^ last)) := by
  have hpower : (0 : Rat) < 2 ^ last := zpow_pos two_pos _
  obtain ⟨digits, last', hdecrease, hlast, hvalue⟩ :=
    decreaseExponent_eq mantissa last (exponent (mantissa * 2 ^ last))
  have hdigits : (0 : Rat) < digits := by
    have hpower' : (0 : Rat) < 2 ^ last' := zpow_pos two_pos _
    have hproduct : (0 : Rat) < digits * 2 ^ last' := hvalue ▸ by positivity
    exact (mul_pos_iff_of_pos_right hpower').mp hproduct
  simp only [UnpackedFloat.round, targetExponent_digits last h, hdecrease]
  rw [← hvalue]
  apply roundWithAccuracy_rounds sign (.of_exact digits) hdigits
  rw [hvalue, hlast]
  exact min_le_right _ _

/-- A whole number of units is rounded to the nearest number. -/
theorem normalize_rounds (mantissa last : Int) (zeroSign : Sign) :
    Rounds (UnpackedFloat.normalize Format.binary64 mantissa last zeroSign)
      (mantissa * 2 ^ last) := by
  rcases lt_trichotomy mantissa 0 with h | rfl | h
  · obtain ⟨digits, rfl⟩ : ∃ digits : Nat, mantissa = -digits :=
      ⟨(-mantissa).toNat, by omega⟩
    have hround := round_rounds .negative digits last (by omega)
    have hdigits : (-(-(digits : Int))).toNat = digits := by omega
    simp only [UnpackedFloat.normalize, compare_lt_iff_lt.mpr h, hdigits]
    rw [Int.cast_neg, Int.cast_natCast, neg_mul]
    exact hround
  · have hzero : UnpackedFloat.normalize Format.binary64 0 last zeroSign = .zero zeroSign := rfl
    rw [hzero, Int.cast_zero, zero_mul]
    exact ⟨rfl, trivial, by simp [unpackedValue, nearest]⟩
  · obtain ⟨digits, rfl⟩ := Int.eq_ofNat_of_zero_le h.le
    have hround := round_rounds .positive digits last (by omega)
    simp only [UnpackedFloat.normalize, compare_gt_iff_gt.mpr h, Int.toNat_natCast]
    rw [Int.cast_natCast]
    exact hround

@[simp]
theorem unpackedValue_zero (sign : Sign) : unpackedValue (.zero sign) = 0 :=
  rfl

theorem apply_mul_two_zpow (sign : Sign) (digits : Nat) (last : Int) :
    ((sign.apply digits : Int) : Rat) * 2 ^ last = signed sign (digits * 2 ^ last) := by
  cases sign with
  | negative => simp [Sign.apply, signed]
  | positive => simp [Sign.apply, signed]

/-- A canonical number is its own nearest one. -/
theorem nearest_unpackedValue {number : UnpackedFloat} (h : Canonical number) :
    nearest (unpackedValue number) = unpackedValue number := by
  cases number with
  | infinity sign => simp [unpackedValue, nearest]
  | notANumber => simp [unpackedValue, nearest]
  | zero sign => simp [nearest]
  | finite sign digits last hpositive =>
      have hpower : (0 : Rat) < 2 ^ last := zpow_pos two_pos _
      obtain ⟨hdigits, hlast, _⟩ := h
      rw [unpackedValue, nearest_signed sign (by positivity),
        nearestAbs_of_representable ⟨digits, last, hdigits, hlast, rfl⟩]

theorem Rounds.of_canonical (number : UnpackedFloat) (h : Canonical number)
    (hfinite : number.isFinite = true) : Rounds number (unpackedValue number) :=
  ⟨hfinite, h, (nearest_unpackedValue h).symm⟩

theorem Rounds.zero (sign : Sign) : Rounds (.zero sign) 0 :=
  .of_canonical (.zero sign) trivial rfl

variable {left right : UnpackedFloat}

theorem add_rounds (hleft : Canonical left) (hright : Canonical right)
    (hfinite : left.isFinite = true) (hfinite' : right.isFinite = true) :
    Rounds (UnpackedFloat.add Format.binary64 left right)
      (unpackedValue left + unpackedValue right) := by
  cases left with
  | infinity sign => cases hfinite
  | notANumber => cases hfinite
  | zero sign =>
      cases right with
      | infinity other => cases hfinite'
      | notANumber => cases hfinite'
      | zero other =>
          simp only [UnpackedFloat.add, unpackedValue_zero, add_zero]
          split_ifs <;> exact .zero _
      | finite other digits last hpositive =>
          rw [unpackedValue_zero, zero_add]
          exact .of_canonical _ hright rfl
  | finite sign digits last hpositive =>
      cases right with
      | infinity other => cases hfinite'
      | notANumber => cases hfinite'
      | zero other =>
          rw [unpackedValue_zero, add_zero]
          exact .of_canonical _ hleft rfl
      | finite other digits' last' hpositive' =>
          have hfirst := decreaseExponent_fst digits (min_le_left last last')
          have hsecond := decreaseExponent_fst digits' (min_le_right last last')
          have hsum : (((sign.apply (decreaseExponent digits last (min last last')).1 +
              other.apply (decreaseExponent digits' last' (min last last')).1 : Int)) : Rat) *
                2 ^ min last last' =
              signed sign (digits * 2 ^ last) + signed other (digits' * 2 ^ last') := by
            rw [Int.cast_add, add_mul, apply_mul_two_zpow, apply_mul_two_zpow, hfirst, hsecond]
          rw [unpackedValue, unpackedValue, ← hsum]
          exact normalize_rounds _ _ _

theorem signed_neg (sign : Sign) (value : Rat) : signed (-sign) value = -signed sign value := by
  cases sign with
  | negative => exact (neg_neg value).symm
  | positive => rfl

theorem unpackedValue_opposite (number : UnpackedFloat) :
    unpackedValue (.neg number) = -unpackedValue number := by
  cases number with
  | finite sign digits last hpositive => exact signed_neg sign _
  | _ => exact neg_zero.symm

theorem apply_neg (sign : Sign) (digits : Nat) :
    (-sign).apply digits = -sign.apply digits := by
  cases sign with
  | negative => exact (neg_neg _).symm
  | positive => rfl

/-- Subtracting a number adds its opposite. -/
theorem sub_eq_add (left right : UnpackedFloat) :
    UnpackedFloat.sub Format.binary64 left right =
      UnpackedFloat.add Format.binary64 left (.neg right) := by
  cases left with
  | finite sign digits last hpositive =>
      cases right with
      | finite other digits' last' hpositive' =>
          simp only [UnpackedFloat.sub, UnpackedFloat.add, UnpackedFloat.neg, apply_neg,
            sub_eq_add_neg]
      | _ => rfl
  | _ => cases right <;> rfl

theorem sub_rounds (hleft : Canonical left) (hright : Canonical right)
    (hfinite : left.isFinite = true) (hfinite' : right.isFinite = true) :
    Rounds (UnpackedFloat.sub Format.binary64 left right)
      (unpackedValue left - unpackedValue right) := by
  have hopposite : Canonical (.neg right) ∧ (UnpackedFloat.neg right).isFinite = true := by
    cases right <;> exact ⟨hright, hfinite'⟩
  rw [sub_eq_add, sub_eq_add_neg, ← unpackedValue_opposite]
  exact add_rounds hleft hopposite.1 hfinite hopposite.2

theorem signed_mul (sign other : Sign) (value value' : Rat) :
    signed (sign * other) (value * value') = signed sign value * signed other value' := by
  cases sign with
  | negative =>
      cases other with
      | negative => exact (neg_mul_neg value value').symm
      | positive => exact (neg_mul value value').symm
  | positive =>
      cases other with
      | negative => exact (mul_neg value value').symm
      | positive => rfl

theorem mul_two_zpow_mul (digits digits' : Nat) (last last' : Int) :
    (digits : Rat) * 2 ^ last * (digits' * 2 ^ last') =
      (digits * digits' : Nat) * 2 ^ (last + last') := by
  rw [zpow_add_two, Nat.cast_mul]
  ring

/-- A product has enough digits. -/
theorem add_le_exponent {sign other : Sign} {digits digits' : Nat} {last last' : Int}
    {hpositive : 0 < digits} {hpositive' : 0 < digits'}
    (hleft : Canonical (.finite sign digits last hpositive))
    (hright : Canonical (.finite other digits' last' hpositive')) :
    last + last' ≤ exponent ((digits * digits' : Nat) * 2 ^ (last + last')) := by
  obtain ⟨_, _, hnormal⟩ := hleft
  obtain ⟨_, _, hnormal'⟩ := hright
  have hproduct : 0 < digits * digits' := Nat.mul_pos hpositive hpositive'
  by_cases hsmall : last = -1074 ∧ last' = -1074
  · have hexponent := le_exponent ((digits * digits' : Nat) * 2 ^ (last + last'))
    omega
  · have hlarge : 2 ^ 52 ≤ digits * digits' := by
      have hfull : 2 ^ 52 ≤ digits ∨ 2 ^ 52 ≤ digits' := by omega
      rcases hfull with hfull | hfull
      · exact hfull.trans (Nat.le_mul_of_pos_right digits hpositive')
      · exact hfull.trans (Nat.le_mul_of_pos_left digits' hpositive)
    have hlog : 52 ≤ (digits * digits').log2 := (Nat.le_log2 hproduct.ne').mpr hlarge
    rw [exponent, log_mul_two_zpow _ hproduct le_rfl (lt_add_one _)]
    omega

theorem mul_rounds (hleft : Canonical left) (hright : Canonical right)
    (hfinite : left.isFinite = true) (hfinite' : right.isFinite = true) :
    Rounds (UnpackedFloat.mul Format.binary64 left right)
      (unpackedValue left * unpackedValue right) := by
  cases left with
  | infinity sign => cases hfinite
  | notANumber => cases hfinite
  | zero sign =>
      rw [unpackedValue_zero, zero_mul]
      cases right with
      | infinity other => cases hfinite'
      | notANumber => cases hfinite'
      | zero other => exact .zero _
      | finite other digits last hpositive => exact .zero _
  | finite sign digits last hpositive =>
      cases right with
      | infinity other => cases hfinite'
      | notANumber => cases hfinite'
      | zero other =>
          rw [unpackedValue_zero, mul_zero]
          exact .zero _
      | finite other digits' last' hpositive' =>
          have hproduct : (0 : Rat) < (digits * digits' : Nat) := by
            exact_mod_cast Nat.mul_pos hpositive hpositive'
          rw [unpackedValue, unpackedValue, ← signed_mul, mul_two_zpow_mul]
          exact roundWithAccuracy_rounds _ (.of_exact _) hproduct (add_le_exponent hleft hright)

theorem signed_div (sign other : Sign) (value value' : Rat) :
    signed (sign / other) (value / value') = signed sign value / signed other value' := by
  cases sign with
  | negative =>
      cases other with
      | negative => exact (neg_div_neg_eq value value').symm
      | positive => exact (neg_div value' value).symm
  | positive =>
      cases other with
      | negative => exact (div_neg value).symm
      | positive => rfl

/-- A fraction below one is compared with a half. -/
theorem Dropped.of_fraction (mantissa : Nat) {rest denominator : Nat}
    (h : rest < denominator) :
    Dropped (ExtendedMantissa.ofMantissaAndAccuracy mantissa
        (accuracyOfFraction rest denominator)).roundBit
      (ExtendedMantissa.ofMantissaAndAccuracy mantissa
        (accuracyOfFraction rest denominator)).stickyBit
      ((rest : Rat) / denominator) := by
  have hpositive : (0 : Rat) < denominator := by exact_mod_cast Nat.zero_lt_of_lt h
  rw [accuracyOfFraction]
  by_cases hzero : rest = 0
  · rw [if_pos hzero, hzero, Nat.cast_zero, zero_div]
    exact .nothing
  have hrest : (0 : Rat) < rest := by exact_mod_cast Nat.pos_of_ne_zero hzero
  rw [if_neg hzero]
  rcases lt_trichotomy (2 * rest) denominator with hlt | heq | hlt
  · have hhalf : (2 * rest : Rat) < denominator := by exact_mod_cast hlt
    rw [compare_lt_iff_lt.mpr hlt]
    apply Dropped.little (by positivity)
    rw [div_lt_iff₀ hpositive]
    linarith
  · have hhalf : (2 * rest : Rat) = denominator := by exact_mod_cast heq
    have hvalue : (rest : Rat) / denominator = 1 / 2 := by
      rw [div_eq_iff hpositive.ne']
      linarith
    rw [compare_eq_iff_eq.mpr heq, hvalue]
    exact .half
  · have hhalf : (denominator : Rat) < 2 * rest := by exact_mod_cast hlt
    have hone : (rest : Rat) / denominator < 1 := by
      rw [div_lt_one hpositive]
      exact_mod_cast h
    rw [compare_gt_iff_gt.mpr hlt]
    apply Dropped.much _ hone
    rw [lt_div_iff₀ hpositive]
    linarith

/-- The remainder of a division says what part of a unit is dropped. -/
theorem Leaves.of_fraction (numerator : Nat) {denominator : Nat} (h : 0 < denominator) :
    Leaves ((numerator : Rat) / denominator)
      (.ofMantissaAndAccuracy (numerator / denominator)
        (accuracyOfFraction (numerator % denominator) denominator)) := by
  have hpositive : (0 : Rat) < denominator := by exact_mod_cast h
  have hpart : (numerator : Rat) / denominator - (numerator / denominator : Nat) =
      (numerator % denominator : Nat) / denominator := by
    have hsplit : (numerator : Rat) =
        (numerator % denominator : Nat) + denominator * (numerator / denominator : Nat) := by
      exact_mod_cast (Nat.mod_add_div numerator denominator).symm
    rw [sub_eq_iff_eq_add, div_eq_iff hpositive.ne', add_mul, div_mul_cancel₀ _ hpositive.ne',
      mul_comm ((numerator / denominator : Nat) : Rat)]
    exact hsplit
  unfold Leaves
  rw [mantissa_ofMantissaAndAccuracy, hpart]
  exact .of_fraction _ (Nat.mod_lt numerator h)

/-- The exponent of a quotient is known up to one from those of its parts. -/
theorem le_log_div {digits digits' : Nat} (last last' : Int) (h : 0 < digits)
    (h' : 0 < digits') :
    totalExponent digits last - totalExponent digits' last' - 1 ≤
      Int.log 2 ((digits : Rat) * 2 ^ last / (digits' * 2 ^ last')) := by
  have hdigits : (0 : Rat) < digits := by exact_mod_cast h
  have hdigits' : (0 : Rat) < digits' := by exact_mod_cast h'
  have hpower : (0 : Rat) < 2 ^ last := zpow_pos two_pos _
  have hpower' : (0 : Rat) < 2 ^ last' := zpow_pos two_pos _
  have hlower := two_zpow_log2_le h
  have hupper := (lt_add_one (digits' : Rat)).le.trans (add_one_le_two_zpow_log2 digits')
  apply (Int.zpow_le_iff_le_log (b := 2) one_lt_two (by positivity)).mp
  rw [Nat.cast_ofNat, le_div_iff₀ (by positivity)]
  calc (2 : Rat) ^ (totalExponent digits last - totalExponent digits' last' - 1) *
        (digits' * 2 ^ last')
      ≤ 2 ^ (totalExponent digits last - totalExponent digits' last' - 1) *
        (2 ^ (digits'.log2 + 1 : Int) * 2 ^ last') := by gcongr
    _ = 2 ^ (digits.log2 : Int) * 2 ^ last := by
        rw [← zpow_add_two, ← zpow_add_two, ← zpow_add_two]
        congr 1
        unfold totalExponent
        omega
    _ ≤ digits * 2 ^ last := by gcongr

/-- A quotient has enough digits. -/
theorem divCore_eq (digits digits' : Nat) (last last' : Int)
    (hpositive : 0 < digits) (hpositive' : 0 < digits') :
    ∃ numerator target, divCore Format.binary64 digits last digits' last' =
        (numerator / digits', target,
          accuracyOfFraction (numerator % digits') digits') ∧
      (numerator : Rat) / digits' * 2 ^ target =
        digits * 2 ^ last / (digits' * 2 ^ last') ∧
      target ≤ exponent (digits * 2 ^ last / (digits' * 2 ^ last')) := by
  have hdigits : (0 : Rat) < digits' := by exact_mod_cast hpositive'
  refine ⟨_, _, rfl, ?_, ?_⟩
  · generalize htarget : min (last - last') (Format.binary64.targetExponent
      (totalExponent digits last - totalExponent digits' last')) = target
    have hle : target ≤ last - last' := htarget ▸ min_le_left _ _
    have hsplit : (2 : Rat) ^ last =
        2 ^ last' * 2 ^ (last - last' - target).toNat * 2 ^ target := by
      rw [← zpow_natCast, ← zpow_add_two, ← zpow_add_two]
      congr 1
      omega
    rw [Nat.shiftLeft_eq, hsplit]
    push_cast
    field_simp
  · have hlog := le_log_div last last' hpositive hpositive'
    rw [targetExponent_eq_max, exponent]
    omega

/-- A quotient by a number other than zero. -/
theorem div_rounds (hleft : Canonical left) (hright : Canonical right)
    (hfinite : left.isFinite = true) (hne : unpackedValue right ≠ 0) :
    Rounds (UnpackedFloat.div Format.binary64 left right)
      (unpackedValue left / unpackedValue right) := by
  cases right with
  | infinity other => exact absurd rfl hne
  | notANumber => exact absurd rfl hne
  | zero other => exact absurd rfl hne
  | finite other digits' last' hpositive' =>
      cases left with
      | infinity sign => cases hfinite
      | notANumber => cases hfinite
      | zero sign =>
          rw [unpackedValue_zero, zero_div]
          exact .zero _
      | finite sign digits last hpositive =>
          obtain ⟨numerator, target, hcore, hvalue, htarget⟩ :=
            divCore_eq digits digits' last last' hpositive hpositive'
          have hpower : (0 : Rat) < 2 ^ target := zpow_pos two_pos _
          have hquotient : (0 : Rat) < (numerator : Rat) / digits' := by
            have hpower' : (0 : Rat) < 2 ^ last := zpow_pos two_pos _
            have hproduct : (0 : Rat) < (numerator : Rat) / digits' * 2 ^ target :=
              hvalue ▸ by positivity
            exact (mul_pos_iff_of_pos_right hpower).mp hproduct
          simp only [UnpackedFloat.div, hcore]
          rw [unpackedValue, unpackedValue, ← signed_div, ← hvalue]
          rw [← hvalue] at htarget
          exact roundWithAccuracy_rounds _ (.of_fraction numerator hpositive') hquotient htarget

end Parterre.Binary64
